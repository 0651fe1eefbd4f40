import CatchOS.Mmu.LiballocPlace
import Mathlib.Algebra.Order.BigOperators.Group.List
import Mathlib.Algebra.Order.Group.Nat

/-!
# The majors of the heap

`HeapStored` says that the globals and the memory are those of a list of majors: they are
linked in the order of the list, every one is laid out, no two have a byte in common, the best
bet is one of them, the two totals are right, and their pages are the ones that the page
allocator has handed out.

The page allocator is any `PageSource`: hooks that return `NULL`, or pages that nobody holds.
`HeapStored` is kept when one major gets another list of minors (`HeapStored.respliced`), when
a new major is linked behind the last one (`appendMajor_spec`), and when one is taken out.
-/

set_option autoImplicit false

namespace CatchOS.Mmu

open CatchOS CatchOS.Lib

universe u

/-! ## The page allocator -/

/-- Hooks that hand out pages nobody holds, behind those of the kernel, and take back what they
handed out. -/
structure PageSource (Source : Type u) extends Hooks Source where
  /-- The runs of pages that are held by the heap. -/
  Owns : Source → List Extent → Prop
  perm : ∀ {state : Source} {held held' : List Extent}, Owns state held → held.Perm held' →
    Owns state held'
  alloc : ∀ {state : Source} {held : List Extent} {pages : ℕ}, Owns state held → 1 ≤ pages →
    pages < 2 ^ 32 → ∃ ret after, liballocAlloc state pages = some (ret, after) ∧
      ((ret = 0 ∧ Owns after held) ∨
        ∃ start, ret = start * 4096 ∧ 2048 ≤ start ∧ start + pages < 2 ^ 20 ∧
          (∀ other ∈ held, Extent.Apart ⟨start, pages⟩ other) ∧
            Owns after (⟨start, pages⟩ :: held))
  free : ∀ {state : Source} {held : List Extent} {block : Extent}, Owns state (block :: held) →
    Owns (liballocFree state (block.start * 4096) block.size) held

/-! ## Lists of majors -/

/-- The bytes of a run of pages. -/
theorem pages_apart {first second : Major} (aligned : first.start % 4096 = 0)
    (alignedSecond : second.start % 4096 = 0) (apart : first.pageExtent.Apart second.pageExtent) :
    first.extent.Apart second.extent := by
  simp only [Extent.apart_iff, Major.pageExtent, Major.extent, Liballoc.pageSize] at apart ⊢
  omega

/-- The blocks of a heap: what was requested and not given back. -/
def heapBlocks (majors : List Major) : List Extent := majors.flatMap Major.blocks

/-- Where the majors may lie: behind the pages of the kernel. -/
def heapFloor : ℕ := 2048 * 4096

/-- The byte is one of the kernel's pages or of a block. -/
def Kept (blocks : List Extent) (address : ℕ) : Prop :=
  address < heapFloor ∨ ∃ block ∈ blocks, block.Contains address

/-- The kernel's pages and the blocks have the same bytes in both memories. -/
def SameOn (blocks : List Extent) (memory memory' : Memory) : Prop :=
  ∀ address, Kept blocks address → memory' address = memory address

theorem Kept.subset {blocks fewer : List Extent} {address : ℕ} (kept : Kept fewer address)
    (subset : fewer ⊆ blocks) : Kept blocks address :=
  kept.imp_right fun ⟨block, member, contained⟩ => ⟨block, subset member, contained⟩

theorem SameOn.trans {blocks : List Extent} {memory memory' memory'' : Memory}
    (first : SameOn blocks memory memory') (second : SameOn blocks memory' memory'') :
    SameOn blocks memory memory'' := fun address kept =>
  (second address kept).trans (first address kept)

theorem SameOn.subset {blocks fewer : List Extent} {memory memory' : Memory}
    (same : SameOn blocks memory memory') (subset : fewer ⊆ blocks) : SameOn fewer memory memory' :=
  fun address kept => same address (kept.subset subset)

theorem mem_heapBlocks {majors : List Major} {block : Extent} :
    block ∈ heapBlocks majors ↔ ∃ major ∈ majors, ∃ minor ∈ major.minors, minor.block = block := by
  simp only [heapBlocks, Major.blocks, List.mem_flatMap, List.mem_map]

theorem heapBlocks_subset {majors fewer : List Major}
    (subset : ∀ ⦃major⦄, major ∈ fewer → major ∈ majors) :
    heapBlocks fewer ⊆ heapBlocks majors := by
  intro block isBlock
  obtain ⟨major, member, minor⟩ := mem_heapBlocks.mp isBlock
  exact mem_heapBlocks.mpr ⟨major, subset member, minor⟩

/-- No two majors have a byte in common. -/
def MajorsApart (majors : List Major) : Prop :=
  majors.Pairwise fun first second => first.extent.Apart second.extent

/-- The bytes of the minors of all majors. -/
def bytesInUse (majors : List Major) : ℕ := ((majors.flatMap Major.minors).map Minor.size).sum

def bytesAllocated (majors : List Major) : ℕ := (majors.map fun major => major.extent.size).sum

section Sums

variable {majors front back : List Major} {major : Major}

theorem bytesInUse_append (front back : List Major) :
    bytesInUse (front ++ back) = bytesInUse front + bytesInUse back := by
  simp only [bytesInUse, List.flatMap_append, List.map_append, List.sum_append]

theorem bytesInUse_singleton (major : Major) :
    bytesInUse [major] = (major.minors.map Minor.size).sum := by
  simp [bytesInUse]

theorem bytesAllocated_append (front back : List Major) :
    bytesAllocated (front ++ back) = bytesAllocated front + bytesAllocated back := by
  simp only [bytesAllocated, List.map_append, List.sum_append]

theorem bytesAllocated_singleton (major : Major) : bytesAllocated [major] = major.extent.size := by
  simp [bytesAllocated]

theorem bytesAllocated_le (laid : ∀ major ∈ majors, major.Laid) (apart : MajorsApart majors) :
    bytesAllocated majors ≤ 2 ^ 32 := by
  have apart' : (majors.map Major.extent).Pairwise Extent.Apart := List.pairwise_map.mpr apart
  have bound := @sum_size_le _ (2 ^ 32) apart' fun extent member => by
    obtain ⟨major, isMajor, rfl⟩ := List.mem_map.mp member
    exact Nat.le_of_lt (laid major isMajor).fits
  rwa [List.map_map] at bound

/-- The bytes of the minors and of all headers are in the pages. -/
theorem Major.Laid.inUse_le (laid : major.Laid) :
    (major.minors.map Minor.size).sum + 24 * (major.minors.length + 1) ≤ major.extent.size := by
  have used := laid.usage_le
  have sums : ((major.minors.map Minor.extent).map Extent.size).sum =
      (major.minors.map Minor.size).sum + 24 * major.minors.length := by
    rw [List.map_map]
    induction major.minors with
    | nil => rfl
    | cons minor rest ih =>
        have size : (Extent.size ∘ Minor.extent) minor = 24 + minor.size := rfl
        rw [List.map_cons, List.map_cons, List.sum_cons, List.sum_cons, List.length_cons, ih, size]
        omega
  simp only [Major.usage, Major.stop, Major.extent, majorHeaderSize] at *
  omega

theorem bytesInUse_headers_le (laid : ∀ major ∈ majors, major.Laid) :
    bytesInUse majors + 24 * ((majors.flatMap Major.minors).length + majors.length) ≤
      bytesAllocated majors := by
  induction majors with
  | nil => exact Nat.le_refl _
  | cons major rest ih =>
      obtain ⟨here, later⟩ := List.forall_mem_cons.mp laid
      have bound := ih later
      have inUse := here.inUse_le
      have used := bytesInUse_append [major] rest
      have held := bytesAllocated_append [major] rest
      rw [bytesInUse_singleton] at used
      rw [bytesAllocated_singleton] at held
      rw [List.singleton_append] at used held
      rw [List.flatMap_cons, List.length_append, List.length_cons]
      omega

theorem bytesInUse_le (laid : ∀ major ∈ majors, major.Laid) (apart : MajorsApart majors) :
    bytesInUse majors ≤ 2 ^ 32 := by
  have used := bytesInUse_headers_le laid
  have held := bytesAllocated_le laid apart
  omega

end Sums

/-! ## The heap -/

namespace Liballoc

variable {Source : Type u} (source : PageSource Source)

/-- **The heap in memory**: the state is that of a list of majors. -/
structure HeapStored (state : Liballoc Source) (majors : List Major) : Prop where
  root : state.memRoot = firstOf Major.start majors 0
  linked : Linked Major.start (MajorStored state.memory) 0 majors 0
  laid : ∀ major ∈ majors, major.Laid
  aligned : ∀ major ∈ majors, major.start % 4096 = 0
  above : ∀ major ∈ majors, heapFloor ≤ major.start
  apart : MajorsApart majors
  bet : state.bestBet = 0 ∨ ∃ major ∈ majors, major.start = state.bestBet
  allocated : state.allocated = bytesAllocated majors
  inuse : state.inuse = bytesInUse majors
  owns : source.Owns state.source (majors.map Major.pageExtent)

variable {source} {state : Liballoc Source} {memory : Memory} {majors front back : List Major}
  {major other : Major} {minor : Minor}

namespace HeapStored

theorem stored (heap : HeapStored source state (front ++ [major] ++ back)) :
    MajorStored state.memory (lastOf Major.start 0 front) major (firstOf Major.start back 0) := by
  have linked := heap.linked
  rw [List.append_assoc, linked_append, linked_append] at linked
  exact linked.2.1.1

/-- Different majors of the heap have no byte in common. -/
theorem separate (heap : HeapStored source state majors) (member : major ∈ majors)
    (otherMember : other ∈ majors) (different : major ≠ other) :
    major.extent.Apart other.extent := by
  let Separate (first second : Major) : Prop := first.extent.Apart second.extent
  have symmetric : Std.Symm Separate := ⟨fun _ _ => Extent.Apart.symm⟩
  have apart : majors.Pairwise Separate := heap.apart
  exact apart.forall member otherMember different

/-- The headers of different majors are apart. -/
theorem order (heap : HeapStored source state majors) (member : major ∈ majors)
    (otherMember : other ∈ majors) (different : major ≠ other) :
    major.start + 24 ≤ other.start ∨ other.start + 24 ≤ major.start := by
  have apart := Extent.apart_iff.mp (heap.separate member otherMember different)
  have here := (heap.laid major member).header_fits
  have there := (heap.laid other otherMember).header_fits
  have start : major.extent.start = major.start := rfl
  have otherStart : other.extent.start = other.start := rfl
  omega

theorem nodup (heap : HeapStored source state majors) : majors.Nodup := by
  refine heap.apart.imp_of_mem fun {first second} member _ apart same => ?_
  subst same
  have place := (heap.laid first member).header_fits
  have inside : first.extent.Contains first.start :=
    ⟨Nat.le_refl _, show first.start < first.start + first.extent.size by omega⟩
  exact apart first.start inside inside

/-- The bytes of the blocks of one major are in no header of another. -/
theorem block_not_header (heap : HeapStored source state majors) (member : major ∈ majors)
    (inMajor : minor ∈ major.minors) (otherMember : other ∈ majors) {address : ℕ}
    (contained : minor.block.Contains address) : ¬other.Header address := by
  have laid := heap.laid major member
  by_cases same : major = other
  · subst same
    exact laid.block_not_header inMajor contained
  · intro header
    have inOther := (heap.laid other otherMember).header_inside header
    exact heap.separate member otherMember same address (laid.block_inside inMajor contained)
      inOther

/-- No header is in the pages of the kernel or in a block. -/
theorem not_header (heap : HeapStored source state majors) (member : major ∈ majors) {address : ℕ}
    (kept : Kept (heapBlocks majors) address) : ¬major.Header address := by
  rcases kept with low | ⟨block, isBlock, contained⟩
  · intro header
    have inside := (heap.laid major member).header_inside header
    have above := Nat.le_trans (heap.above major member) inside.1
    omega
  · obtain ⟨other, isOther, minor, inOther, rfl⟩ := mem_heapBlocks.mp isBlock
    exact heap.block_not_header isOther inOther member contained

theorem beside (heap : HeapStored source state (front ++ [major] ++ back))
    (member : other ∈ front ++ back) : other.extent.Apart major.extent := by
  have apart := heap.apart
  rw [MajorsApart, List.append_assoc, List.pairwise_append, List.singleton_append,
    List.pairwise_cons] at apart
  obtain ⟨-, ⟨toBack, -⟩, fromFront⟩ := apart
  rcases List.mem_append.mp member with inFront | inBack
  · exact fromFront other inFront major List.mem_cons_self
  · exact (toBack other inBack).symm

theorem mem_beside (member : other ∈ front ++ back) : other ∈ front ++ [major] ++ back := by
  rcases List.mem_append.mp member with inFront | inBack
  · exact List.mem_append_left _ (List.mem_append_left _ inFront)
  · exact List.mem_append_right _ inBack

theorem mem_middle : major ∈ front ++ [major] ++ back :=
  List.mem_append_left _ (List.mem_append_right _ (List.mem_singleton_self _))

/-- The best bet may be any major. -/
theorem betOn (heap : HeapStored source state majors) (member : major ∈ majors) :
    HeapStored source { state with bestBet := major.start } majors :=
  { heap with bet := .inr ⟨major, member, rfl⟩ }

section Respliced

variable {before old new after : List Minor}

/-- **One major gets other minors.** -/
theorem respliced (heap : HeapStored source state (front ++ [major] ++ back))
    (split : major.minors = before ++ old ++ after)
    (laid : (major.withMinors (before ++ new ++ after)).Laid)
    (spliced : Spliced state.memory memory major before old new after) :
    HeapStored source
      { state with
        memory := memory
        inuse := bytesInUse (front ++ [major.withMinors (before ++ new ++ after)] ++ back) }
      (front ++ [major.withMinors (before ++ new ++ after)] ++ back) := by
  have same : major.withMinors (before ++ old ++ after) = major := by rw [← split]; rfl
  have member : major ∈ front ++ [major] ++ back := mem_middle
  have laidBefore := heap.laid major member
  have others : ∀ other ∈ front ++ back, ∀ before after,
      MajorStored state.memory before other after → MajorStored memory before other after := by
    intro other isOther before' after' stored
    have otherLaid := heap.laid other (mem_beside isOther)
    refine stored.congr otherLaid fun address header => ?_
    have inOther := otherLaid.header_inside header
    have apart := heap.beside isOther
    apply spliced.outside
    · rw [same]
      exact fun inMajor => apart address inOther (laidBefore.header_inside inMajor)
    · exact fun inMajor => apart address inOther (laid.header_inside inMajor)
  have changed := spliced.stored (by rw [same]; exact laidBefore) laid
    (by rw [same]; exact heap.stored)
  have replaced {other : Major}
      (isOther : other ∈ front ++ [major.withMinors (before ++ new ++ after)] ++ back) :
      other = major.withMinors (before ++ new ++ after) ∨ other ∈ front ++ back := by
    rw [List.append_assoc] at isOther
    rcases List.mem_append.mp isOther with inFront | behind
    · exact .inr (List.mem_append_left _ inFront)
    · rcases List.mem_cons.mp behind with here | inBack
      · exact .inl here
      · exact .inr (List.mem_append_right _ inBack)
  refine ⟨?_, ?_, ?_, ?_, ?_, ?_, ?_, ?_, rfl, ?_⟩
  · rw [heap.root]
    simp only [List.append_assoc, firstOf_append]
    rfl
  · refine heap.linked.splice ?_ ⟨changed, trivial⟩ ?_ ?_
    · intro other isOther
      refine others other ?_
      rcases isOther with inFront | inBack
      · exact List.mem_append_left _ (List.dropLast_subset _ inFront)
      · exact List.mem_append_right _ (List.mem_of_mem_tail inBack)
    · intro other last before'
      exact others other (List.mem_append_left _ (List.mem_of_mem_getLast? last)) before' _
    · intro other first after'
      exact others other (List.mem_append_right _ (List.mem_of_mem_head? first)) _ after'
  · intro other isOther
    rcases replaced isOther with rfl | isOther
    · exact laid
    · exact heap.laid other (mem_beside isOther)
  · intro other isOther
    rcases replaced isOther with rfl | isOther
    · exact heap.aligned major member
    · exact heap.aligned other (mem_beside isOther)
  · intro other isOther
    rcases replaced isOther with rfl | isOther
    · exact heap.above major member
    · exact heap.above other (mem_beside isOther)
  · have apart := heap.apart
    simp only [MajorsApart, List.append_assoc, List.pairwise_append, List.singleton_append,
      List.pairwise_cons, List.forall_mem_cons, Major.withMinors_extent] at apart ⊢
    exact apart
  · rcases heap.bet with none' | ⟨other, isOther, bet⟩
    · exact .inl none'
    · refine .inr ?_
      by_cases here : other = major
      · refine ⟨_, mem_middle, ?_⟩
        rw [Major.withMinors_start, ← here]
        exact bet
      · refine ⟨other, mem_beside ?_, bet⟩
        simp only [List.append_assoc, List.mem_append, List.mem_cons, List.not_mem_nil,
          or_false, here, false_or] at isOther ⊢
        exact isOther
  · rw [heap.allocated]
    simp only [bytesAllocated_append, bytesAllocated_singleton, Major.withMinors_extent]
  · have owns := heap.owns
    simp only [List.map_append, List.map_cons, List.map_nil, Major.withMinors_pageExtent] at owns ⊢
    exact owns

/-- The blocks that stay keep their bytes. -/
theorem respliced_keeps (heap : HeapStored source state (front ++ [major] ++ back))
    (split : major.minors = before ++ old ++ after)
    (laid : (major.withMinors (before ++ new ++ after)).Laid)
    (spliced : Spliced state.memory memory major before old new after) :
    SameOn (heapBlocks (front ++ [major.withMinors (before ++ after)] ++ back)) state.memory
      memory := by
  have same : major.withMinors (before ++ old ++ after) = major := by rw [← split]; rfl
  have heapAfter := heap.respliced split laid spliced
  have more (middle : List Minor) :
      heapBlocks (front ++ [major.withMinors (before ++ after)] ++ back) ⊆
        heapBlocks (front ++ [major.withMinors (before ++ middle ++ after)] ++ back) := by
    intro block isBlock
    simp only [heapBlocks, Major.blocks, List.flatMap_append, List.mem_append, List.flatMap_cons,
      List.flatMap_nil, List.append_nil, Major.withMinors_minors, List.map_append] at isBlock ⊢
    tauto
  intro address kept
  apply spliced.outside
  · have isKept := kept.subset (more old)
    rw [same] at isKept ⊢
    exact heap.not_header mem_middle isKept
  · exact heapAfter.not_header mem_middle (kept.subset (more new))

end Respliced

/-- **A block is placed** in one of the majors. -/
theorem places {result : ℕ × Liballoc Source} {reqSize size : ℕ}
    (heap : HeapStored source state (front ++ [major] ++ back))
    (placed : Places state result major reqSize size) :
    ∃ before new after, major.minors = before ++ after ∧ new.size = size ∧ new.reqSize = reqSize ∧
      result.1 = new.pointer ∧
      HeapStored source result.2 (front ++ [major.withMinors (before ++ [new] ++ after)] ++ back) ∧
      SameOn (heapBlocks (front ++ [major] ++ back)) state.memory result.2.memory := by
  obtain ⟨before, new, after, split, rfl, rfl, laid, places⟩ := placed
  have split' : major.minors = before ++ [] ++ after := by rw [split, List.append_nil]
  have changed := heap.respliced split' laid places.spliced
  have keeps := heap.respliced_keeps split' laid places.spliced
  have same : major.withMinors (before ++ after) = major := by rw [← split]; rfl
  have total : (state.inuse + new.size) % 2 ^ 64 =
      bytesInUse (front ++ [major.withMinors (before ++ [new] ++ after)] ++ back) := by
    have bound := bytesInUse_le changed.laid changed.apart
    have sum : bytesInUse (front ++ [major.withMinors (before ++ [new] ++ after)] ++ back) =
        state.inuse + new.size := by
      rw [heap.inuse]
      simp only [bytesInUse_append, bytesInUse_singleton, Major.withMinors_minors, split,
        List.map_append, List.sum_append, List.map_cons, List.map_nil, List.sum_cons, List.sum_nil]
      omega
    rw [sum] at bound ⊢
    exact Nat.mod_eq_of_lt (by omega)
  rw [same] at keeps
  refine ⟨before, new, after, split, rfl, rfl, places.pointer, ?_, keeps⟩
  rw [places.state, total]
  exact changed

/-! ## Another major -/

/-- **A major behind the last one.** -/
theorem extend {fresh : Major} {pages : Source} (heap : HeapStored source state majors)
    (laid : fresh.Laid) (aligned : fresh.start % 4096 = 0) (above : heapFloor ≤ fresh.start)
    (empty : fresh.minors = []) (apart : ∀ major ∈ majors, major.extent.Apart fresh.extent)
    (stored : MajorStored memory (lastOf Major.start 0 majors) fresh 0)
    (last : ∀ major ∈ majors.getLast?, record memory major.start =
      Function.update (record state.memory major.start) MajorField.next fresh.start)
    (frame : ∀ address, (∀ major ∈ majors.getLast?, ¬InHeader major.start address) →
      ¬InHeader fresh.start address → memory address = state.memory address)
    (owns : source.Owns pages (fresh.pageExtent :: majors.map Major.pageExtent)) :
    HeapStored source
      { state with
        memory := memory
        memRoot := firstOf Major.start (majors ++ [fresh]) 0
        allocated := bytesAllocated (majors ++ [fresh])
        source := pages }
      (majors ++ [fresh]) ∧ SameOn (heapBlocks majors) state.memory memory := by
  have headerInside {major : Major} (laid : major.Laid) {address : ℕ}
      (here : InHeader major.start address) : major.Header address := .inl here
  have kept {major : Major} (member : major ∈ majors) {address : ℕ}
      (inside : major.extent.Contains address)
      (unwritten : major ∈ majors.getLast? → ¬InHeader major.start address) :
      memory address = state.memory address := by
    apply frame
    · intro other isLast here
      by_cases same : major = other
      · exact unwritten (same ▸ isLast) (same ▸ here)
      · have isOther := List.mem_of_mem_getLast? isLast
        have inOther := (heap.laid other isOther).header_inside (.inl here)
        exact heap.separate member isOther same address inside inOther
    · intro here
      exact apart major member address inside (laid.header_inside (.inl here))
  refine ⟨⟨rfl, ?_, ?_, ?_, ?_, ?_, ?_, rfl, ?_, ?_⟩, ?_⟩
  · have linked : Linked Major.start (MajorStored state.memory) 0 (majors ++ [] ++ []) 0 := by
      simpa using heap.linked
    have spliced := @Linked.splice _ _ _ _ (MajorStored memory) _ _ _ _ _ [fresh] linked ?_
      ⟨stored, trivial⟩ ?_ ?_
    · simpa using spliced
    · intro major member before after here
      rcases member with inFront | inBack
      · have isMajor := List.dropLast_subset _ inFront
        have nodup : (majors ++ []).Nodup := by simpa using heap.nodup
        have notLast := (not_next_to_cut nodup (.inl inFront)).1
        refine here.congr (heap.laid major isMajor) fun address header => ?_
        exact kept isMajor ((heap.laid major isMajor).header_inside header)
          fun isLast => absurd isLast notLast
      · exact absurd inBack List.not_mem_nil
    · intro major isLast before here
      have isMajor := List.mem_of_mem_getLast? isLast
      have majorLaid := heap.laid major isMajor
      constructor
      · rw [last major isLast, here.header]
        funext field
        cases field <;> rfl
      · refine here.minors.mono fun minor member before after minorHere => ?_
        have bounds := majorLaid.bounds member
        refine minorHere.congr (by omega) fun address contained => ?_
        refine kept isMajor (majorLaid.header_inside (.inr ⟨minor, member, contained⟩)) fun _ => ?_
        have inside := contained.1
        simp only [Minor.head] at inside
        unfold InHeader
        omega
    · exact fun other first => absurd first (Option.not_mem_none _)
  · intro major member
    rcases List.mem_append.mp member with old | new
    · exact heap.laid major old
    · rw [List.mem_singleton.mp new]
      exact laid
  · intro major member
    rcases List.mem_append.mp member with old | new
    · exact heap.aligned major old
    · rw [List.mem_singleton.mp new]
      exact aligned
  · intro major member
    rcases List.mem_append.mp member with old | new
    · exact heap.above major old
    · rw [List.mem_singleton.mp new]
      exact above
  · refine List.pairwise_append.mpr ⟨heap.apart, List.pairwise_singleton _ _, ?_⟩
    intro major member other new
    rw [List.mem_singleton.mp new]
    exact apart major member
  · rcases heap.bet with none' | ⟨major, member, bet⟩
    · exact .inl none'
    · exact .inr ⟨major, List.mem_append_left _ member, bet⟩
  · rw [heap.inuse, bytesInUse_append, bytesInUse_singleton, empty]
    rfl
  · refine source.perm owns ?_
    rw [List.map_append]
    exact List.perm_append_singleton _ _ |>.symm
  · intro address isKept
    apply frame
    · intro major isLast here
      exact heap.not_header (List.mem_of_mem_getLast? isLast) isKept (.inl here)
    · intro here
      rcases isKept with low | ⟨block, isBlock, contained⟩
      · have start := here.1
        omega
      · obtain ⟨major, member, minor, inMajor, rfl⟩ := mem_heapBlocks.mp isBlock
        have inside := (heap.laid major member).block_inside inMajor contained
        exact apart major member address inside (laid.header_inside (.inl here))

end HeapStored

end Liballoc

end CatchOS.Mmu
