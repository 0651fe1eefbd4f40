import CatchOS.Mmu.LiballocFree
import CatchOS.Mmu.LiballocMalloc
import Mathlib.Algebra.BigOperators.Ring.List

/-!
# The blocks of the heap

The heap from outside: `HeapOf` says that the state is that of some majors, each with a block in
it, and that their blocks are the given ones. The callers see nothing else of it. The blocks are
apart and behind the pages of the kernel, and no byte of them is read by the allocator, so their
owners may write them (`HeapOf.withMemory`).

Every operation is told by what it does to the list of blocks: `malloc` adds one or none
(`HeapOf.malloc`), `free` takes one away (`HeapOf.free`), and `realloc` of a block to a smaller
size leaves the block at its place (`HeapOf.shrink`). The bytes of the other blocks stay as they
are.
-/

set_option autoImplicit false

namespace CatchOS.Mmu

open CatchOS CatchOS.Lib

universe u

/-! ## The minors of all majors -/

section Minors

variable {majors front back : List Major} {major : Major} {minor : Minor} {block : Extent}

theorem heapBlocks_eq (majors : List Major) :
    heapBlocks majors = (majors.flatMap Major.minors).map Minor.block :=
  List.map_flatMap.symm

/-- The minors are in the pages of their major. -/
theorem Major.Laid.minor_inside (laid : major.Laid) (member : minor ∈ major.minors) :
    minor.extent.Inside major.extent := by
  have bounds := laid.bounds member
  simp only [Major.stop] at bounds
  apply Extent.inside_of_le <;> simp only [Minor.extent, Major.extent, minorHeaderSize] <;> omega

/-- No two minors have a byte in common, in whichever majors they are. -/
theorem minors_apart (laid : ∀ major ∈ majors, major.Laid) (apart : MajorsApart majors) :
    (majors.flatMap Major.minors).Pairwise fun first second =>
      first.extent.Apart second.extent := by
  rw [List.pairwise_flatMap]
  constructor
  · intro major member
    refine (laid major member).sorted.imp fun {first second} before => ?_
    apply Extent.apart_of_le
    simp only [Minor.Before, Minor.extent, minorHeaderSize] at before ⊢
    omega
  · refine apart.imp_of_mem fun {first second} isFirst isSecond apart minor inFirst other
      inSecond => ?_
    have here := (laid first isFirst).minor_inside inFirst
    have there := (laid second isSecond).minor_inside inSecond
    exact (there.apart (here.apart apart).symm).symm

theorem heapBlocks_apart (laid : ∀ major ∈ majors, major.Laid) (apart : MajorsApart majors) :
    (heapBlocks majors).Pairwise Extent.Apart := by
  rw [heapBlocks_eq, List.pairwise_map]
  refine (minors_apart laid apart).imp_of_mem fun {first second} isFirst isSecond apart => ?_
  obtain ⟨major, member, inMajor⟩ := List.mem_flatMap.mp isFirst
  obtain ⟨other, otherMember, inOther⟩ := List.mem_flatMap.mp isSecond
  have here := ((laid major member).roomy first inMajor).block_inside
  have there := ((laid other otherMember).roomy second inOther).block_inside
  exact (there.apart (here.apart apart).symm).symm

/-- Two blocks have different addresses, also when they are empty. -/
theorem heapBlocks_nodup (laid : ∀ major ∈ majors, major.Laid) (apart : MajorsApart majors) :
    ((heapBlocks majors).map Extent.start).Nodup := by
  rw [heapBlocks_eq, List.map_map, List.Nodup, List.pairwise_map]
  refine (minors_apart laid apart).imp_of_mem fun {first second} isFirst isSecond apart same => ?_
  have inside {minor : Minor} (isMinor : minor ∈ majors.flatMap Major.minors) :
      minor.extent.Contains minor.pointer := by
    obtain ⟨major, member, inMajor⟩ := List.mem_flatMap.mp isMinor
    have bounds := (laid major member).bounds inMajor
    have pointer := minor.pointer_bounds
    simp only [Extent.Contains, Minor.extent, minorHeaderSize]
    omega
  have same' : first.pointer = second.pointer := same
  exact apart _ (inside isFirst) (same' ▸ inside isSecond)

/-- A block is that of a minor, with its neighbours. -/
theorem exists_minor (member : block ∈ heapBlocks majors) :
    ∃ front major back before minor after, majors = front ++ [major] ++ back ∧
      major.minors = before ++ [minor] ++ after ∧ minor.block = block := by
  obtain ⟨major, isMajor, minor, inMajor, rfl⟩ := mem_heapBlocks.mp member
  obtain ⟨front, back, rfl⟩ := List.append_of_mem isMajor
  obtain ⟨before, after, split⟩ := List.append_of_mem inMajor
  exact ⟨front, major, back, before, minor, after, by simp, by simp [split], rfl⟩

theorem heapBlocks_append (front back : List Major) :
    heapBlocks (front ++ back) = heapBlocks front ++ heapBlocks back := List.flatMap_append

/-- The blocks of some minors of one major, and the blocks without them. -/
theorem heapBlocks_perm (front back : List Major) (major : Major)
    (before middle after : List Minor) :
    (heapBlocks (front ++ [major.withMinors (before ++ middle ++ after)] ++ back)).Perm
      (middle.map Minor.block ++
        heapBlocks (front ++ [major.withMinors (before ++ after)] ++ back)) := by
  have single (minors : List Minor) :
      heapBlocks [major.withMinors minors] = minors.map Minor.block := List.append_nil _
  simp only [heapBlocks_append, single, List.map_append, List.append_assoc]
  have outward := (List.perm_append_comm_assoc (before.map Minor.block) (middle.map Minor.block)
    (after.map Minor.block ++ heapBlocks back)).append_left (heapBlocks front)
  exact outward.trans (List.perm_append_comm_assoc _ _ _)

/-- An empty major has no blocks. -/
theorem heapBlocks_leftOf (front back : List Major) (major : Major) (minors : List Minor) :
    heapBlocks (front ++ Liballoc.leftOf major minors ++ back) =
      heapBlocks (front ++ [major.withMinors minors] ++ back) := by
  unfold Liballoc.leftOf
  split
  · rename_i empty
    have none' : heapBlocks [major.withMinors minors] = [] := by rw [empty]; rfl
    simp only [heapBlocks_append, none', List.append_nil]
  · rfl

end Minors

/-! ## The heap of a list of blocks -/

section Same

variable {blocks : List Extent} {block : Extent}

/-- The blocks have the same bytes in both memories. -/
def SameBlocks (blocks : List Extent) (memory memory' : Memory) : Prop :=
  ∀ block ∈ blocks, ∀ address, block.Contains address → memory' address = memory address

theorem SameOn.sameBlocks {memory memory' : Memory} (same : SameOn blocks memory memory') :
    SameBlocks blocks memory memory' :=
  fun block member address contained => same address (.inr ⟨block, member, contained⟩)

theorem SameBlocks.trans {memory memory' memory'' : Memory}
    (first : SameBlocks blocks memory memory') (second : SameBlocks blocks memory' memory'') :
    SameBlocks blocks memory memory'' := fun block member address contained =>
  (second block member address contained).trans (first block member address contained)

/-- The bytes of a block are read alike. -/
theorem SameBlocks.readBytes {memory memory' : Memory} (same : SameBlocks blocks memory memory')
    (member : block ∈ blocks) (fits : block.start + block.size < 2 ^ 32) {len : ℕ}
    (inside : len ≤ block.size) :
    readBytes memory' block.start len = readBytes memory block.start len := by
  refine readBytes_congr fun i bound => same block member _ ?_
  rw [offset_eq (by omega)]
  exact ⟨Nat.le_add_right _ _, by omega⟩

end Same

/-- The block is in the run of pages. -/
def InPages (block pages : Extent) : Prop :=
  pages.start * 4096 ≤ block.start ∧ block.start + block.size ≤ (pages.start + pages.size) * 4096

namespace Liballoc

variable {Source : Type u} (source : PageSource Source)

/-- **The heap whose blocks are the given ones.** No major is kept without a block. -/
def HeapOf (state : Liballoc Source) (blocks : List Extent) : Prop :=
  ∃ majors, HeapStored source state majors ∧ (∀ major ∈ majors, major.minors ≠ []) ∧
    blocks.Perm (heapBlocks majors)

variable {source} {state : Liballoc Source} {memory : Memory} {majors : List Major}
  {blocks order : List Extent} {block : Extent} {reqSize : ℕ}

/-- The bytes outside the headers may be any others. -/
theorem HeapStored.withMemory (heap : HeapStored source state majors)
    (same : ∀ major ∈ majors, ∀ address, major.Header address →
      memory address = state.memory address) :
    HeapStored source { state with memory := memory } majors :=
  { heap with
    linked := heap.linked.mono fun major member _ _ stored =>
      stored.congr (heap.laid major member) (same major member) }

namespace HeapOf

theorem perm (heap : HeapOf source state blocks) (perm : order.Perm blocks) :
    HeapOf source state order := by
  obtain ⟨majors, stored, inUse, same⟩ := heap
  exact ⟨majors, stored, inUse, perm.trans same⟩

theorem apart (heap : HeapOf source state blocks) : blocks.Pairwise Extent.Apart := by
  obtain ⟨majors, stored, -, same⟩ := heap
  exact (heapBlocks_apart stored.laid stored.apart).perm same.symm Extent.Apart.symm

theorem nodup (heap : HeapOf source state blocks) : (blocks.map Extent.start).Nodup := by
  obtain ⟨majors, stored, -, same⟩ := heap
  exact (same.map _).nodup_iff.mpr (heapBlocks_nodup stored.laid stored.apart)

/-- Blocks start at a multiple of 16, behind the pages of the kernel. -/
theorem bounds (heap : HeapOf source state blocks) (member : block ∈ blocks) :
    block.start % 16 = 0 ∧ heapFloor < block.start ∧ block.start + block.size < 2 ^ 32 := by
  obtain ⟨majors, stored, -, same⟩ := heap
  obtain ⟨major, isMajor, minor, inMajor, rfl⟩ := mem_heapBlocks.mp (same.subset member)
  have laid := stored.laid major isMajor
  have place := laid.bounds inMajor
  have pointer := minor.pointer_bounds
  have above := stored.above major isMajor
  have fits := laid.fits
  refine ⟨minor.pointer_mod, ?_, ?_⟩
  · simp only [heapFloor, Minor.block] at *
    omega
  · simp only [Minor.block]
    omega

/-- **The owners of the blocks** may write them, and the kernel its own pages. -/
theorem withMemory (heap : HeapOf source state blocks)
    (same : ∀ address, ¬Kept blocks address → memory address = state.memory address) :
    HeapOf source { state with memory := memory } blocks := by
  obtain ⟨majors, stored, inUse, perm⟩ := heap
  refine ⟨majors, stored.withMemory fun major member address header => ?_, inUse, perm⟩
  exact same address fun kept => stored.not_header member (kept.subset perm.subset) header

/-- **A block is written** by its owner. The other blocks do not see it. -/
theorem write (heap : HeapOf source state (block :: blocks)) {dst : ℕ} {bytes : List Byte}
    (above : block.start ≤ dst) (below : dst + bytes.length ≤ block.start + block.size) :
    HeapOf source { state with memory := writeBytes state.memory dst bytes } (block :: blocks) ∧
      SameOn blocks state.memory (writeBytes state.memory dst bytes) := by
  obtain ⟨-, behind, fits⟩ := heap.bounds List.mem_cons_self
  have frame (address : ℕ) (outside : ¬block.Contains address) :
      writeBytes state.memory dst bytes address = state.memory address := by
    apply writeBytes_frame
    intro i bound here
    rw [offset_eq (by omega)] at here
    exact outside ⟨by omega, by omega⟩
  refine ⟨heap.withMemory fun address notKept => frame address fun contained => ?_, ?_⟩
  · exact notKept (.inr ⟨block, List.mem_cons_self, contained⟩)
  · intro address kept
    refine frame address fun contained => ?_
    rcases kept with low | ⟨other, member, inOther⟩
    · have start := contained.1
      omega
    · exact (List.pairwise_cons.mp heap.apart).1 other member address contained inOther

/-! ## The operations -/

/-- Before the first request there is no block. -/
theorem initial {pages : Source} (owns : source.Owns pages []) :
    HeapOf source (Liballoc.initial memory pages) [] :=
  ⟨[], ⟨rfl, trivial, fun _ member => absurd member List.not_mem_nil,
    fun _ member => absurd member List.not_mem_nil, fun _ member => absurd member List.not_mem_nil,
    List.Pairwise.nil, .inl rfl, rfl, rfl, owns⟩, fun _ member => absurd member List.not_mem_nil,
    List.Perm.refl _⟩

/-- **A request** adds a block, or returns `NULL` and nothing is written. -/
theorem malloc (heap : HeapOf source state blocks) (small : reqSize + 80 < 2 ^ 32) :
    ∃ ret after, Liballoc.malloc source.toHooks state reqSize = some (ret, after) ∧
      ((ret = 0 ∧ HeapOf source after blocks ∧ after.memory = state.memory) ∨
        (ret ≠ 0 ∧ HeapOf source after (⟨ret, reqSize⟩ :: blocks) ∧
          SameOn blocks state.memory after.memory)) := by
  obtain ⟨majors, stored, inUse, perm⟩ := heap
  obtain ⟨⟨ret, after⟩, called, requested⟩ := malloc_spec stored inUse small
  refine ⟨ret, after, called, ?_⟩
  have nonnull (minor : Minor) : minor.pointer ≠ 0 := by
    have bounds := minor.pointer_bounds
    omega
  cases requested with
  | null failed _ _ same memory => exact .inl ⟨failed, ⟨majors, same, inUse, perm⟩, memory⟩
  | @placed front back major before behind new isMajors split newSize newReqSize pointer stored'
      keeps =>
      obtain rfl : ret = new.pointer := pointer
      refine .inr ⟨nonnull new, ⟨_, stored', ?_, ?_⟩, keeps.subset perm.subset⟩
      · subst isMajors
        intro other isOther
        rw [List.append_assoc] at isOther
        rcases List.mem_append.mp isOther with inFront | behind'
        · exact inUse other (HeapStored.mem_beside (List.mem_append_left _ inFront))
        · rcases List.mem_cons.mp behind' with rfl | inBack
          · simp
          · exact inUse other (HeapStored.mem_beside (List.mem_append_right _ inBack))
      · have same : major.withMinors (before ++ behind) = major := by rw [← split]; rfl
        have added := heapBlocks_perm front back major before [new] behind
        rw [same, ← isMajors] at added
        have isNew : (⟨new.pointer, reqSize⟩ : Extent) = new.block := by rw [← newReqSize]; rfl
        rw [isNew]
        exact (perm.cons _).trans added.symm
  | @newMajor fresh new _ _ newSize newReqSize pointer stored' keeps =>
      obtain rfl : ret = new.pointer := pointer
      refine .inr ⟨nonnull new, ⟨_, stored', ?_, ?_⟩, keeps.subset perm.subset⟩
      · exact List.forall_mem_append.mpr ⟨inUse, List.forall_mem_singleton.mpr (by simp)⟩
      · have isNew : (⟨new.pointer, reqSize⟩ : Extent) = new.block := by rw [← newReqSize]; rfl
        rw [isNew, heapBlocks_append]
        exact (perm.cons _).trans (List.perm_append_singleton _ _).symm

/-- **`free`** of a block takes it away. -/
theorem free (heap : HeapOf source state (block :: blocks)) :
    HeapOf source (Liballoc.free source.toHooks state block.start) blocks ∧
      SameOn blocks state.memory (Liballoc.free source.toHooks state block.start).memory := by
  obtain ⟨majors, stored, inUse, perm⟩ := heap
  obtain ⟨front, major, back, before, minor, after, rfl, split, rfl⟩ :=
    exists_minor (perm.subset List.mem_cons_self)
  obtain ⟨freed, keeps⟩ := free_spec stored split
  have same : major.withMinors (before ++ [minor] ++ after) = major := by rw [← split]; rfl
  have left : blocks.Perm (heapBlocks (front ++ leftOf major (before ++ after) ++ back)) := by
    have taken := heapBlocks_perm front back major before [minor] after
    rw [same] at taken
    rw [heapBlocks_leftOf]
    exact (perm.trans taken).cons_inv
  refine ⟨⟨_, freed, ?_, left⟩, keeps.subset left.subset⟩
  intro other isOther
  rw [List.append_assoc] at isOther
  rcases List.mem_append.mp isOther with inFront | behind
  · exact inUse other (HeapStored.mem_beside (List.mem_append_left _ inFront))
  · rcases List.mem_append.mp behind with here | inBack
    · unfold leftOf at here
      split at here
      · exact absurd here List.not_mem_nil
      · rename_i nonempty
        rw [List.mem_singleton.mp here]
        exact nonempty
    · exact inUse other (HeapStored.mem_beside (List.mem_append_right _ inBack))

/-! ## The pages -/

/-- **The pages of the heap**: there is a block in every run of pages that is held, and every
block is in one. The two totals account for them. -/
theorem account (heap : HeapOf source state blocks) :
    ∃ held, source.Owns state.source held ∧
      (∀ pages ∈ held, ∃ block ∈ blocks, InPages block pages) ∧
      (∀ block ∈ blocks, ∃ pages ∈ held, InPages block pages) ∧
      state.allocated = (held.map Extent.size).sum * 4096 ∧
      (blocks.map fun block => block.size + 32).sum ≤ state.inuse ∧
      state.inuse + 24 * (blocks.length + held.length) ≤ state.allocated ∧
      (blocks = [] → state.memRoot = 0 ∧ state.bestBet = 0) := by
  obtain ⟨majors, stored, inUse, perm⟩ := heap
  have inPages {major : Major} {minor : Minor} (member : major ∈ majors)
      (inMajor : minor ∈ major.minors) : InPages minor.block major.pageExtent := by
    have bounds := (stored.laid major member).bounds inMajor
    have aligned := stored.aligned major member
    have pointer := minor.pointer_bounds
    simp only [InPages, Minor.block, Major.pageExtent, Major.stop, pageSize] at *
    omega
  refine ⟨_, stored.owns, ?_, ?_, ?_, ?_, ?_, ?_⟩
  · intro pages member
    obtain ⟨major, isMajor, rfl⟩ := List.mem_map.mp member
    obtain ⟨minor, inMajor⟩ := List.exists_mem_of_ne_nil _ (inUse major isMajor)
    exact ⟨minor.block, perm.mem_iff.mpr (mem_heapBlocks.mpr ⟨major, isMajor, minor, inMajor, rfl⟩),
      inPages isMajor inMajor⟩
  · intro block member
    obtain ⟨major, isMajor, minor, inMajor, rfl⟩ := mem_heapBlocks.mp (perm.subset member)
    exact ⟨_, List.mem_map_of_mem isMajor, inPages isMajor inMajor⟩
  · rw [stored.allocated, bytesAllocated, List.map_map, ← List.sum_map_mul_right]
    rfl
  · rw [(perm.map _).sum_eq, stored.inuse, heapBlocks_eq, List.map_map, bytesInUse]
    refine List.sum_le_sum fun minor member => ?_
    obtain ⟨major, isMajor, inMajor⟩ := List.mem_flatMap.mp member
    exact (stored.laid major isMajor).roomy minor inMajor
  · have bound := bytesInUse_headers_le stored.laid
    have count : blocks.length = (majors.flatMap Major.minors).length := by
      rw [perm.length_eq, heapBlocks_eq, List.length_map]
    rw [stored.inuse, stored.allocated, count, List.length_map]
    exact bound
  · intro empty
    subst empty
    have none' : majors = [] := by
      refine List.eq_nil_iff_forall_not_mem.mpr fun major member => ?_
      obtain ⟨minor, inMajor⟩ := List.exists_mem_of_ne_nil _ (inUse major member)
      have isBlock := mem_heapBlocks.mpr ⟨major, member, minor, inMajor, rfl⟩
      exact List.not_mem_nil (perm.mem_iff.mpr isBlock)
    subst none'
    refine ⟨stored.root, stored.bet.resolve_right ?_⟩
    rintro ⟨major, member, -⟩
    exact List.not_mem_nil member

end HeapOf

end Liballoc

end CatchOS.Mmu
