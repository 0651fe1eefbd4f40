import CatchOS.Lib.Linked
import CatchOS.Lib.Row
import CatchOS.Mmu.Liballoc

/-!
# How the heap lies in memory

The heap of the kernel as what it stands for: a list of majors, and in each major a list of
minors. `Major.Laid` says how the minors lie in their major, one behind the other in the order
of their addresses, each one with room behind its header for what was requested and for its
alignment. `MajorStored` says that the headers in memory are those of the major and of its
minors, each with the addresses of its neighbours.

The headers are all that is read: a memory that agrees on their bytes stores the same heap
(`MajorStored.congr`). What `malloc` and `free` do to one major is that some neighbouring minors
are replaced by others (`Spliced`), and then the changed list of minors is stored
(`Spliced.stored`).
-/

set_option autoImplicit false

namespace CatchOS.Mmu

open CatchOS CatchOS.Lib

/-! ## Minors -/

/-- A block: where its header starts, the bytes behind the header, and those requested. -/
structure Minor where
  start : ℕ
  size : ℕ
  reqSize : ℕ
  deriving DecidableEq

namespace Minor

/-- The header and the bytes behind it. -/
def extent (minor : Minor) : Extent := ⟨minor.start, minorHeaderSize + minor.size⟩

/-- What `malloc` returned. -/
def pointer (minor : Minor) : ℕ := alignUp alignment (minor.start + minorHeaderSize + alignInfo)

/-- The bytes that were requested. -/
def block (minor : Minor) : Extent := ⟨minor.pointer, minor.reqSize⟩

/-- The header, and the bytes of which one says how far the pointer was moved. -/
def head (minor : Minor) : Extent := ⟨minor.start, minorHeaderSize + alignInfo⟩

/-- There is room for the alignment. -/
def Roomy (minor : Minor) : Prop := minor.reqSize + (alignment + alignInfo) ≤ minor.size

/-- The minor stops before the other one starts. -/
def Before (minor other : Minor) : Prop := minor.start + 24 + minor.size ≤ other.start

variable {minor : Minor}

theorem pointer_bounds (minor : Minor) :
    minor.start + 40 ≤ minor.pointer ∧ minor.pointer < minor.start + 56 := by
  have lower := le_alignUp (show 0 < alignment by decide)
    (minor.start + minorHeaderSize + alignInfo)
  have upper := alignUp_lt (show 0 < alignment by decide)
    (minor.start + minorHeaderSize + alignInfo)
  simp only [pointer, minorHeaderSize, alignInfo, alignment] at *
  omega

theorem extent_stop (minor : Minor) : minor.extent.stop = minor.start + 24 + minor.size := by
  simp only [extent, Extent.stop, minorHeaderSize]
  omega

theorem pointer_mod (minor : Minor) : minor.pointer % 16 = 0 := alignUp_mod _ _

/-- What was requested lies behind the header, in the bytes of the minor. -/
theorem Roomy.block_inside (roomy : minor.Roomy) : minor.block.Inside minor.extent := by
  have bounds := minor.pointer_bounds
  simp only [Roomy, alignment, alignInfo] at roomy
  apply Extent.inside_of_le <;> simp only [block, extent, minorHeaderSize] <;> omega

theorem Roomy.head_inside (roomy : minor.Roomy) : minor.head.Inside minor.extent := by
  simp only [Roomy, alignment, alignInfo] at roomy
  apply Extent.inside_of_le <;> simp only [head, extent, minorHeaderSize, alignInfo] <;> omega

theorem block_apart_head (minor : Minor) : minor.block.Apart minor.head := by
  have bounds := minor.pointer_bounds
  refine (Extent.apart_of_le ?_).symm
  simp only [block, head, minorHeaderSize, alignInfo]
  omega

end Minor

/-! ## Majors -/

/-- A run of pages, and the blocks in it. -/
structure Major where
  start : ℕ
  pages : ℕ
  minors : List Minor

namespace Major

/-- Where the first minor may start. -/
def low (major : Major) : ℕ := major.start + majorHeaderSize

def stop (major : Major) : ℕ := major.start + major.pages * Liballoc.pageSize

/-- The bytes of the headers and behind them. -/
def usage (major : Major) : ℕ :=
  majorHeaderSize + ((major.minors.map Minor.extent).map Extent.size).sum

def extent (major : Major) : Extent := ⟨major.start, major.pages * Liballoc.pageSize⟩

/-- The pages, as units of the page allocator. -/
def pageExtent (major : Major) : Extent := ⟨major.start / Liballoc.pageSize, major.pages⟩

/-- The blocks that were handed out of this major. -/
def blocks (major : Major) : List Extent := major.minors.map Minor.block

/-- The bytes that are read to find out what is in the major. -/
def Header (major : Major) (address : ℕ) : Prop :=
  (major.start ≤ address ∧ address < major.low) ∨
    ∃ minor ∈ major.minors, minor.head.Contains address

/-- Another list of minors in the same pages. -/
def withMinors (major : Major) (minors : List Minor) : Major := { major with minors := minors }

@[simp] theorem withMinors_start (major : Major) (minors : List Minor) :
    (major.withMinors minors).start = major.start := rfl

@[simp] theorem withMinors_pages (major : Major) (minors : List Minor) :
    (major.withMinors minors).pages = major.pages := rfl

@[simp] theorem withMinors_minors (major : Major) (minors : List Minor) :
    (major.withMinors minors).minors = minors := rfl

@[simp] theorem withMinors_low (major : Major) (minors : List Minor) :
    (major.withMinors minors).low = major.low := rfl

@[simp] theorem withMinors_stop (major : Major) (minors : List Minor) :
    (major.withMinors minors).stop = major.stop := rfl

@[simp] theorem withMinors_extent (major : Major) (minors : List Minor) :
    (major.withMinors minors).extent = major.extent := rfl

@[simp] theorem withMinors_pageExtent (major : Major) (minors : List Minor) :
    (major.withMinors minors).pageExtent = major.pageExtent := rfl

/-- How the minors lie in the pages. -/
structure Laid (major : Major) : Prop where
  nonnull : 0 < major.start
  row : Row major.low (major.minors.map Minor.extent) major.stop
  roomy : ∀ minor ∈ major.minors, minor.Roomy
  fits : major.stop < 2 ^ 32

namespace Laid

variable {major : Major} {minor : Minor} {front back : List Minor}

theorem bounds (laid : major.Laid) (member : minor ∈ major.minors) :
    major.start + 24 ≤ minor.start ∧ minor.start + 24 + minor.size ≤ major.stop ∧
      minor.reqSize + 32 ≤ minor.size ∧ major.stop < 2 ^ 32 := by
  have inside := laid.row.inside minor.extent (List.mem_map_of_mem member)
  have roomy := laid.roomy minor member
  have fits := laid.fits
  simp only [low, Minor.extent, Extent.stop, majorHeaderSize, minorHeaderSize, Minor.Roomy,
    alignment, alignInfo] at inside roomy
  omega

theorem usage_le (laid : major.Laid) : major.start + major.usage ≤ major.stop := by
  have row := laid.row
  have bound := @Row.gap_le _ _ [] _ row
  have start := row.le_rowStart
  have onward := row.rowStart_le
  simp only [usage, low, List.nil_append, rowStop_nil] at *
  omega

theorem header_fits (laid : major.Laid) :
    major.start + 24 ≤ major.start + major.extent.size ∧ major.start + 24 ≤ 2 ^ 32 := by
  have used := laid.usage_le
  have fits := laid.fits
  have some' : 24 ≤ major.usage := Nat.le_add_right _ _
  simp only [stop, extent] at *
  omega

/-- A gap of the list has room for another minor. -/
theorem insert (laid : major.Laid) (split : major.minors = front ++ back)
    (start : minor.start = rowStop major.low (front.map Minor.extent)) (roomy : minor.Roomy)
    (room : minor.extent.stop ≤ rowStart (back.map Minor.extent) major.stop) :
    (major.withMinors (front ++ [minor] ++ back)).Laid where
  nonnull := laid.nonnull
  row := by
    have row := laid.row
    rw [split, List.map_append] at row
    rw [Major.withMinors_minors, List.append_assoc, List.map_append, List.singleton_append,
      List.map_cons]
    exact row.insert (Nat.le_of_eq start.symm) room
  roomy := by
    intro other member
    rw [Major.withMinors_minors, List.append_assoc, List.singleton_append] at member
    rcases List.mem_append.mp member with inFront | inBack
    · exact laid.roomy other (split ▸ List.mem_append_left _ inFront)
    · rcases List.mem_cons.mp inBack with rfl | behind
      · exact roomy
      · exact laid.roomy other (split ▸ List.mem_append_right _ behind)
  fits := laid.fits

/-- A minor may be taken out. -/
theorem remove (laid : (major.withMinors (front ++ [minor] ++ back)).Laid) :
    (major.withMinors (front ++ back)).Laid where
  nonnull := laid.nonnull
  row := by
    have row := laid.row
    rw [Major.withMinors_minors, List.append_assoc, List.map_append, List.singleton_append,
      List.map_cons] at row
    rw [Major.withMinors_minors, List.map_append]
    exact row.remove
  roomy := by
    intro other member
    apply laid.roomy
    rw [Major.withMinors_minors, List.append_assoc]
    rcases List.mem_append.mp member with inFront | inBack
    · exact List.mem_append_left _ inFront
    · exact List.mem_append_right _ (List.mem_append_right _ inBack)
  fits := laid.fits

/-- The minors lie in the order of the list. -/
theorem sorted (laid : major.Laid) : major.minors.Pairwise Minor.Before := by
  have sorted := List.pairwise_map.mp laid.row.sorted
  refine sorted.imp fun {first second} stops => ?_
  simp only [Minor.extent, Extent.stop, minorHeaderSize] at stops
  unfold Minor.Before
  omega

theorem separate {other : Minor} (laid : major.Laid) (member : minor ∈ major.minors)
    (otherMember : other ∈ major.minors) (different : minor ≠ other) :
    minor.Before other ∨ other.Before minor := by
  let Either (first second : Minor) : Prop := first.Before second ∨ second.Before first
  have either : major.minors.Pairwise Either := laid.sorted.imp Or.inl
  have symmetric : Std.Symm Either := ⟨fun _ _ => Or.symm⟩
  exact either.forall member otherMember different

/-- No minor comes twice. -/
theorem nodup (laid : major.Laid) : major.minors.Nodup := by
  refine laid.sorted.imp fun {first second} before same => ?_
  subst same
  unfold Minor.Before at before
  omega

/-- The minors next to a part of the list, and those in it. -/
theorem across {middle : List Minor} {other : Minor} (laid : major.Laid)
    (split : major.minors = front ++ middle ++ back) (member : minor ∈ front ++ back)
    (inMiddle : other ∈ middle) : minor.Before other ∨ other.Before minor := by
  have sorted := laid.sorted
  rw [split, List.append_assoc, List.pairwise_append, List.pairwise_append] at sorted
  obtain ⟨-, ⟨-, -, toBack⟩, fromFront⟩ := sorted
  rcases List.mem_append.mp member with inFront | inBack
  · exact .inl (fromFront minor inFront other (List.mem_append_left _ inMiddle))
  · exact .inr (toBack other inMiddle minor inBack)

theorem head_inside (laid : major.Laid) (member : minor ∈ major.minors) {address : ℕ}
    (contained : minor.head.Contains address) :
    minor.start ≤ address ∧ address < minor.start + 24 + minor.size := by
  have inside := (laid.roomy minor member).head_inside address contained
  simp only [Extent.Contains, Minor.extent, minorHeaderSize] at inside
  omega

/-- The headers are in the pages. -/
theorem header_inside (laid : major.Laid) {address : ℕ} (header : major.Header address) :
    major.extent.Contains address := by
  have used := laid.usage_le
  have some' : majorHeaderSize ≤ major.usage := Nat.le_add_right _ _
  rcases header with ⟨above, below⟩ | ⟨minor, member, contained⟩
  · simp only [Extent.Contains, extent, low, stop] at *
    omega
  · have bounds := laid.bounds member
    have inside := laid.head_inside member contained
    simp only [Extent.Contains, extent, stop] at *
    omega

/-- What was requested is in the pages. -/
theorem block_inside (laid : major.Laid) (member : minor ∈ major.minors) {address : ℕ}
    (contained : minor.block.Contains address) : major.extent.Contains address := by
  have inMinor := (laid.roomy minor member).block_inside address contained
  have bounds := laid.bounds member
  simp only [Extent.Contains, Minor.extent, extent, stop, minorHeaderSize] at *
  omega

/-- What was requested has no byte in common with a header. -/
theorem block_not_header (laid : major.Laid) (member : minor ∈ major.minors) {address : ℕ}
    (contained : minor.block.Contains address) : ¬major.Header address := by
  have inside := (laid.roomy minor member).block_inside address contained
  have bounds := laid.bounds member
  simp only [Extent.Contains, Minor.extent, minorHeaderSize] at inside
  rintro (⟨above, below⟩ | ⟨other, otherMember, inHead⟩)
  · simp only [low, majorHeaderSize] at below
    omega
  · by_cases same : minor = other
    · exact minor.block_apart_head address contained (same ▸ inHead)
    · have otherInside := laid.head_inside otherMember inHead
      rcases laid.separate member otherMember same with before | before
      all_goals
        unfold Minor.Before at before
        omega

end Laid

end Major

/-! ## Headers in memory -/

/-- The header of a minor with its neighbours. -/
def minorHeader (block before : ℕ) (minor : Minor) (after : ℕ) : MinorField → ℕ
  | .prev => before
  | .next => after
  | .block => block
  | .magic => liballocMagic
  | .size => minor.size
  | .reqSize => minor.reqSize

/-- The header of a major with its neighbours. -/
def majorHeader (before : ℕ) (major : Major) (after : ℕ) : MajorField → ℕ
  | .prev => before
  | .next => after
  | .pages => major.pages
  | .size => major.pages * Liballoc.pageSize
  | .usage => major.usage
  | .first => firstOf Minor.start major.minors 0

/-- The minor is stored, in the major at `block`. -/
structure MinorStored (memory : Memory) (block before : ℕ) (minor : Minor) (after : ℕ) : Prop where
  header : record memory minor.start = minorHeader block before minor after
  distance : memory (minor.pointer - alignInfo) =
    BitVec.ofNat 8 (minor.pointer - (minor.start + minorHeaderSize))

/-- The major and its minors are stored. -/
structure MajorStored (memory : Memory) (before : ℕ) (major : Major) (after : ℕ) : Prop where
  header : record memory major.start = majorHeader before major after
  minors : Linked Minor.start (MinorStored memory major.start) 0 major.minors 0

section Congr

variable {memory memory' : Memory} {block before after : ℕ} {minor : Minor} {major : Major}

theorem MinorStored.congr (stored : MinorStored memory block before minor after)
    (fits : minor.start + 40 ≤ 2 ^ 32)
    (same : ∀ address, minor.head.Contains address → memory' address = memory address) :
    MinorStored memory' block before minor after where
  header := by
    rw [← stored.header]
    apply record_congr (show _ + 24 ≤ _ by omega)
    intro i bound
    apply same
    simp only [Minor.head, Extent.Contains, minorHeaderSize, alignInfo]
    have size : recordSize MinorField = 24 := rfl
    omega
  distance := by
    have bounds := minor.pointer_bounds
    rw [← stored.distance]
    apply same
    simp only [Minor.head, Extent.Contains, minorHeaderSize, alignInfo]
    omega

/-- A memory with the same headers stores the same major. -/
theorem MajorStored.congr (stored : MajorStored memory before major after) (laid : major.Laid)
    (same : ∀ address, major.Header address → memory' address = memory address) :
    MajorStored memory' before major after where
  header := by
    have bound := laid.usage_le
    have fits := laid.fits
    have size : recordSize MajorField = 24 := rfl
    have used : 24 ≤ major.usage := Nat.le_add_right _ _
    rw [← stored.header]
    apply record_congr (by omega)
    intro i inside
    apply same
    exact .inl ⟨Nat.le_add_right _ _, by simp only [Major.low, majorHeaderSize]; omega⟩
  minors := by
    refine stored.minors.mono fun minor member before after here => here.congr ?_ ?_
    · have bounds := laid.bounds member
      omega
    · intro address contained
      exact same address (.inr ⟨minor, member, contained⟩)

end Congr

/-! ## Changes of one major -/

/-- The bytes of the header that starts there. -/
def InHeader (start address : ℕ) : Prop := start ≤ address ∧ address < start + 24

/-- Some of the minors of a major are replaced by others. Next to these, only the header of
the major and those of the two neighbours are written. -/
structure Spliced (memory memory' : Memory) (major : Major) (front old new back : List Minor) :
    Prop where
  header : record memory' major.start =
    Function.update
      (Function.update (record memory major.start) MajorField.first
        (firstOf Minor.start (front ++ new ++ back) 0))
      MajorField.usage (major.withMinors (front ++ new ++ back)).usage
  minors : Linked Minor.start (MinorStored memory' major.start) (lastOf Minor.start 0 front) new
    (firstOf Minor.start back 0)
  last : ∀ minor ∈ front.getLast?, record memory' minor.start =
    Function.update (record memory minor.start) MinorField.next
      (firstOf Minor.start (new ++ back) 0)
  first : ∀ minor ∈ back.head?, record memory' minor.start =
    Function.update (record memory minor.start) MinorField.prev
      (lastOf Minor.start (lastOf Minor.start 0 front) new)
  frame : ∀ address, ¬InHeader major.start address →
    (∀ minor ∈ front.getLast?, ¬InHeader minor.start address) →
    (∀ minor ∈ back.head?, ¬InHeader minor.start address) →
    (∀ minor ∈ old ++ new, ¬minor.head.Contains address) → memory' address = memory address

namespace Spliced

variable {memory memory' : Memory} {before after : ℕ} {major : Major} {minor : Minor}
  {front old new back : List Minor}

/-- A byte that is in no header, before and after, keeps its value. -/
theorem outside (spliced : Spliced memory memory' major front old new back) {address : ℕ}
    (notBefore : ¬(major.withMinors (front ++ old ++ back)).Header address)
    (notAfter : ¬(major.withMinors (front ++ new ++ back)).Header address) :
    memory' address = memory address := by
  have inHead {minor : Minor} (here : InHeader minor.start address) :
      minor.head.Contains address := by
    simp only [InHeader, Extent.Contains, Minor.head, minorHeaderSize, alignInfo] at *
    omega
  have other {minor : Minor} (member : minor ∈ front ++ old ++ back) :
      ¬minor.head.Contains address := fun contained => notBefore (.inr ⟨minor, member, contained⟩)
  apply spliced.frame
  · exact fun here => notBefore (.inl here)
  · intro minor last here
    refine other ?_ (inHead here)
    exact List.mem_append_left _ (List.mem_append_left _ (List.mem_of_mem_getLast? last))
  · intro minor first here
    exact other (List.mem_append_right _ (List.mem_of_mem_head? first)) (inHead here)
  · intro minor member contained
    rcases List.mem_append.mp member with inOld | inNew
    · exact other (List.mem_append_left _ (List.mem_append_right _ inOld)) contained
    · refine notAfter (.inr ⟨minor, ?_, contained⟩)
      exact List.mem_append_left _ (List.mem_append_right _ inNew)

section Laid

variable (laid : (major.withMinors (front ++ old ++ back)).Laid)
  (laid' : (major.withMinors (front ++ new ++ back)).Laid)
include laid laid'

/-- The bytes of a minor that stays, when they are in none of the headers that are written. -/
theorem kept (spliced : Spliced memory memory' major front old new back)
    (member : minor ∈ front ++ back) {address : ℕ} (above : minor.start ≤ address)
    (below : address < minor.start + 24 + minor.size)
    (unwritten : InHeader minor.start address → minor ∉ front.getLast? ∧ minor ∉ back.head?) :
    memory' address = memory address := by
  have inBefore {minor : Minor} (member : minor ∈ front ++ back) :
      minor ∈ front ++ old ++ back := by
    rcases List.mem_append.mp member with inFront | inBack
    · exact List.mem_append_left _ (List.mem_append_left _ inFront)
    · exact List.mem_append_right _ inBack
  have place := laid.bounds (inBefore member)
  have apart {other : Minor} (otherMember : other ∈ front ++ back)
      (here : InHeader other.start address) (different : minor ≠ other) : False := by
    have otherPlace := laid.bounds (inBefore otherMember)
    unfold InHeader at here
    rcases laid.separate (inBefore member) (inBefore otherMember) different with order | order
    all_goals
      unfold Minor.Before at order
      omega
  apply spliced.frame
  · intro here
    unfold InHeader at here
    simp only [Major.withMinors_start] at place
    omega
  · intro other last here
    by_cases same : minor = other
    · subst same
      exact (unwritten here).1 last
    · exact apart (List.mem_append_left _ (List.mem_of_mem_getLast? last)) here same
  · intro other first here
    by_cases same : minor = other
    · subst same
      exact (unwritten here).2 first
    · exact apart (List.mem_append_right _ (List.mem_of_mem_head? first)) here same
  · intro other otherMember contained
    rcases List.mem_append.mp otherMember with inOld | inNew
    · have inside := laid.head_inside
        (List.mem_append_left _ (List.mem_append_right _ inOld)) contained
      rcases laid.across rfl member inOld with order | order
      all_goals
        unfold Minor.Before at order
        omega
    · have inside := laid'.head_inside
        (List.mem_append_left _ (List.mem_append_right _ inNew)) contained
      rcases laid'.across rfl member inNew with order | order
      all_goals
        unfold Minor.Before at order
        omega

/-- The byte before the pointer of a minor that stays. -/
theorem distance (spliced : Spliced memory memory' major front old new back)
    (member : minor ∈ front ++ back) :
    memory' (minor.pointer - alignInfo) = memory (minor.pointer - alignInfo) := by
  have bounds := minor.pointer_bounds
  have roomy : minor.Roomy := laid.roomy minor (by
    rcases List.mem_append.mp member with inFront | inBack
    · exact List.mem_append_left _ (List.mem_append_left _ inFront)
    · exact List.mem_append_right _ inBack)
  simp only [Minor.Roomy, alignment, alignInfo] at roomy ⊢
  apply spliced.kept laid laid' member (by omega) (by omega)
  intro here
  unfold InHeader at here
  omega

/-- **The changed major is stored.** -/
theorem stored (spliced : Spliced memory memory' major front old new back)
    (stored : MajorStored memory before (major.withMinors (front ++ old ++ back)) after) :
    MajorStored memory' before (major.withMinors (front ++ new ++ back)) after where
  header := by
    have header := stored.header
    rw [Major.withMinors_start] at header ⊢
    rw [spliced.header, header]
    funext field
    cases field <;> rfl
  minors := by
    refine stored.minors.splice ?_ spliced.minors ?_ ?_
    · intro minor member before after here
      have stays : minor ∈ front ++ back := by
        rcases member with inFront | inBack
        · exact List.mem_append_left _ (List.dropLast_subset _ inFront)
        · exact List.mem_append_right _ (List.mem_of_mem_tail inBack)
      have inBefore : minor ∈ front ++ old ++ back := by
        rcases List.mem_append.mp stays with inFront | inBack
        · exact List.mem_append_left _ (List.mem_append_left _ inFront)
        · exact List.mem_append_right _ inBack
      have nodup : (front ++ back).Nodup := laid.nodup.sublist (by simp)
      have place := laid.bounds inBefore
      refine here.congr (by omega) fun address contained => ?_
      obtain ⟨above, below⟩ := laid.head_inside inBefore contained
      exact spliced.kept laid laid' stays above below fun _ => not_next_to_cut nodup member
    · intro minor last before here
      have member : minor ∈ front ++ back := List.mem_append_left _ (List.mem_of_mem_getLast? last)
      refine ⟨?_, (spliced.distance laid laid' member).trans here.distance⟩
      rw [spliced.last minor last, here.header]
      funext field
      cases field <;> rfl
    · intro minor first after here
      have member : minor ∈ front ++ back := List.mem_append_right _ (List.mem_of_mem_head? first)
      refine ⟨?_, (spliced.distance laid laid' member).trans here.distance⟩
      rw [spliced.first minor first, here.header]
      funext field
      cases field <;> rfl

end Laid

end Spliced

end CatchOS.Mmu
