import CatchOS.Mmu.LiballocHeap
import Mathlib.Algebra.Group.Action.Defs

/-!
# Requests for blocks

What `malloc` does to the heap, for a request that leaves room in 32 bits for its headers. It
always returns. It places the block in a major that has a gap for it when some major has one;
otherwise it requests pages for a new major, and returns `NULL` only when it gets none. The
search starts at the best bet or at the root, and when it started at the best bet it starts
over at the root, so it has seen every major before it requests pages (`malloc_spec`).
-/

set_option autoImplicit false

namespace CatchOS.Mmu

open CatchOS CatchOS.Lib

universe u

/-- Some gap of the major has room for a block of the given size and its header. -/
def Major.HasRoom (major : Major) (size : ℕ) : Prop :=
  Fits major.low (major.minors.map Minor.extent) major.stop (size + 24)

namespace Liballoc

variable {Source : Type u} {source : PageSource Source} {state : Liballoc Source}
  {majors front back : List Major} {major : Major} {held : List Extent} {size reqSize : ℕ}

/-! ## New majors -/

/-- The pages are enough for the block and two headers. -/
theorem newPages_bounds (word : size + 48 < 2 ^ 32) :
    size + 48 ≤ newPages size * 4096 ∧ 1 ≤ newPages size ∧ newPages size < 2 ^ 32 := by
  have sum : offset (offset size majorHeaderSize) minorHeaderSize = size + 48 := by
    have first : offset size majorHeaderSize = size + 24 :=
      offset_eq (show size + 24 < 2 ^ 32 by omega)
    rw [first]
    exact offset_eq (show size + 24 + 24 < 2 ^ 32 by omega)
  unfold newPages
  simp only [sum, pageSize, pageCount]
  split <;> split <;> omega

/-- What is new in the state when a major was requested. -/
structure NewMajor (state after : Liballoc Source) (fresh : Major) (size : ℕ) (held : List Extent) :
    Prop where
  laid : fresh.Laid
  aligned : fresh.start % 4096 = 0
  above : heapFloor ≤ fresh.start
  empty : fresh.minors = []
  room : fresh.low + (size + 24) ≤ fresh.stop
  apart : ∀ other ∈ held, fresh.pageExtent.Apart other
  header : record after.memory fresh.start = majorHeader 0 fresh 0
  frame : ∀ address, ¬InHeader fresh.start address → after.memory address = state.memory address
  others : after = { state with
    memory := after.memory
    allocated := (state.allocated + fresh.extent.size) % 2 ^ 64
    source := after.source }

/-- **`allocate_new_page`** returns `NULL`, or the address of a new major. -/
theorem allocateNewPage_spec (owns : source.Owns state.source held) (word : size + 48 < 2 ^ 32) :
    (∃ after, allocateNewPage source.toHooks state size = some (0,
        { state with warningCount := state.warningCount + 1, source := after }) ∧
      source.Owns after held ∧
      source.liballocAlloc state.source (newPages size) = some (0, after)) ∨
    ∃ fresh after, allocateNewPage source.toHooks state size = some (fresh.start, after) ∧
      NewMajor state after fresh size held ∧
      source.Owns after.source (fresh.pageExtent :: held) ∧
      source.liballocAlloc state.source (newPages size) = some (fresh.start, after.source) := by
  obtain ⟨enough, some', pagesWord⟩ := newPages_bounds word
  obtain ⟨ret, after, called, outcome⟩ := source.alloc owns some' pagesWord
  unfold allocateNewPage
  simp only [called]
  rcases outcome with ⟨rfl, ownsAfter⟩ | ⟨start, rfl, positive, fits, apart, ownsAfter⟩
  · exact .inl ⟨after, if_pos rfl, ownsAfter, rfl⟩
  · have nonnull : ¬start * 4096 = 0 := by omega
    let fresh : Major := ⟨start * 4096, newPages size, []⟩
    have pageExtent : fresh.pageExtent = ⟨start, newPages size⟩ := by
      simp only [fresh, Major.pageExtent, pageSize]
      rw [Nat.mul_div_cancel _ (by decide)]
    have bytes : newPages size * pageSize % 2 ^ 32 = newPages size * 4096 :=
      Nat.mod_eq_of_lt (show newPages size * 4096 < 2 ^ 32 by omega)
    have small : majorHeaderSize < 2 ^ 32 := by decide
    refine .inr ⟨fresh, _, if_neg nonnull, ⟨?_, ?_, ?_, rfl, ?_, ?_, ?_, ?_, ?_⟩, ?_, rfl⟩
    · refine ⟨?_, ?_, fun minor member => absurd member List.not_mem_nil, ?_⟩
      · exact Nat.pos_of_ne_zero nonnull
      · simp only [fresh, Row, Major.low, Major.stop, List.map_nil, majorHeaderSize, pageSize]
        omega
      · simp only [fresh, Major.stop, pageSize]
        omega
    · exact Nat.mul_mod_left _ _
    · exact Nat.mul_le_mul_right _ positive
    · simp only [fresh, Major.low, Major.stop, majorHeaderSize, pageSize]
      omega
    · rw [pageExtent]
      exact apart
    · rw [bytes]
      simp (disch := omega) only [fresh, record_setMajor]
      funext field
      cases field <;> rfl
    · intro address outside
      simp (disch := omega) only [fresh] at outside ⊢
      simp (disch := omega) only [setMajor_frame]
    · simp (disch := omega) only [bytes, majorAt, record_setMajor]
      rfl
    · rw [pageExtent]
      exact ownsAfter

namespace NewMajor

variable {after : Liballoc Source} {fresh : Major}

/-- A new major has no byte in common with those of the heap. -/
theorem apart_majors (new : NewMajor state after fresh size (majors.map Major.pageExtent))
    (heap : HeapStored source state majors) :
    ∀ major ∈ majors, major.extent.Apart fresh.extent := fun major member =>
  pages_apart (heap.aligned major member) new.aligned
    (new.apart _ (List.mem_map_of_mem member)).symm

/-- The bytes that are accounted for. -/
theorem allocated_eq (new : NewMajor state after fresh size (majors.map Major.pageExtent))
    (heap : HeapStored source state majors) :
    (state.allocated + fresh.extent.size) % 2 ^ 64 = bytesAllocated (majors ++ [fresh]) := by
  have bound := @bytesAllocated_le (majors ++ [fresh])
    (List.forall_mem_append.mpr ⟨heap.laid, List.forall_mem_singleton.mpr new.laid⟩)
    (List.pairwise_append.mpr ⟨heap.apart, List.pairwise_singleton _ _,
      fun major member other isNew =>
      List.mem_singleton.mp isNew ▸ new.apart_majors heap major member⟩)
  rw [bytesAllocated_append, bytesAllocated_singleton] at bound ⊢
  rw [heap.allocated]
  exact Nat.mod_eq_of_lt (by omega)

/-- The first major is the root. -/
theorem asRoot (new : NewMajor state after fresh size []) (heap : HeapStored source state [])
    (owns : source.Owns after.source [fresh.pageExtent]) :
    HeapStored source { after with memRoot := fresh.start } [fresh] := by
  have stored : MajorStored after.memory 0 fresh 0 :=
    ⟨new.header, by rw [new.empty]; trivial⟩
  have extended := (heap.extend new.laid new.aligned new.above new.empty
    (fun major member => absurd member List.not_mem_nil) stored
    (fun major last => absurd last (Option.not_mem_none _)) (fun address _ => new.frame address)
    owns).1
  rw [← @allocated_eq _ _ _ [] _ _ _ new heap] at extended
  rw [new.others]
  exact extended

end NewMajor

/-- **A new major behind the last one**, or `NULL` and the same heap. -/
theorem appendMajor_spec (heap : HeapStored source state (front ++ [major]))
    (word : size + 48 < 2 ^ 32) :
    (∃ after, appendMajor source.toHooks state major.start size = some (0, after) ∧
      HeapStored source after (front ++ [major]) ∧ after.memory = state.memory ∧
      source.liballocAlloc state.source (newPages size) = some (0, after.source)) ∨
    ∃ fresh after, appendMajor source.toHooks state major.start size = some (fresh.start, after) ∧
      fresh.minors = [] ∧ fresh.low + (size + 24) ≤ fresh.stop ∧
      (∃ pages, source.liballocAlloc state.source (newPages size) = some (fresh.start, pages)) ∧
      HeapStored source after (front ++ [major] ++ [fresh]) ∧
      SameOn (heapBlocks (front ++ [major])) state.memory after.memory := by
  have member : major ∈ front ++ [major] := List.mem_append_right _ (List.mem_singleton_self _)
  have laid := heap.laid major member
  have used := laid.usage_le
  have some' : 24 ≤ major.usage := Nat.le_add_right _ _
  have fits := laid.fits
  have stored := (@HeapStored.stored _ _ _ front [] major (by simpa using heap)).header
  rw [firstOf_nil] at stored
  unfold appendMajor
  rcases allocateNewPage_spec heap.owns word with ⟨after, called, owns, refused⟩ |
    ⟨fresh, after, called, new, owns, given⟩
  · have unchanged : setMajor state.memory major.start .next 0 = state.memory :=
      setField_self (congrFun stored .next)
    have next : majorAt state.memory major.start .next = 0 := congrFun stored .next
    simp only [called, unchanged, next]
    exact .inl ⟨_, rfl, { heap with owns := owns }, rfl, refused⟩
  · have freshUsed := new.laid.usage_le
    have freshSome : 24 ≤ fresh.usage := Nat.le_add_right _ _
    have freshFits := new.laid.fits
    have nonnull : ¬fresh.start = 0 := Nat.ne_of_gt new.laid.nonnull
    have apart := new.apart_majors heap
    have order : major.start + 24 ≤ fresh.start ∨ fresh.start + 24 ≤ major.start := by
      have order := Extent.apart_iff.mp (apart major member)
      simp only [Major.extent, Major.stop] at *
      omega
    have before : @record MajorField _ after.memory major.start =
        record state.memory major.start := by
      refine record_congr (show _ + 24 ≤ _ by omega) fun i bound => new.frame _ ?_
      have size : recordSize MajorField = 24 := rfl
      unfold InHeader
      omega
    have next : majorAt (setMajor after.memory major.start .next fresh.start) major.start .next =
        fresh.start := by
      simp (disch := omega) only [majorAt, record_setMajor, Function.update_self]
    simp only [called, next, if_neg nonnull]
    have extended := @HeapStored.extend _ _ _ (setMajor (setMajor after.memory major.start .next
      fresh.start) fresh.start .prev major.start) _ _ _ heap new.laid new.aligned new.above
        new.empty apart
      ⟨?_, ?_⟩ ?_ ?_ owns
    · rw [← new.allocated_eq heap] at extended
      have root : firstOf Major.start (front ++ [major] ++ [fresh]) 0 = state.memRoot := by
        rw [heap.root, firstOf_append, firstOf_append, firstOf_append]
        rfl
      rw [root] at extended
      refine .inr ⟨fresh, _, rfl, new.empty, new.room, ⟨_, given⟩, ?_, extended.2⟩
      rw [new.others]
      exact extended.1
    · simp (disch := omega) only [record_setMajor, major_setMajor, new.header, lastOf_concat]
      funext field
      cases field <;> rfl
    · rw [new.empty]
      trivial
    · intro other last
      rw [List.getLast?_concat] at last
      obtain rfl : major = other := Option.some.inj last
      simp (disch := omega) only [record_setMajor, major_setMajor, before]
    · intro address outLast outFresh
      have out := outLast major List.getLast?_concat
      simp (disch := omega) only [setMajor_frame, new.frame _ outFresh]

/-! ## One turn of the loop -/

/-- What a request does: it fails when no major has room and there are no pages, it is placed in a
major that has room, or it is placed in a new major when none has room. -/
inductive Requested (source : PageSource Source) (memory : Memory) (pages : Source)
    (majors : List Major) (reqSize size : ℕ) (result : ℕ × Liballoc Source) : Prop where
  | null : result.1 = 0 → (∀ major ∈ majors, ¬major.HasRoom size) →
      source.liballocAlloc pages (newPages size) = some (0, result.2.source) →
      HeapStored source result.2 majors → result.2.memory = memory →
        Requested source memory pages majors reqSize size result
  | placed {front back : List Major} {major : Major} {before after : List Minor} {new : Minor} :
      majors = front ++ [major] ++ back → major.minors = before ++ after → new.size = size →
      new.reqSize = reqSize → result.1 = new.pointer →
      HeapStored source result.2 (front ++ [major.withMinors (before ++ [new] ++ after)] ++ back) →
      SameOn (heapBlocks majors) memory result.2.memory →
        Requested source memory pages majors reqSize size result
  | newMajor {fresh : Major} {new : Minor} : (∀ major ∈ majors, ¬major.HasRoom size) →
      (∃ pages', source.liballocAlloc pages (newPages size) = some (fresh.start, pages')) →
      new.size = size → new.reqSize = reqSize → result.1 = new.pointer →
      HeapStored source result.2 (majors ++ [fresh.withMinors [new]]) →
      SameOn (heapBlocks majors) memory result.2.memory →
        Requested source memory pages majors reqSize size result

theorem remember_memory (state : Liballoc Source) (maj diff bestSize : ℕ) :
    (remember state maj diff bestSize).memory = state.memory := by
  unfold remember
  split <;> rfl

theorem remember_source (state : Liballoc Source) (maj diff bestSize : ℕ) :
    (remember state maj diff bestSize).source = state.source := by
  unfold remember
  split <;> rfl

theorem remember_memRoot (state : Liballoc Source) (maj diff bestSize : ℕ) :
    (remember state maj diff bestSize).memRoot = state.memRoot := by
  unfold remember
  split <;> rfl

theorem HeapStored.remember (heap : HeapStored source state majors) (member : major ∈ majors)
    (diff bestSize : ℕ) :
    HeapStored source (remember state major.start diff bestSize) majors := by
  unfold Liballoc.remember
  split
  · exact heap.betOn member
  · exact heap

section Turn

variable {before after : ℕ} (stored : MajorStored state.memory before major after)
  (laid : major.Laid)
include stored laid

/-- The free bytes of a major, as the headers tell them. -/
theorem diff_eq :
    wordSub (majorAt state.memory major.start .size) (majorAt state.memory major.start .usage) =
      major.stop - (major.start + major.usage) := by
  have bytes : majorAt state.memory major.start .size = major.pages * pageSize :=
    congrFun stored.header .size
  have usage : majorAt state.memory major.start .usage = major.usage :=
    congrFun stored.header .usage
  have used := laid.usage_le
  have fits := laid.fits
  simp only [Major.stop] at *
  rw [bytes, usage, wordSub_eq (by omega) (by omega)]
  omega

omit stored in
/-- A gap is no larger than the free bytes. -/
theorem hasRoom_le (room : major.HasRoom size) :
    size + 24 ≤ major.stop - (major.start + major.usage) := by
  by_contra small
  refine laid.row.not_fits ?_ room
  have used := laid.usage_le
  simp only [Major.usage, Major.low] at *
  omega

omit stored in
/-- A major has fewer minors than bytes. -/
theorem minors_length : major.minors.length + 2 ≤ 2 ^ 32 := by
  have used := laid.usage_le
  have fits := laid.fits
  have count := List.card_nsmul_le_sum ((major.minors.map Minor.extent).map Extent.size) 24 (by
    intro bytes member
    rw [List.map_map] at member
    obtain ⟨minor, -, rfl⟩ := List.mem_map.mp member
    exact Nat.le_add_right _ _)
  simp only [List.length_map, smul_eq_mul, Major.usage, majorHeaderSize] at *
  omega

end Turn

section Loop

variable (roomy : reqSize + 32 ≤ size) (word : size + 48 < 2 ^ 32)
include roomy word

/-- **A major with room** gets the block in the turn that comes to it. -/
theorem turn_found {turns bestSize : ℕ} {startedBet : Bool}
    (heap : HeapStored source state (front ++ [major] ++ back))
    (fresh : major.minors = [] → major.low + (size + 24) ≤ major.stop) (room : major.HasRoom size) :
    ∃ diff result,
      mallocLoop source.toHooks reqSize size (turns + 1) state major.start startedBet bestSize =
        some result ∧ Places (remember state major.start diff bestSize) result major reqSize
          size := by
  have laid := heap.laid major HeapStored.mem_middle
  have nonnull : ¬major.start = 0 := Nat.ne_of_gt laid.nonnull
  have need : offset size minorHeaderSize = size + 24 :=
    offset_eq (show size + 24 < 2 ^ 32 by omega)
  have diff := diff_eq heap.stored laid
  have enough : ¬major.stop - (major.start + major.usage) < size + 24 :=
    Nat.not_lt.mpr (hasRoom_le laid room)
  have remembered := heap.remember HeapStored.mem_middle
    (major.stop - (major.start + major.usage)) bestSize
  have search := placeIn_spec remembered.stored laid roomy (by omega) fresh (minors_length laid)
  rcases search with ⟨-, result, found, places⟩ | ⟨full, -⟩
  · refine ⟨_, result, ?_, places⟩
    rw [mallocLoop, if_neg nonnull]
    simp only [diff, case1, need, if_neg enough, found]
  · exact absurd room full

/-- The block, in terms of the heap. -/
theorem turn_room {turns bestSize : ℕ} {startedBet : Bool}
    (heap : HeapStored source state (front ++ [major] ++ back)) (inUse : major.minors ≠ [])
    (room : major.HasRoom size) :
    ∃ result, mallocLoop source.toHooks reqSize size (turns + 1) state major.start startedBet
      bestSize =
      some result ∧ Requested source state.memory state.source (front ++ [major] ++ back) reqSize
        size result := by
  obtain ⟨diff, result, found, places⟩ := @turn_found _ _ _ _ _ _ _ _ roomy word turns bestSize
    startedBet heap (fun empty => absurd empty inUse) room
  obtain ⟨before, new, after, split, newSize, newReqSize, pointer, stored, keeps⟩ :=
    (heap.remember HeapStored.mem_middle diff bestSize).places places
  rw [remember_memory] at keeps
  exact ⟨result, found, .placed rfl split newSize newReqSize pointer stored keeps⟩

/-- **No major had room**, and this is the last one: a new major is requested. -/
theorem turn_append {turns bestSize : ℕ} (heap : HeapStored source state (front ++ [major]))
    (inUse : major.minors ≠ []) (missed : ∀ other ∈ front, ¬other.HasRoom size)
    (full : ¬major.HasRoom size) :
    ∃ result, mallocLoop source.toHooks reqSize size (turns + 2) state major.start false bestSize =
      some result ∧ Requested source state.memory state.source (front ++ [major]) reqSize size
        result := by
  have heap' : HeapStored source state (front ++ [major] ++ []) := by simpa using heap
  have member : major ∈ front ++ [major] := List.mem_append_right _ (List.mem_singleton_self _)
  have laid := heap.laid major member
  have nonnull : ¬major.start = 0 := Nat.ne_of_gt laid.nonnull
  have need : offset size minorHeaderSize = size + 24 :=
    offset_eq (show size + 24 < 2 ^ 32 by omega)
  have diff := diff_eq heap'.stored laid
  have missedAll : ∀ other ∈ front ++ [major], ¬other.HasRoom size :=
    List.forall_mem_append.mpr ⟨missed, List.forall_mem_singleton.mpr full⟩
  have remembered := heap.remember member (major.stop - (major.start + major.usage)) bestSize
  have remembered' := heap'.remember HeapStored.mem_middle
    (major.stop - (major.start + major.usage)) bestSize
  have memory := remember_memory state major.start (major.stop - (major.start + major.usage))
    bestSize
  have next : majorAt (remember state major.start (major.stop - (major.start + major.usage))
      bestSize).memory major.start .next = 0 := congrFun remembered'.stored.header .next
  have search := placeIn_spec remembered'.stored laid roomy (by omega)
    (fun empty => absurd empty inUse) (minors_length laid)
  have missedHere : placeIn (remember state major.start (major.stop - (major.start + major.usage))
      bestSize) major.start reqSize size = some none := by
    rcases search with ⟨room, -⟩ | ⟨-, missed⟩
    · exact absurd room full
    · exact missed
  rw [mallocLoop, if_neg nonnull]
  simp only [diff, case1, case5, need, next, ne_eq, not_true_eq_false, if_false, Bool.false_eq_true]
  rcases appendMajor_spec remembered word with ⟨after, called, stored, same, refused⟩ |
    ⟨fresh, after, called, empty, room, given, stored, keeps⟩
  · rw [remember_source] at refused
    have failed : mallocLoop source.toHooks reqSize size (turns + 1) after 0 false
        (if bestSize < major.stop - (major.start + major.usage) then
          major.stop - (major.start + major.usage) else bestSize) = some (0, after) := by
      rw [mallocLoop, if_pos rfl]
    refine ⟨(0, after), ?_, .null rfl missedAll refused stored (same.trans memory)⟩
    by_cases small : major.stop - (major.start + major.usage) < size + 24
    · simp only [small, if_true, called, failed]
    · simp only [small, if_false, if_true, next, missedHere, called, failed]
  · have freshRoom : fresh.HasRoom size := by
      rw [Major.HasRoom, empty]
      exact fits_nil.mpr room
    have stored' : HeapStored source after (front ++ [major] ++ [fresh] ++ []) := by
      simpa using stored
    have freshLaid := stored.laid fresh (by simp)
    have freshNonnull : ¬fresh.start = 0 := Nat.ne_of_gt freshLaid.nonnull
    rw [memory] at keeps
    have finish {result : ℕ × Liballoc Source} {state' : Liballoc Source}
        (heapNow : HeapStored source state' (front ++ [major] ++ [fresh] ++ []))
        (same : state'.memory = after.memory) (places : Places state' result fresh reqSize size) :
        Requested source state.memory state.source (front ++ [major]) reqSize size result := by
      obtain ⟨before, new, behind, split, newSize, newReqSize, pointer, placed, kept⟩ :=
        heapNow.places places
      obtain ⟨rfl, rfl⟩ := List.append_eq_nil_iff.mp (split.symm.trans empty)
      rw [same] at kept
      rw [remember_source] at given
      refine .newMajor missedAll given newSize newReqSize pointer (by simpa using placed)
        (keeps.trans (kept.subset ?_))
      exact heapBlocks_subset fun other isOther =>
        List.mem_append_left _ (List.mem_append_left _ isOther)
    by_cases small : major.stop - (major.start + major.usage) < size + 24
    · have found := placeIn_spec stored'.stored freshLaid roomy (by omega) (fun _ => room)
        (minors_length freshLaid)
      rcases found with ⟨-, result, found, places⟩ | ⟨none', -⟩
      · refine ⟨result, ?_, finish stored' rfl places⟩
        simp only [small, if_true, called, freshNonnull, if_false, found]
      · exact absurd freshRoom none'
    · obtain ⟨diff', result, found, places⟩ := @turn_found _ _ _ _ _ _ _ _ roomy word turns
        (if bestSize < major.stop - (major.start + major.usage) then
          major.stop - (major.start + major.usage) else bestSize) false stored' (fun _ => room)
          freshRoom
      refine ⟨result, ?_, finish (stored'.remember HeapStored.mem_middle _ _)
        (remember_memory _ _ _ _) places⟩
      simp only [small, if_false, if_true, next, missedHere, called, found]

/-- **A major without room** leads to the one behind it, and the last one to the root when the
search started at the best bet. -/
theorem turn_onward {turns bestSize : ℕ} {startedBet : Bool} {rest : List Major}
    (heap : HeapStored source state (front ++ [major] ++ rest)) (inUse : major.minors ≠ [])
    (full : ¬major.HasRoom size) (onward : rest ≠ [] ∨ startedBet = true) :
    ∃ diff bestSize', mallocLoop source.toHooks reqSize size (turns + 1) state major.start
      startedBet
      bestSize =
        mallocLoop source.toHooks reqSize size turns (remember state major.start diff bestSize)
          (if rest = [] then state.memRoot else firstOf Major.start rest 0)
          (if rest = [] then false else startedBet) bestSize' := by
  have laid := heap.laid major HeapStored.mem_middle
  have nonnull : ¬major.start = 0 := Nat.ne_of_gt laid.nonnull
  have need : offset size minorHeaderSize = size + 24 :=
    offset_eq (show size + 24 < 2 ^ 32 by omega)
  have diff := diff_eq heap.stored laid
  have remembered := heap.remember HeapStored.mem_middle
    (major.stop - (major.start + major.usage)) bestSize
  have root := remember_memRoot state major.start (major.stop - (major.start + major.usage))
    bestSize
  have next : majorAt (remember state major.start (major.stop - (major.start + major.usage))
      bestSize).memory major.start .next = firstOf Major.start rest 0 :=
    congrFun remembered.stored.header .next
  have missed : placeIn (remember state major.start (major.stop - (major.start + major.usage))
      bestSize) major.start reqSize size = some none := by
    rcases placeIn_spec remembered.stored laid roomy (by omega) (fun empty => absurd empty inUse)
      (minors_length laid) with ⟨room, -⟩ | ⟨-, missed⟩
    · exact absurd room full
    · exact missed
  refine ⟨major.stop - (major.start + major.usage),
    if bestSize < major.stop - (major.start + major.usage) then
      major.stop - (major.start + major.usage) else bestSize, ?_⟩
  rw [mallocLoop, if_neg nonnull]
  simp only [diff, case1, case5, need, next, root]
  cases rest with
  | nil =>
      obtain rfl : startedBet = true := onward.resolve_left (fun nonempty => nonempty rfl)
      by_cases small : major.stop - (major.start + major.usage) < size + 24
      · simp only [small, if_true, firstOf_nil, ne_eq, not_true_eq_false, if_false]
      · simp only [small, if_false, missed, next, firstOf_nil, if_true, root]
  | cons other rest =>
      have isOther : other ∈ front ++ [major] ++ other :: rest := by simp
      have otherNonnull : ¬other.start = 0 := Nat.ne_of_gt (heap.laid other isOther).nonnull
      by_cases small : major.stop - (major.start + major.usage) < size + 24
      · simp only [small, if_true, firstOf_cons, ne_eq, otherNonnull, not_false_eq_true,
          reduceCtorEq,
          if_false]
      · simp only [small, if_false, missed, next, firstOf_cons, otherNonnull, reduceCtorEq]

/-! ## The whole search -/

/-- **From the root on**, or from any major when those before it have no room. -/
theorem mallocLoop_onward {turns bestSize : ℕ} {rest : List Major}
    (heap : HeapStored source state (front ++ [major] ++ rest))
    (inUse : ∀ other ∈ front ++ [major] ++ rest, other.minors ≠ [])
    (missed : ∀ other ∈ front, ¬other.HasRoom size) (enough : rest.length + 2 ≤ turns) :
    ∃ result, mallocLoop source.toHooks reqSize size turns state major.start false bestSize =
      some result ∧
        Requested source state.memory state.source (front ++ [major] ++ rest) reqSize size
          result := by
  induction rest generalizing front major state turns bestSize with
  | nil =>
      obtain ⟨left, rfl⟩ : ∃ left, turns = left + 2 := Nat.exists_eq_add_of_le' enough
      by_cases room : major.HasRoom size
      · exact turn_room roomy word heap (inUse major HeapStored.mem_middle) room
      · rw [List.append_nil] at heap ⊢
        exact turn_append roomy word heap (inUse major HeapStored.mem_middle) missed room
  | cons next rest ih =>
      obtain ⟨left, rfl⟩ : ∃ left, turns = left + 1 :=
        Nat.exists_eq_add_of_le' (Nat.le_trans (Nat.le_add_left 1 _) enough)
      by_cases room : major.HasRoom size
      · exact turn_room roomy word heap (inUse major HeapStored.mem_middle) room
      · obtain ⟨diff, bestSize', turn⟩ := @turn_onward _ _ _ _ _ _ _ roomy word left bestSize false
          (next :: rest) heap (inUse major HeapStored.mem_middle) room (.inl (List.cons_ne_nil _ _))
        rw [if_neg (List.cons_ne_nil _ _), if_neg (List.cons_ne_nil _ _), firstOf_cons] at turn
        have split : front ++ [major] ++ next :: rest =
          front ++ [major] ++ [next] ++ rest := by simp
        have remembered := heap.remember HeapStored.mem_middle diff bestSize
        rw [split] at remembered inUse ⊢
        have later := @ih (remember state major.start diff bestSize) (front ++ [major]) next left
          bestSize' remembered inUse
          (List.forall_mem_append.mpr ⟨missed, List.forall_mem_singleton.mpr room⟩)
          (Nat.le_of_succ_le_succ enough)
        rw [remember_memory, remember_source] at later
        rw [turn]
        exact later

/-- **From the best bet on.** A search that comes to the end starts over at the root. -/
theorem mallocLoop_fromBet {turns bestSize : ℕ} {rest : List Major}
    (heap : HeapStored source state (front ++ [major] ++ rest))
    (inUse : ∀ other ∈ front ++ [major] ++ rest, other.minors ≠ [])
    (enough : rest.length + (front ++ [major] ++ rest).length + 2 ≤ turns) :
    ∃ result, mallocLoop source.toHooks reqSize size turns state major.start true bestSize =
      some result ∧
        Requested source state.memory state.source (front ++ [major] ++ rest) reqSize size
          result := by
  induction rest generalizing front major state turns bestSize with
  | nil =>
      obtain ⟨left, rfl⟩ : ∃ left, turns = left + 1 :=
        Nat.exists_eq_add_of_le' (Nat.le_trans (Nat.le_add_left 1 _) enough)
      by_cases room : major.HasRoom size
      · exact turn_room roomy word heap (inUse major HeapStored.mem_middle) room
      · obtain ⟨diff, bestSize', turn⟩ := @turn_onward _ _ _ _ _ _ _ roomy word left bestSize true
          []
          heap (inUse major HeapStored.mem_middle) room (.inr rfl)
        rw [if_pos rfl, if_pos rfl, heap.root] at turn
        have remembered := heap.remember HeapStored.mem_middle diff bestSize
        obtain ⟨root, others, split⟩ := List.exists_cons_of_ne_nil
          (show front ++ [major] ++ [] ≠ [] by simp)
        have split' : front ++ [major] ++ [] = [] ++ [root] ++ others := split
        rw [split'] at remembered inUse enough turn ⊢
        have later := @mallocLoop_onward _ _ (remember state major.start diff bestSize) [] root _ _
          roomy word left bestSize' others remembered inUse
          (fun other member => absurd member List.not_mem_nil)
          (by
            simp only [List.length_append, List.length_nil, List.length_singleton] at enough
            omega)
        rw [remember_memory, remember_source] at later
        rw [turn]
        exact later
  | cons next rest ih =>
      obtain ⟨left, rfl⟩ : ∃ left, turns = left + 1 :=
        Nat.exists_eq_add_of_le' (Nat.le_trans (Nat.le_add_left 1 _) enough)
      by_cases room : major.HasRoom size
      · exact turn_room roomy word heap (inUse major HeapStored.mem_middle) room
      · obtain ⟨diff, bestSize', turn⟩ := @turn_onward _ _ _ _ _ _ _ roomy word left bestSize true
          (next :: rest) heap (inUse major HeapStored.mem_middle) room (.inl (List.cons_ne_nil _ _))
        rw [if_neg (List.cons_ne_nil _ _), if_neg (List.cons_ne_nil _ _), firstOf_cons] at turn
        have split : front ++ [major] ++ next :: rest =
          front ++ [major] ++ [next] ++ rest := by simp
        have remembered := heap.remember HeapStored.mem_middle diff bestSize
        rw [split] at remembered inUse enough ⊢
        have later := @ih (remember state major.start diff bestSize) (front ++ [major]) next left
          bestSize' remembered inUse (by rw [List.length_cons] at enough; omega)
        rw [remember_memory, remember_source] at later
        rw [turn]
        exact later

/-! ## The request -/

omit roomy word in
/-- A heap has fewer majors than pages. -/
theorem majors_length (heap : HeapStored source state majors) : majors.length * 4096 ≤ 2 ^ 32 := by
  have bound := bytesAllocated_le heap.laid heap.apart
  have count := List.card_nsmul_le_sum (majors.map fun major => major.extent.size) 4096 (by
    intro bytes member
    obtain ⟨major, isMajor, rfl⟩ := List.mem_map.mp member
    have place := (heap.laid major isMajor).header_fits
    simp only [Major.extent, pageSize] at *
    omega)
  simp only [List.length_map, smul_eq_mul, bytesAllocated] at *
  omega

theorem mallocSearch_spec (heap : HeapStored source state majors)
    (inUse : ∀ major ∈ majors, major.minors ≠ []) (nonempty : majors ≠ []) :
    ∃ result, mallocSearch source.toHooks state reqSize size = some result ∧
      Requested source state.memory state.source majors reqSize size result := by
  have count := majors_length heap
  unfold mallocSearch
  simp only
  generalize (if state.bestBet ≠ 0 then wordSub (majorAt state.memory state.bestBet .size)
    (majorAt state.memory state.bestBet .usage) else 0) = bestSize
  by_cases bet : state.bestBet ≠ 0 ∧ offset size minorHeaderSize < bestSize
  · rw [if_pos bet]
    obtain ⟨major, member, start⟩ := heap.bet.resolve_left bet.1
    obtain ⟨front, rest, rfl⟩ := List.append_of_mem member
    rw [← start]
    rw [List.append_cons] at heap inUse count ⊢
    refine mallocLoop_fromBet roomy word heap inUse ?_
    simp only [List.length_append, List.length_singleton] at *
    omega
  · rw [if_neg bet]
    obtain ⟨root, rest, rfl⟩ := List.exists_cons_of_ne_nil nonempty
    rw [heap.root]
    rw [List.length_cons] at count
    exact @mallocLoop_onward _ _ state [] root _ _ roomy word (2 ^ 32) _ rest heap inUse
      (fun other member => absurd member List.not_mem_nil) (by omega)

theorem mallocSized_spec (heap : HeapStored source state majors)
    (inUse : ∀ major ∈ majors, major.minors ≠ []) :
    ∃ result, mallocSized source.toHooks state reqSize size = some result ∧
      Requested source state.memory state.source majors reqSize size result := by
  unfold mallocSized
  cases majors with
  | cons root rest =>
      have nonnull : ¬state.memRoot = 0 := by
        rw [heap.root]
        exact Nat.ne_of_gt (heap.laid root List.mem_cons_self).nonnull
      rw [if_neg nonnull]
      exact mallocSearch_spec roomy word heap inUse (List.cons_ne_nil _ _)
  | nil =>
      have noBet : state.bestBet = 0 := by
        rcases heap.bet with none' | ⟨major, member, -⟩
        · exact none'
        · cases member
      have noRoot : state.memRoot = 0 := heap.root
      rw [if_pos noRoot]
      rcases allocateNewPage_spec heap.owns word with
        ⟨after, called, owns, refused⟩ | ⟨fresh, after, called, new, owns, given⟩
      · simp only [called, if_true]
        exact ⟨_, rfl, .null rfl (fun major member => absurd member List.not_mem_nil) refused
          { heap with root := rfl, owns := owns } rfl⟩
      · have rooted := new.asRoot heap owns
        have nonnull : ¬fresh.start = 0 := Nat.ne_of_gt new.laid.nonnull
        have afterBet : after.bestBet = 0 := by
          rw [new.others]
          exact noBet
        have room : fresh.HasRoom size := by
          rw [Major.HasRoom, new.empty]
          exact fits_nil.mpr new.room
        have search : ∃ diff result, mallocSearch source.toHooks
            { after with memRoot := fresh.start } reqSize size = some result ∧
              Places (remember { after with memRoot := fresh.start } fresh.start diff 0) result
                fresh
                reqSize size := by
          have unset : ¬after.bestBet ≠ 0 := fun bet => bet afterBet
          unfold mallocSearch
          simp only [unset, false_and, if_false]
          exact @turn_found _ _ { after with memRoot := fresh.start } [] [] fresh _ _ roomy word
            (2 ^ 32 - 1) 0 false rooted (fun _ => new.room) room
        obtain ⟨diff, result, found, places⟩ := search
        have remembered := @HeapStored.remember _ _ _ _ fresh rooted (List.mem_singleton_self _)
          diff 0
        obtain ⟨before, minor, behind, split, minorSize, minorReqSize, pointer, stored, keeps⟩ :=
          @HeapStored.places _ _ _ [] [] _ _ _ _ remembered places
        obtain ⟨rfl, rfl⟩ := List.append_eq_nil_iff.mp (split.symm.trans new.empty)
        simp only [called, if_neg nonnull]
        refine ⟨result, found, .newMajor (fun major member => absurd member List.not_mem_nil)
          ⟨_, given⟩ minorSize minorReqSize pointer stored ?_⟩
        have fresh' : SameOn (heapBlocks []) state.memory after.memory := by
          intro address kept
          refine new.frame address fun here => ?_
          have above := Nat.le_trans new.above here.1
          rcases kept with low | ⟨block, member, -⟩
          · omega
          · exact absurd member List.not_mem_nil
        rw [remember_memory] at keeps
        exact fresh'.trans (keeps.subset (List.nil_subset _))

end Loop

/-- **A request** that leaves room for its headers always returns, with `NULL` only when no major
has room for it and there are no pages. -/
theorem malloc_spec (heap : HeapStored source state majors)
    (inUse : ∀ major ∈ majors, major.minors ≠ []) (small : reqSize + 80 < 2 ^ 32) :
    ∃ result, malloc source.toHooks state reqSize = some result ∧
      Requested source state.memory state.source majors reqSize (reqSize + 32) result := by
  have size : offset reqSize (alignment + alignInfo) = reqSize + 32 :=
    offset_eq (show reqSize + 32 < 2 ^ 32 by omega)
  unfold malloc
  simp only [size]
  rw [if_neg (by omega)]
  exact mallocSized_spec (Nat.le_refl _) (by omega) heap inUse

/-! ## When a request fails -/

/-- A minor between two parts of the list had a gap there. -/
theorem hasRoom_of_laid {before after : List Minor} {new : Minor}
    (split : major.minors = before ++ after)
    (laid : (major.withMinors (before ++ [new] ++ after)).Laid) : major.HasRoom new.size := by
  have row := laid.row
  rw [Major.withMinors_minors, List.append_assoc, List.map_append, List.singleton_append,
    List.map_cons, row_append] at row
  obtain ⟨-, above, behind⟩ := row
  refine ⟨before.map Minor.extent, after.map Minor.extent, by rw [split, List.map_append], ?_⟩
  have below := behind.le_rowStart
  have stop := new.extent_stop
  simp only [Major.withMinors_low, Major.withMinors_stop, Minor.extent] at *
  omega

/-- The gaps of a major are all the room there is in it. -/
theorem hasRoom_iff_vacant (laid : major.Laid) :
    major.HasRoom size ↔ ∃ start, major.low ≤ start ∧ start + (size + 24) ≤ major.stop ∧
      ∀ minor ∈ major.minors, Extent.Apart ⟨start, size + 24⟩ minor.extent := by
  have solid : ∀ extent ∈ major.minors.map Minor.extent, 0 < extent.size := by
    intro extent member
    obtain ⟨minor, -, rfl⟩ := List.mem_map.mp member
    exact Nat.lt_of_lt_of_le (show 0 < 24 by decide) (Nat.le_add_right 24 minor.size)
  have vacant := laid.row.fits_iff_vacant (show 0 < size + 24 by omega) solid
  simp only [List.forall_mem_map] at vacant
  exact vacant

/-- **A request fails** exactly when no major has room for it and there are no pages. -/
theorem malloc_null (heap : HeapStored source state majors)
    (inUse : ∀ major ∈ majors, major.minors ≠ []) (small : reqSize + 80 < 2 ^ 32) :
    (∃ after, malloc source.toHooks state reqSize = some (0, after)) ↔
      (∃ pages, source.liballocAlloc state.source (newPages (reqSize + 32)) = some (0, pages)) ∧
        ∀ major ∈ majors, ¬major.HasRoom (reqSize + 32) := by
  obtain ⟨⟨ret, after⟩, called, requested⟩ := malloc_spec heap inUse small
  have nonnull (minor : Minor) : minor.pointer ≠ 0 := by
    have bounds := minor.pointer_bounds
    omega
  have isNull : (∃ after, malloc source.toHooks state reqSize = some (0, after)) ↔ ret = 0 := by
    rw [called]
    constructor
    · rintro ⟨after', same⟩
      exact congrArg Prod.fst (Option.some.inj same)
    · rintro rfl
      exact ⟨after, rfl⟩
  rw [isNull]
  cases requested with
  | null failed missed refused _ _ => exact ⟨fun _ => ⟨⟨_, refused⟩, missed⟩, fun _ => failed⟩
  | @placed front back major before behind new isMajors split newSize _ pointer stored _ =>
      obtain rfl : ret = new.pointer := pointer
      refine ⟨fun null => absurd null (nonnull new), ?_⟩
      rintro ⟨-, missed⟩
      have room := hasRoom_of_laid split (stored.laid _ HeapStored.mem_middle)
      rw [newSize] at room
      exact absurd room (missed major (isMajors ▸ HeapStored.mem_middle))
  | @newMajor fresh new missed given _ _ pointer stored _ =>
      obtain rfl : ret = new.pointer := pointer
      refine ⟨fun null => absurd null (nonnull new), ?_⟩
      rintro ⟨⟨pages, refused⟩, -⟩
      obtain ⟨pages', given⟩ := given
      have laid := stored.laid (fresh.withMinors [new])
        (List.mem_append_right _ (List.mem_singleton_self _))
      have start := congrArg Prod.fst (Option.some.inj (given.symm.trans refused))
      exact absurd start (Nat.ne_of_gt laid.nonnull)

end Liballoc

end CatchOS.Mmu
