import CatchOS.Mmu.LiballocLayout

/-!
# Placing a block

The cases of `malloc` that place a block in a major. They differ in where the new minor goes:
into an empty major (`case2`), before the first minor (`case3`), behind the last one (`case41`),
or between two (`case42`). Each of them does the same to the list of minors, which is told by
`Spliced` with the new minor and nothing in its place before.

The search through one major takes the first gap with enough space (`placeIn_spec`): it places
the block when there is such a gap, and changes nothing when there is none.
-/

set_option autoImplicit false

namespace CatchOS.Mmu

open CatchOS CatchOS.Lib

universe u

/-! ## Stores to headers -/

section Stores

variable {memory : Memory} {min maj other value address : ℕ} {field : MinorField}
  {majorField : MajorField}

theorem record_setMinor (fits : min + 24 ≤ 2 ^ 32) (word : value < 2 ^ 32) :
    record (setMinor memory min field value) min =
      Function.update (record memory min) field value :=
  record_setField fits word

theorem record_setMajor (fits : maj + 24 ≤ 2 ^ 32) (word : value < 2 ^ 32) :
    record (setMajor memory maj majorField value) maj =
      Function.update (record memory maj) majorField value :=
  record_setField fits word

theorem minor_setMinor (fits : min + 24 ≤ 2 ^ 32) (otherFits : other + 24 ≤ 2 ^ 32)
    (apart : min + 24 ≤ other ∨ other + 24 ≤ min) :
    @record MinorField _ (setMinor memory other field value) min = record memory min :=
  record_setField_apart fits otherFits apart

theorem minor_setMajor (fits : min + 24 ≤ 2 ^ 32) (otherFits : maj + 24 ≤ 2 ^ 32)
    (apart : min + 24 ≤ maj ∨ maj + 24 ≤ min) :
    @record MinorField _ (setMajor memory maj majorField value) min = record memory min :=
  record_setField_apart fits otherFits apart

theorem major_setMinor (fits : maj + 24 ≤ 2 ^ 32) (otherFits : min + 24 ≤ 2 ^ 32)
    (apart : maj + 24 ≤ min ∨ min + 24 ≤ maj) :
    @record MajorField _ (setMinor memory min field value) maj = record memory maj :=
  record_setField_apart fits otherFits apart

theorem major_setMajor (fits : maj + 24 ≤ 2 ^ 32) (otherFits : other + 24 ≤ 2 ^ 32)
    (apart : maj + 24 ≤ other ∨ other + 24 ≤ maj) :
    @record MajorField _ (setMajor memory other majorField value) maj = record memory maj :=
  record_setField_apart fits otherFits apart

theorem setMinor_frame (fits : min + 24 ≤ 2 ^ 32) (outside : ¬InHeader min address) :
    setMinor memory min field value address = memory address := by
  refine setField_frame fits (show _ ∨ _ + 24 ≤ _ from ?_)
  unfold InHeader at outside
  omega

theorem setMajor_frame (fits : maj + 24 ≤ 2 ^ 32) (outside : ¬InHeader maj address) :
    setMajor memory maj majorField value address = memory address := by
  refine setField_frame fits (show _ ∨ _ + 24 ≤ _ from ?_)
  unfold InHeader at outside
  omega

end Stores

/-! ## Alignment -/

/-- `ALIGN` returns the pointer of the minor, and leaves its distance before it. -/
theorem align_eq {memory : Memory} {minor : Minor} (fits : minor.start + 56 ≤ 2 ^ 32) :
    align memory (minor.start + minorHeaderSize) =
      (minor.pointer, Function.update memory (minor.pointer - alignInfo)
        (BitVec.ofNat 8 (minor.pointer - (minor.start + minorHeaderSize)))) := by
  have moved : offset (minor.start + minorHeaderSize) alignInfo = minor.start + 40 := by
    simp only [minorHeaderSize, alignInfo]
    exact offset_eq (by omega)
  have pointer : minor.pointer = (minor.start + 40 + 15) / 16 * 16 := rfl
  have bounds := minor.pointer_bounds
  have before : wordSub minor.pointer alignInfo = minor.pointer - alignInfo :=
    wordSub_eq (by omega) (by simp only [alignInfo]; omega)
  have remainder : (minor.start + 40) % 16 = 0 ∧ minor.pointer = minor.start + 40 ∨
      (minor.start + 40) % 16 ≠ 0 ∧
        minor.pointer = minor.start + 40 + (16 - (minor.start + 40) % 16) := by
    omega
  unfold align
  simp only [moved, alignment]
  rcases remainder with ⟨aligned, here⟩ | ⟨rest, here⟩
  · have distance : minor.start + 40 - (minor.start + minorHeaderSize) = 0 + alignInfo := by
      simp only [minorHeaderSize, alignInfo]
      omega
    rw [here] at before ⊢
    simp only [aligned, ne_eq, not_true_eq_false, if_false, before, distance]
  · have nonzero : ¬16 - (minor.start + 40) % 16 = 0 := by omega
    have distance : minor.pointer - (minor.start + minorHeaderSize) =
        16 - (minor.start + 40) % 16 + alignInfo := by
      simp only [minorHeaderSize, alignInfo]
      omega
    have up : offset (minor.start + 40) (16 - (minor.start + 40) % 16) = minor.pointer := by
      rw [offset_eq (by omega), here]
    simp only [rest, nonzero, ne_eq, not_false_eq_true, if_true, up, before, distance]

/-- `UNALIGN` finds the byte behind the header again. -/
theorem unalign_pointer {memory : Memory} {block before after : ℕ} {minor : Minor}
    (stored : MinorStored memory block before minor after) (fits : minor.start + 56 ≤ 2 ^ 32) :
    unalign memory minor.pointer = minor.start + minorHeaderSize := by
  have bounds := minor.pointer_bounds
  have place : wordSub minor.pointer alignInfo = minor.pointer - alignInfo :=
    wordSub_eq (by omega) (by simp only [alignInfo]; omega)
  have distance : (memory (wordSub minor.pointer alignInfo)).toNat =
      minor.pointer - (minor.start + minorHeaderSize) := by
    rw [place, stored.distance, BitVec.toNat_ofNat, Nat.mod_eq_of_lt]
    simp only [minorHeaderSize]
    omega
  have small : minor.pointer - (minor.start + minorHeaderSize) < alignment + alignInfo := by
    simp only [alignment, alignInfo, minorHeaderSize]
    omega
  unfold unalign
  simp only [distance]
  rw [if_pos small, wordSub_eq (by omega) (by omega), minorHeaderSize]
  omega

/-! ## The end of every case -/

namespace Liballoc

variable {Source : Type u} {state : Liballoc Source} {memory memory' : Memory} {major : Major}
  {minor new : Minor} {front back : List Minor} {before after : ℕ}

/-- The new minor is linked in; the major does not count it yet. -/
structure LinkedIn (memory memory' : Memory) (major : Major) (front : List Minor) (new : Minor)
    (back : List Minor) : Prop where
  minor : record memory' new.start = minorHeader major.start (lastOf Minor.start 0 front) new
    (firstOf Minor.start back 0)
  header : record memory' major.start = Function.update (record memory major.start) MajorField.first
    (firstOf Minor.start (front ++ [new] ++ back) 0)
  last : ∀ minor ∈ front.getLast?, record memory' minor.start =
    Function.update (record memory minor.start) MinorField.next new.start
  first : ∀ minor ∈ back.head?, record memory' minor.start =
    Function.update (record memory minor.start) MinorField.prev new.start
  frame : ∀ address, ¬InHeader major.start address →
    (∀ minor ∈ front.getLast?, ¬InHeader minor.start address) →
    (∀ minor ∈ back.head?, ¬InHeader minor.start address) →
    ¬InHeader new.start address → memory' address = memory address

/-- What a case does: it returns the pointer of the new minor, which is in the list then. -/
structure PlacesAt (state : Liballoc Source) (result : ℕ × Liballoc Source) (major : Major)
    (front : List Minor) (new : Minor) (back : List Minor) : Prop where
  pointer : result.1 = new.pointer
  spliced : Spliced state.memory result.2.memory major front [] [new] back
  state : result.2 = { state with
    memory := result.2.memory
    inuse := (state.inuse + new.size) % 2 ^ 64 }

/-- The bytes in use after a minor was put in. -/
theorem usage_insert (split : major.minors = front ++ back) :
    (major.withMinors (front ++ [new] ++ back)).usage =
      major.usage + (new.size + minorHeaderSize) := by
  simp only [Major.usage, Major.withMinors_minors, split, List.map_append, List.sum_append,
    List.map_cons, List.map_nil, List.sum_cons, List.sum_nil, Minor.extent]
  omega

/-- **The end of every case.** The new minor is counted, and its pointer is returned. -/
theorem handOut_places (linked : LinkedIn state.memory memory major front new back)
    (stored : MajorStored state.memory before major after) (split : major.minors = front ++ back)
    (laid : (major.withMinors (front ++ [new] ++ back)).Laid) :
    PlacesAt state (handOut { state with memory := memory } major.start new.start new.size) major
      front new back := by
  have member : new ∈ front ++ [new] ++ back := by simp
  obtain ⟨above, below, roomy, fits⟩ := laid.bounds member
  rw [Major.withMinors_start] at above
  have pointer := new.pointer_bounds
  have beside {minor : Minor} (member : minor ∈ front ++ back) :
      major.start + 24 ≤ minor.start ∧ minor.start + 24 ≤ 2 ^ 32 ∧
        (minor.start + 24 ≤ new.start ∨ new.start + 24 + new.size ≤ minor.start) := by
    have place := laid.bounds (show minor ∈ front ++ [new] ++ back by
      rcases List.mem_append.mp member with inFront | inBack
      · exact List.mem_append_left _ (List.mem_append_left _ inFront)
      · exact List.mem_append_right _ inBack)
    rw [Major.withMinors_start] at place
    have order := laid.across rfl member (List.mem_singleton_self new)
    unfold Minor.Before at order
    omega
  have used : majorAt memory major.start .usage = major.usage := by
    show record memory major.start MajorField.usage = major.usage
    rw [linked.header, stored.header]
    rfl
  have usage : offset (majorAt memory major.start .usage) (new.size + minorHeaderSize) =
      (major.withMinors (front ++ [new] ++ back)).usage := by
    have bound := laid.usage_le
    rw [used, usage_insert split, offset_eq]
    rw [usage_insert split] at bound
    omega
  have word : (major.withMinors (front ++ [new] ++ back)).usage < 2 ^ 32 := by
    have bound := laid.usage_le
    omega
  have aligned := @align_eq (setMajor memory major.start .usage
    (major.withMinors (front ++ [new] ++ back)).usage) new (by omega)
  have info : new.pointer - alignInfo = new.pointer - 16 := rfl
  have behind : offset new.start minorHeaderSize = new.start + minorHeaderSize :=
    offset_eq (by simp only [minorHeaderSize]; omega)
  have size : recordSize MinorField = 24 := rfl
  have majorSize : recordSize MajorField = 24 := rfl
  have unseen {minor : Minor} (member : minor ∈ front ++ back) :
      @record MinorField _ (Function.update (setMajor memory major.start .usage
        (major.withMinors (front ++ [new] ++ back)).usage) (new.pointer - alignInfo)
        (BitVec.ofNat 8 (new.pointer - (new.start + minorHeaderSize)))) minor.start =
      record memory minor.start := by
    have place := beside member
    rw [record_update (by omega) (by omega), minor_setMajor (by omega) (by omega) (by omega)]
  simp only [handOut, usage, behind, aligned]
  refine ⟨rfl, ⟨?_, ⟨⟨?_, ?_⟩, trivial⟩, ?_, ?_, ?_⟩, rfl⟩
  · rw [record_update (by omega) (by omega), record_setMajor (by omega) word, linked.header]
  · rw [record_update (by omega) (by omega), minor_setMajor (by omega) (by omega) (by omega)]
    exact linked.minor
  · exact Function.update_self _ _ _
  · intro minor last
    rw [unseen (List.mem_append_left _ (List.mem_of_mem_getLast? last))]
    exact linked.last minor last
  · intro minor first
    rw [unseen (List.mem_append_right _ (List.mem_of_mem_head? first))]
    exact linked.first minor first
  · intro address outMajor outLast outFirst outNew
    have out := outNew new (List.mem_singleton_self new)
    simp only [Extent.Contains, Minor.head, minorHeaderSize, alignInfo] at out
    have apart : address ≠ new.pointer - alignInfo := by omega
    refine (Function.update_of_ne apart _ _).trans ?_
    rw [setMajor_frame (by omega) outMajor]
    apply linked.frame address outMajor outLast outFirst
    unfold InHeader
    omega

/-! ## The cases -/

section Cases

variable (stored : MajorStored state.memory before major after)
include stored

/-- **Case 2.** The first block of a major goes to its start. -/
theorem case2_places (split : major.minors = [] ++ []) (start : new.start = major.low)
    (laid : (major.withMinors ([] ++ [new] ++ [])).Laid) :
    PlacesAt state (case2 state major.start new.reqSize new.size) major [] new [] := by
  obtain ⟨above, below, roomy, fits⟩ := laid.bounds (List.mem_singleton_self new)
  rw [Major.withMinors_start] at above
  have low : offset major.start majorHeaderSize = new.start := by
    rw [start]
    exact offset_eq (by simp only [majorHeaderSize]; omega)
  have first : majorAt (setMajor state.memory major.start .first new.start) major.start .first =
      new.start := by
    simp (disch := omega) only [majorAt, record_setMajor, Function.update_self]
  have magic : liballocMagic < 2 ^ 32 := by decide
  simp only [case2, low, first]
  refine handOut_places ⟨?_, ?_, ?_, ?_, ?_⟩ stored split laid
  · simp (disch := omega) only [record_setMinor]
    funext field
    cases field <;> rfl
  · simp (disch := omega) only [major_setMinor, record_setMajor]
    rfl
  · exact fun minor member => absurd member (Option.not_mem_none _)
  · exact fun minor member => absurd member (Option.not_mem_none _)
  · intro address outMajor _ _ outNew
    simp (disch := omega) only [setMinor_frame, setMajor_frame]

/-- **Case 3.** The new minor goes before the first one. -/
theorem case3_places {old : Minor} (split : major.minors = [] ++ old :: back)
    (start : new.start = major.low) (laid : (major.withMinors ([] ++ [new] ++ old :: back)).Laid) :
    PlacesAt state (case3 state major.start new.reqSize new.size) major [] new (old :: back) := by
  obtain ⟨above, below, roomy, fits⟩ :=
    laid.bounds (show new ∈ [] ++ [new] ++ old :: back from List.mem_cons_self)
  have oldPlace :=
    laid.bounds (show old ∈ [] ++ [new] ++ old :: back from List.mem_cons_of_mem _
      List.mem_cons_self)
  have order : new.Before old := (List.pairwise_cons.mp laid.sorted).1 old List.mem_cons_self
  unfold Minor.Before at order
  rw [Major.withMinors_start] at above oldPlace
  have magic : liballocMagic < 2 ^ 32 := by decide
  have low : offset major.start majorHeaderSize = new.start := by
    rw [start]
    exact offset_eq (by simp only [majorHeaderSize]; omega)
  have first : majorAt state.memory major.start .first = old.start := by
    show record _ _ MajorField.first = _
    rw [stored.header, majorHeader, split]
    rfl
  have prev : minorAt (setMinor state.memory old.start .prev new.start) old.start .prev =
      new.start := by
    simp (disch := omega) only [minorAt, record_setMinor, Function.update_self]
  have prev' : minorAt (setMinor (setMinor state.memory old.start .prev new.start) new.start .next
      old.start) old.start .prev = new.start := by
    simp (disch := omega) only [minorAt, minor_setMinor, record_setMinor, Function.update_self]
  have first' {memory : Memory} : majorAt (setMajor memory major.start .first new.start) major.start
      .first = new.start := by
    simp (disch := omega) only [majorAt, record_setMajor, Function.update_self]
  simp only [case3, low, first, prev, prev', first']
  refine handOut_places ⟨?_, ?_, ?_, ?_, ?_⟩ stored split laid
  · simp (disch := omega) only [record_setMinor, minor_setMajor]
    funext field
    cases field <;> rfl
  · simp (disch := omega) only [major_setMinor, record_setMajor]
    rfl
  · exact fun minor member => absurd member (Option.not_mem_none _)
  · intro minor member
    obtain rfl : old = minor := Option.some.inj member
    simp (disch := omega) only [minor_setMinor, minor_setMajor, record_setMinor]
  · intro address outMajor _ outOld outNew
    have out := outOld old rfl
    simp (disch := omega) only [setMinor_frame, setMajor_frame]

/-- **Case 4.1.** The new minor goes behind the last one. -/
theorem case41_places {min : Minor} (split : major.minors = (front ++ [min]) ++ [])
    (start : new.start = min.extent.stop)
    (laid : (major.withMinors ((front ++ [min]) ++ [new] ++ [])).Laid) :
    PlacesAt state (case41 state major.start min.start new.reqSize new.size) major (front ++ [min])
      new [] := by
  obtain ⟨above, below, roomy, fits⟩ :=
    laid.bounds (show new ∈ front ++ [min] ++ [new] ++ [] by simp)
  have minPlace := laid.bounds (show min ∈ front ++ [min] ++ [new] ++ [] by simp)
  rw [Major.withMinors_start] at above minPlace
  have magic : liballocMagic < 2 ^ 32 := by decide
  rw [min.extent_stop] at start
  have header : record state.memory min.start = minorHeader major.start
      (lastOf Minor.start 0 front) min 0 := by
    have minors := stored.minors
    rw [split, List.append_nil, linked_append] at minors
    exact minors.2.1.header
  have behind : offset (offset min.start minorHeaderSize) (minorAt state.memory min.start .size) =
      new.start := by
    have size : minorAt state.memory min.start .size = min.size := by
      show record _ _ MinorField.size = _
      rw [header]
      rfl
    have header' : offset min.start minorHeaderSize = min.start + 24 :=
      offset_eq (show min.start + 24 < 2 ^ 32 by omega)
    rw [size, header', offset_eq (by omega), start]
  have next {memory : Memory} :
      minorAt (setMinor memory min.start .next new.start) min.start .next =
      new.start := by
    simp (disch := omega) only [minorAt, record_setMinor, Function.update_self]
  have next' : minorAt (setMinor (setMinor state.memory min.start .next new.start) new.start .prev
      min.start) min.start .next = new.start := by
    simp (disch := omega) only [minorAt, minor_setMinor, record_setMinor, Function.update_self]
  simp only [case41, behind, next, next']
  refine handOut_places ⟨?_, ?_, ?_, ?_, ?_⟩ stored split laid
  · simp (disch := omega) only [record_setMinor, lastOf_concat]
    funext field
    cases field <;> rfl
  · simp (disch := omega) only [major_setMinor]
    have first : firstOf Minor.start (front ++ [min] ++ [new] ++ []) 0 =
        record state.memory major.start MajorField.first := by
      rw [stored.header, majorHeader, split]
      simp only [List.append_nil, firstOf_append]
      rfl
    rw [first, Function.update_eq_self]
  · intro minor member
    rw [List.getLast?_concat] at member
    obtain rfl : min = minor := Option.some.inj member
    simp (disch := omega) only [minor_setMinor, record_setMinor]
  · exact fun minor member => absurd member (Option.not_mem_none _)
  · intro address outMajor outMin _ outNew
    have out := outMin min (List.getLast?_concat)
    simp (disch := omega) only [setMinor_frame]

/-- **Case 4.2.** The new minor goes between two others. -/
theorem case42_places {min next : Minor} (split : major.minors = (front ++ [min]) ++ next :: back)
    (start : new.start = min.extent.stop)
    (laid : (major.withMinors ((front ++ [min]) ++ [new] ++ next :: back)).Laid) :
    PlacesAt state (case42 state major.start min.start new.reqSize new.size) major (front ++ [min])
      new (next :: back) := by
  obtain ⟨above, below, roomy, fits⟩ :=
    laid.bounds (show new ∈ front ++ [min] ++ [new] ++ next :: back by simp)
  have minPlace := laid.bounds (show min ∈ front ++ [min] ++ [new] ++ next :: back by simp)
  have nextPlace := laid.bounds (show next ∈ front ++ [min] ++ [new] ++ next :: back by simp)
  have nextOrder : new.Before next := by
    have sorted := laid.sorted
    rw [Major.withMinors_minors, List.append_assoc, List.singleton_append] at sorted
    exact (List.pairwise_cons.mp (List.pairwise_append.mp sorted).2.1).1 next List.mem_cons_self
  unfold Minor.Before at nextOrder
  rw [Major.withMinors_start] at above minPlace nextPlace
  have magic : liballocMagic < 2 ^ 32 := by decide
  rw [min.extent_stop] at start
  have header : record state.memory min.start = minorHeader major.start
      (lastOf Minor.start 0 front) min next.start := by
    have minors := stored.minors
    rw [split, List.append_assoc, List.singleton_append, linked_append] at minors
    exact minors.2.1.header
  have behind : offset (offset min.start minorHeaderSize) (minorAt state.memory min.start .size) =
      new.start := by
    have size : minorAt state.memory min.start .size = min.size := by
      show record _ _ MinorField.size = _
      rw [header]
      rfl
    have header' : offset min.start minorHeaderSize = min.start + 24 :=
      offset_eq (show min.start + 24 < 2 ^ 32 by omega)
    rw [size, header', offset_eq (by omega), start]
  have onward {memory : Memory}
      (same : @record MinorField _ memory min.start = record state.memory min.start) :
      minorAt memory min.start .next = next.start := by
    show record _ _ MinorField.next = _
    rw [same, header]
    rfl
  simp only [case42, behind]
  rw [onward (by simp (disch := omega) only [minor_setMinor]),
    onward (by simp (disch := omega) only [minor_setMinor])]
  refine handOut_places ⟨?_, ?_, ?_, ?_, ?_⟩ stored split laid
  · simp (disch := omega) only [record_setMinor, minor_setMinor, lastOf_concat]
    funext field
    cases field <;> rfl
  · simp (disch := omega) only [major_setMinor]
    have first : firstOf Minor.start (front ++ [min] ++ [new] ++ next :: back) 0 =
        record state.memory major.start MajorField.first := by
      rw [stored.header, majorHeader, split]
      simp only [List.append_assoc, firstOf_append]
      rfl
    rw [first, Function.update_eq_self]
  · intro minor member
    rw [List.getLast?_concat] at member
    obtain rfl : min = minor := Option.some.inj member
    simp (disch := omega) only [minor_setMinor, record_setMinor]
  · intro minor member
    obtain rfl : next = minor := Option.some.inj member
    simp (disch := omega) only [minor_setMinor, record_setMinor]
  · intro address outMajor outMin outNext outNew
    have out := outMin min (List.getLast?_concat)
    have out' := outNext next rfl
    simp (disch := omega) only [setMinor_frame]

end Cases

/-! ## The search through one major -/

/-- A block was placed in some gap of the major. -/
def Places (state : Liballoc Source) (result : ℕ × Liballoc Source) (major : Major)
    (reqSize size : ℕ) : Prop :=
  ∃ front new back, major.minors = front ++ back ∧ new.size = size ∧ new.reqSize = reqSize ∧
    (major.withMinors (front ++ [new] ++ back)).Laid ∧ PlacesAt state result major front new back

/-- The space between the end of a minor and an address behind it. -/
theorem spaceBehind_eq {memory : Memory} {limit : ℕ}
    (size : minorAt memory minor.start .size = minor.size)
    (word : limit < 2 ^ 32) (behind : minor.extent.stop ≤ limit) :
    spaceBehind memory minor.start limit = limit - minor.extent.stop := by
  rw [minor.extent_stop] at behind ⊢
  have fromStart : wordSub limit minor.start = limit - minor.start := wordSub_eq word (by omega)
  have behindHeader : wordSub (limit - minor.start) minorHeaderSize = limit - minor.start - 24 :=
    wordSub_eq (by omega) (show 24 ≤ _ by omega)
  rw [spaceBehind, size, fromStart, behindHeader, wordSub_eq (by omega) (by omega)]
  omega

/-- The search found a gap with enough space and placed the block there, or there is none. -/
def Searched (state : Liballoc Source) (outcome : Option (Option (ℕ × Liballoc Source)))
    (major : Major) (reqSize size : ℕ) (fits : Prop) : Prop :=
  (fits ∧ ∃ result, outcome = some (some result) ∧ Places state result major reqSize size) ∨
    (¬fits ∧ outcome = some none)

section Search

variable {reqSize size : ℕ} (stored : MajorStored state.memory before major after)
  (laid : major.Laid) (roomy : reqSize + 32 ≤ size) (word : size + 24 < 2 ^ 32)
include stored laid roomy word

omit stored word in
/-- The place behind a minor, when there is enough space up to what comes next. -/
theorem laid_behind {rest : List Minor} (split : major.minors = (front ++ [minor]) ++ rest)
    (room : minor.extent.stop + (size + 24) ≤ rowStart (rest.map Minor.extent) major.stop) :
    (major.withMinors
      ((front ++ [minor]) ++ [⟨minor.extent.stop, size, reqSize⟩] ++ rest)).Laid := by
  apply laid.insert split
  · rw [List.map_append, List.map_singleton, rowStop_concat]
  · exact roomy
  · rw [Minor.extent_stop]
    exact Nat.le_trans (Nat.le_of_eq (by simp only; omega)) room

/-- **Case 4** looks at the gaps behind the minors, and takes the first one with enough space. -/
theorem case4_spec {rest : List Minor} {turns : ℕ} (split : major.minors = front ++ minor :: rest)
    (enough : rest.length + 2 ≤ turns) :
    Searched state (case4 state major.start reqSize size turns minor.start) major reqSize size
      (Fits minor.extent.stop (rest.map Minor.extent) major.stop (size + 24)) := by
  have need : offset size minorHeaderSize = size + 24 := offset_eq word
  induction rest generalizing front minor turns with
  | nil =>
      obtain ⟨left, rfl⟩ : ∃ left, turns = left + 1 + 1 := Nat.exists_eq_add_of_le' enough
      have member : minor ∈ major.minors := by simp [split]
      obtain ⟨above, below, minorRoomy, fits⟩ := laid.bounds member
      have header : record state.memory minor.start = minorHeader major.start
          (lastOf Minor.start 0 front) minor 0 := by
        have minors := stored.minors
        rw [split, linked_append] at minors
        exact minors.2.1.header
      have nonnull : minor.start ≠ 0 := by omega
      have next : minorAt state.memory minor.start .next = 0 := congrFun header .next
      have minorSize : minorAt state.memory minor.start .size = minor.size := congrFun header .size
      have limit : offset major.start (majorAt state.memory major.start .size) = major.stop := by
        have size : majorAt state.memory major.start .size = major.pages * pageSize :=
          congrFun stored.header .size
        rw [size]
        exact offset_eq fits
      rw [← minor.extent_stop] at below
      have space := spaceBehind_eq minorSize fits below
      rw [case4, if_neg nonnull]
      simp only [next, if_true, limit, need, space]
      have behind : major.minors = (front ++ [minor]) ++ [] := by simp [split]
      by_cases room : size + 24 ≤ major.stop - minor.extent.stop
      · have placed := laid_behind laid roomy behind
          (by simp only [List.map_nil, rowStart_nil]; omega)
        have places := case41_places stored behind rfl placed
        exact .inl ⟨fits_nil.mpr (by omega), _, if_pos room,
          front ++ [minor], ⟨minor.extent.stop, size, reqSize⟩, [], behind, rfl, rfl, placed,
          places⟩
      · exact .inr ⟨fun fit => room (Nat.le_sub_of_add_le' (fits_nil.mp fit)), if_neg room⟩
  | cons next rest ih =>
      obtain ⟨left, rfl⟩ : ∃ left, turns = left + 1 :=
        Nat.exists_eq_add_of_le' (Nat.le_trans (Nat.le_add_left 1 _) enough)
      have nextPlace := laid.bounds (show next ∈ major.minors by simp [split])
      obtain ⟨above, below, minorRoomy, fits⟩ :=
        laid.bounds (show minor ∈ major.minors by simp [split])
      have behind : major.minors = (front ++ [minor]) ++ next :: rest := by simp [split]
      have header : record state.memory minor.start = minorHeader major.start
          (lastOf Minor.start 0 front) minor next.start := by
        have minors := stored.minors
        rw [split, linked_append] at minors
        exact minors.2.1.header
      have order : minor.Before next := by
        have sorted := laid.sorted
        rw [split] at sorted
        exact (List.pairwise_cons.mp (List.pairwise_append.mp sorted).2.1).1 next List.mem_cons_self
      have nonnull : minor.start ≠ 0 := by omega
      have nextNonnull : next.start ≠ 0 := by omega
      have onward : minorAt state.memory minor.start .next = next.start := congrFun header .next
      have minorSize : minorAt state.memory minor.start .size = minor.size := congrFun header .size
      unfold Minor.Before at order
      rw [← minor.extent_stop] at order
      have space := spaceBehind_eq minorSize (by omega) order
      rw [case4, if_neg nonnull]
      simp only [onward, nextNonnull, if_false, need, space]
      by_cases room : size + 24 ≤ next.start - minor.extent.stop
      · have enough' : minor.extent.stop + (size + 24) ≤ next.start := by omega
        have placed := laid_behind laid roomy behind enough'
        have places := case42_places stored behind rfl placed
        exact .inl ⟨fits_cons.mpr (.inl enough'), _, if_pos room, front ++ [minor],
          ⟨minor.extent.stop, size, reqSize⟩, next :: rest, behind, rfl, rfl, placed, places⟩
      · have later := ih behind (Nat.le_of_succ_le_succ enough)
        rw [if_neg room]
        rcases later with ⟨fit, found⟩ | ⟨full, missed⟩
        · exact .inl ⟨fits_cons.mpr (.inr fit), found⟩
        · refine .inr ⟨fun fit => ?_, missed⟩
          rcases fits_cons.mp fit with before | behind
          · apply room
            simp only [Minor.extent] at *
            omega
          · exact full behind

/-- **The search through one major.** It finds a gap exactly when one has enough space. An empty
major is one that was requested for this block. -/
theorem placeIn_spec (fresh : major.minors = [] → major.low + (size + 24) ≤ major.stop)
    (few : major.minors.length + 2 ≤ 2 ^ 32) :
    Searched state (placeIn state major.start reqSize size) major reqSize size
      (Fits major.low (major.minors.map Minor.extent) major.stop (size + 24)) := by
  have need : offset size minorHeaderSize = size + 24 := offset_eq word
  have first : majorAt state.memory major.start .first = firstOf Minor.start major.minors 0 :=
    congrFun stored.header .first
  unfold placeIn
  simp only [first, need]
  cases split : major.minors with
  | nil =>
      have room := fresh split
      let new : Minor := ⟨major.low, size, reqSize⟩
      have placed : (major.withMinors ([] ++ [new] ++ [])).Laid := by
        refine laid.insert split rfl (show reqSize + 32 ≤ size from roomy) ?_
        rw [Minor.extent_stop]
        exact Nat.le_trans (Nat.le_of_eq (by simp only [new]; omega)) room
      have places := case2_places stored split rfl placed
      exact .inl ⟨fits_nil.mpr room, _, if_pos rfl, [], new, [], split, rfl, rfl, placed, places⟩
  | cons minor rest =>
      obtain ⟨above, below, minorRoomy, fits⟩ :=
        laid.bounds (show minor ∈ major.minors by simp [split])
      have nonnull : minor.start ≠ 0 := by omega
      have space : wordSub (wordSub minor.start major.start) majorHeaderSize =
          minor.start - major.low := by
        have fromStart : wordSub minor.start major.start = minor.start - major.start :=
          wordSub_eq (by omega) (by omega)
        rw [fromStart, Major.low, majorHeaderSize, wordSub_eq (by omega) (by omega)]
        omega
      have low : major.low = major.start + 24 := rfl
      rw [split] at few
      simp only [firstOf_cons, nonnull, if_false, space]
      by_cases room : size + 24 ≤ minor.start - major.low
      · let new : Minor := ⟨major.low, size, reqSize⟩
        have before : major.low + (size + 24) ≤ minor.start := by omega
        have placed : (major.withMinors ([] ++ [new] ++ minor :: rest)).Laid := by
          refine laid.insert split rfl (show reqSize + 32 ≤ size from roomy) ?_
          rw [Minor.extent_stop]
          exact Nat.le_trans (Nat.le_of_eq (by simp only [new]; omega)) before
        have places := case3_places stored split rfl placed
        exact .inl ⟨fits_cons.mpr (.inl before), _, if_pos room, [], new, minor :: rest, split, rfl,
          rfl, placed, places⟩
      · rw [if_neg room]
        have search :=
          case4_spec stored laid roomy word (show major.minors = [] ++ minor :: rest from split)
          (Nat.le_trans (Nat.le_succ _) few)
        rcases search with ⟨fit, found⟩ | ⟨full, missed⟩
        · exact .inl ⟨fits_cons.mpr (.inr fit), found⟩
        · refine .inr ⟨fun fit => ?_, missed⟩
          rcases fits_cons.mp fit with before | behind
          · apply room
            simp only [Minor.extent] at before
            omega
          · exact full behind

end Search

end Liballoc

end CatchOS.Mmu
