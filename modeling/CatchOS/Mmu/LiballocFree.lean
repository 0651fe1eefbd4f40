import CatchOS.Mmu.LiballocHeap

/-!
# Giving blocks back

What `free` does to the heap. Its argument is a pointer that `malloc` returned, so the byte
before it leads to the header, and the header to the major. The minor is taken out of the list
of its major (`unlinkMinor_spliced`). When it was the last one, the major is taken out of the
list of majors, and its pages are given back (`releaseMajor_spec`); a major without a block is
never kept. The bytes of all other blocks stay as they are.
-/

set_option autoImplicit false

namespace CatchOS.Mmu

open CatchOS CatchOS.Lib

universe u

/-! ## Stores at an address that may be `NULL` -/

section Optional

variable {memory : Memory} {place base value address : ℕ} {field : MinorField}

theorem minor_relink (fits : base + 24 ≤ 2 ^ 32)
    (apart : place ≠ 0 → place + 24 ≤ 2 ^ 32 ∧ (base + 24 ≤ place ∨ place + 24 ≤ base)) :
    @record MinorField _ (if place ≠ 0 then setMinor memory place field value else memory) base =
      record memory base := by
  split
  · rename_i nonnull
    exact minor_setMinor fits (apart nonnull).1 (apart nonnull).2
  · rfl

theorem major_relink (fits : base + 24 ≤ 2 ^ 32)
    (apart : place ≠ 0 → place + 24 ≤ 2 ^ 32 ∧ (base + 24 ≤ place ∨ place + 24 ≤ base)) :
    @record MajorField _ (if place ≠ 0 then setMinor memory place field value else memory) base =
      record memory base := by
  split
  · rename_i nonnull
    exact major_setMinor fits (apart nonnull).1 (apart nonnull).2
  · rfl

theorem major_relinkMajor {field : MajorField} (fits : base + 24 ≤ 2 ^ 32)
    (apart : place ≠ 0 → place + 24 ≤ 2 ^ 32 ∧ (base + 24 ≤ place ∨ place + 24 ≤ base)) :
    @record MajorField _ (if place ≠ 0 then setMajor memory place field value else memory) base =
      record memory base := by
  split
  · rename_i nonnull
    exact major_setMajor fits (apart nonnull).1 (apart nonnull).2
  · rfl

theorem relinkMajor_frame {field : MajorField}
    (apart : place ≠ 0 → place + 24 ≤ 2 ^ 32 ∧ ¬InHeader place address) :
    (if place ≠ 0 then setMajor memory place field value else memory) address = memory address := by
  split
  · rename_i nonnull
    exact setMajor_frame (apart nonnull).1 (apart nonnull).2
  · rfl

theorem relink_frame
    (apart : place ≠ 0 → place + 24 ≤ 2 ^ 32 ∧ ¬InHeader place address) :
    (if place ≠ 0 then setMinor memory place field value else memory) address = memory address := by
  split
  · rename_i nonnull
    exact setMinor_frame (apart nonnull).1 (apart nonnull).2
  · rfl

end Optional

namespace Liballoc

variable {Source : Type u} {source : PageSource Source} {state : Liballoc Source} {memory : Memory}
  {majors front back : List Major} {major : Major} {minor : Minor} {before after : List Minor}

/-! ## Taking a minor out of its major -/

section Unlink

variable {prev next usage : ℕ}
  (header : record memory minor.start = minorHeader major.start prev minor next)
  (counted : majorAt memory major.start .usage = usage) (above : major.start + 24 ≤ minor.start)
  (fits : minor.start + 24 ≤ 2 ^ 32)
  (behind : next ≠ 0 → next + 24 ≤ 2 ^ 32 ∧ minor.start + 24 ≤ next)
  (inFront : prev ≠ 0 → prev + 24 ≤ minor.start ∧ major.start + 24 ≤ prev)
include header counted above fits behind inFront

/-- The stores, with the neighbours that are read. -/
theorem unlinkMinor_eq :
    unlinkMinor memory major.start minor.start =
      let memory := setMajor memory major.start .usage
        (wordSub usage (minor.size + minorHeaderSize))
      let memory := setMinor memory minor.start .magic liballocDead
      let memory := if next ≠ 0 then setMinor memory next .prev prev else memory
      let memory := if prev ≠ 0 then setMinor memory prev .next next else memory
      if prev = 0 then setMajor memory major.start .first next else memory := by
  have word := wordSub_lt usage (minor.size + minorHeaderSize)
  have dead : liballocDead < 2 ^ 32 := by decide
  have size : minorAt memory minor.start .size = minor.size := congrFun header .size
  have same {memory' : Memory} (kept : @record MinorField _ memory' minor.start =
      Function.update (record memory minor.start) MinorField.magic liballocDead) :
      minorAt memory' minor.start .next = next ∧ minorAt memory' minor.start .prev = prev := by
    rw [header] at kept
    exact ⟨congrFun kept .next, congrFun kept .prev⟩
  let dead := setMinor (setMajor memory major.start .usage
    (wordSub usage (minor.size + minorHeaderSize))) minor.start .magic liballocDead
  let relinked := if next ≠ 0 then setMinor dead next .prev prev else dead
  have deadRecord : @record MinorField _ dead minor.start =
      Function.update (record memory minor.start) MinorField.magic liballocDead := by
    simp (disch := omega) only [dead, record_setMinor, minor_setMajor]
  have relinkedRecord : @record MinorField _ relinked minor.start =
      @record MinorField _ dead minor.start :=
    minor_relink fits fun nonnull => ⟨(behind nonnull).1, .inl (behind nonnull).2⟩
  have lastRecord : @record MinorField _ (if prev ≠ 0 then setMinor relinked prev .next next
      else relinked) minor.start = record relinked minor.start :=
    minor_relink fits fun nonnull =>
      ⟨Nat.le_trans (inFront nonnull).1 (by omega), .inr (inFront nonnull).1⟩
  have first := same deadRecord
  have second := same (relinkedRecord.trans deadRecord)
  have third := same (lastRecord.trans (relinkedRecord.trans deadRecord))
  simp only [relinked, dead] at first second third
  simp only [unlinkMinor, counted, size, first, second, third]

/-- What the stores do to the headers. -/
theorem unlinkMinor_effect :
    record (unlinkMinor memory major.start minor.start) major.start =
        Function.update
          (Function.update (record memory major.start) MajorField.first
            (if prev = 0 then next else majorAt memory major.start .first))
          MajorField.usage (wordSub usage (minor.size + minorHeaderSize)) ∧
      (next ≠ 0 → record (unlinkMinor memory major.start minor.start) next =
        Function.update (record memory next) MinorField.prev prev) ∧
      (prev ≠ 0 → record (unlinkMinor memory major.start minor.start) prev =
        Function.update (record memory prev) MinorField.next next) ∧
      ∀ address, ¬InHeader major.start address → ¬InHeader minor.start address →
        (next ≠ 0 → ¬InHeader next address) → (prev ≠ 0 → ¬InHeader prev address) →
          unlinkMinor memory major.start minor.start address = memory address := by
  have word := wordSub_lt usage (minor.size + minorHeaderSize)
  have dead : liballocDead < 2 ^ 32 := by decide
  have nextWord : next < 2 ^ 32 := by
    have here : record memory minor.start MinorField.next = next := congrFun header .next
    rw [← here]
    exact record_lt _ _ _
  have prevWord : prev < 2 ^ 32 := by
    have here : record memory minor.start MinorField.prev = prev := congrFun header .prev
    rw [← here]
    exact record_lt _ _ _
  rw [unlinkMinor_eq header counted above fits behind inFront]
  simp only
  have nextApart : next ≠ 0 → next + 24 ≤ 2 ^ 32 ∧
      (major.start + 24 ≤ next ∨ next + 24 ≤ major.start) := fun nonnull =>
    ⟨(behind nonnull).1, .inl (Nat.le_trans above (Nat.le_trans (Nat.le_add_right _ 24)
      (behind nonnull).2))⟩
  have prevApart : prev ≠ 0 → prev + 24 ≤ 2 ^ 32 ∧
      (major.start + 24 ≤ prev ∨ prev + 24 ≤ major.start) := fun nonnull =>
    ⟨Nat.le_trans (inFront nonnull).1 (by omega), .inl (inFront nonnull).2⟩
  refine ⟨?_, fun nonnull => ?_, fun nonnull => ?_,
    fun address outMajor outMinor outNext outPrev => ?_⟩
  · by_cases first : prev = 0
    · rw [if_pos first, if_pos first, record_setMajor (by omega) nextWord,
        major_relink (by omega) prevApart, major_relink (by omega) nextApart,
        major_setMinor (by omega) fits (.inl above), record_setMajor (by omega) word]
      exact Function.update_comm (by decide) _ _ _
    · rw [if_neg first, if_neg first, major_relink (by omega) prevApart,
        major_relink (by omega) nextApart, major_setMinor (by omega) fits (.inl above),
        record_setMajor (by omega) word, Function.update_eq_self]
  · obtain ⟨nextFits, order⟩ := behind nonnull
    have untouched {memory' : Memory} : @record MinorField _ (if prev = 0 then
        setMajor memory' major.start .first next else memory') next = record memory' next := by
      split
      · exact minor_setMajor nextFits (by omega) (.inr (by omega))
      · rfl
    rw [untouched, minor_relink nextFits fun nonnull' =>
        ⟨(prevApart nonnull').1, .inr (Nat.le_trans (inFront nonnull').1 (by omega))⟩,
      if_pos nonnull, record_setMinor nextFits prevWord, minor_setMinor nextFits fits (.inr order),
      minor_setMajor nextFits (by omega) (.inr (by omega))]
  · obtain ⟨order, place⟩ := inFront nonnull
    rw [if_neg nonnull, if_pos nonnull, record_setMinor (by omega) nextWord,
      minor_relink (by omega) fun nonnull' =>
        ⟨(behind nonnull').1, .inl (Nat.le_trans order (Nat.le_trans (Nat.le_add_right _ 24)
          (behind nonnull').2))⟩,
      minor_setMinor (by omega) fits (.inl order),
      minor_setMajor (by omega) (by omega) (.inr place)]
  · have untouched {memory' : Memory} : (if prev = 0 then setMajor memory' major.start .first next
        else memory') address = memory' address := by
      split
      · exact setMajor_frame (by omega) outMajor
      · rfl
    rw [untouched, relink_frame fun nonnull => ⟨(prevApart nonnull).1, outPrev nonnull⟩,
      relink_frame fun nonnull => ⟨(nextApart nonnull).1, outNext nonnull⟩,
      setMinor_frame fits outMinor, setMajor_frame (by omega) outMajor]

end Unlink

/-- **A minor is taken out.** -/
theorem unlinkMinor_spliced {prev next : ℕ} (stored : MajorStored memory prev major next)
    (laid : major.Laid) (split : major.minors = before ++ [minor] ++ after) :
    Spliced memory (unlinkMinor memory major.start minor.start) major before [minor] [] after := by
  have member : minor ∈ major.minors := by simp [split]
  obtain ⟨above, below, roomy, fits⟩ := laid.bounds member
  have header : record memory minor.start = minorHeader major.start (lastOf Minor.start 0 before)
      minor (firstOf Minor.start after 0) := by
    have minors := stored.minors
    rw [split, List.append_assoc, linked_append] at minors
    exact minors.2.1.header
  have counted : majorAt memory major.start .usage = major.usage := congrFun stored.header .usage
  have order {other : Minor} (isOther : other ∈ before ++ after) :
      other.Before minor ∨ minor.Before other :=
    laid.across split isOther (List.mem_singleton_self minor)
  have sorted := laid.sorted
  rw [split, List.append_assoc, List.pairwise_append] at sorted
  obtain ⟨-, sortedBehind, sortedBefore⟩ := sorted
  have behindFirst : ∀ other ∈ after.head?, firstOf Minor.start after 0 = other.start ∧
      minor.start + 24 + minor.size ≤ other.start ∧ other.start + 24 ≤ 2 ^ 32 := by
    intro other first
    have isOther := List.mem_of_mem_head? first
    have bounds := laid.bounds (show other ∈ major.minors by simp [split, isOther])
    exact ⟨firstOf_of_head? 0 first, (List.pairwise_cons.mp sortedBehind).1 other isOther, by omega⟩
  have beforeLast : ∀ other ∈ before.getLast?, lastOf Minor.start 0 before = other.start ∧
      other.start + 24 + other.size ≤ minor.start ∧ major.start + 24 ≤ other.start := by
    intro other last
    have isOther := List.mem_of_mem_getLast? last
    have bounds := laid.bounds (show other ∈ major.minors by simp [split, isOther])
    exact ⟨lastOf_of_getLast? 0 last, sortedBefore other isOther minor List.mem_cons_self, by omega⟩
  have behind : firstOf Minor.start after 0 ≠ 0 → firstOf Minor.start after 0 + 24 ≤ 2 ^ 32 ∧
      minor.start + 24 ≤ firstOf Minor.start after 0 := by
    intro nonnull
    cases after with
    | nil => exact absurd rfl nonnull
    | cons other rest =>
        have place := behindFirst other rfl
        rw [place.1]
        omega
  have inFront : lastOf Minor.start 0 before ≠ 0 → lastOf Minor.start 0 before + 24 ≤ minor.start ∧
      major.start + 24 ≤ lastOf Minor.start 0 before := by
    intro nonnull
    rcases List.eq_nil_or_concat' before with rfl | ⟨rest, other, rfl⟩
    · exact absurd rfl nonnull
    · have place := beforeLast other List.getLast?_concat
      rw [place.1]
      omega
  obtain ⟨majorEffect, nextEffect, prevEffect, frame⟩ :=
    unlinkMinor_effect header counted above (by omega) behind inFront
  refine ⟨?_, trivial, ?_, ?_, ?_⟩
  · have used : wordSub major.usage (minor.size + minorHeaderSize) =
        (major.withMinors (before ++ [] ++ after)).usage := by
      have total : major.usage = (major.withMinors (before ++ [] ++ after)).usage +
          (minor.size + minorHeaderSize) := by
        simp only [Major.usage, Major.withMinors_minors, split, List.map_append, List.sum_append,
          List.map_cons, List.map_nil, List.sum_cons, List.sum_nil, Minor.extent]
        omega
      have bound := laid.usage_le
      rw [wordSub_eq (by omega) (by omega), total, Nat.add_sub_cancel]
    have first : (if lastOf Minor.start 0 before = 0 then firstOf Minor.start after 0
        else majorAt memory major.start .first) =
          firstOf Minor.start (before ++ [] ++ after) 0 := by
      have here : majorAt memory major.start .first = firstOf Minor.start major.minors 0 :=
        congrFun stored.header .first
      cases before with
      | nil => rfl
      | cons other rest =>
          have nonnull : lastOf Minor.start 0 (other :: rest) ≠ 0 := by
            obtain ⟨last, isLast⟩ := Option.ne_none_iff_exists'.mp
              (show (other :: rest).getLast? ≠ none by simp)
            have place := beforeLast last isLast
            omega
          rw [if_neg nonnull, here, split]
          rfl
    rw [majorEffect, used, first]
  · intro other last
    have place := beforeLast other last
    rw [place.1] at prevEffect
    exact prevEffect (by omega)
  · intro other first
    have place := behindFirst other first
    rw [place.1] at nextEffect
    exact nextEffect (by omega)
  · intro address outMajor outLast outFirst outOld
    apply frame address outMajor
    · intro here
      refine outOld minor List.mem_cons_self ?_
      simp only [InHeader, Extent.Contains, Minor.head, minorHeaderSize, alignInfo] at *
      omega
    · intro nonnull
      cases after with
      | nil => exact absurd rfl nonnull
      | cons other rest => exact outFirst other rfl
    · intro nonnull
      rcases List.eq_nil_or_concat' before with rfl | ⟨rest, other, rfl⟩
      · exact absurd rfl nonnull
      · rw [lastOf_concat]
        exact outLast other List.getLast?_concat

/-! ## Taking a major out of the heap -/

/-- What the stores of `releaseMajor` do to the headers. -/
theorem releaseMajor_effect {hooks : Hooks Source} {prev next : ℕ}
    (header : record state.memory major.start = majorHeader prev major next)
    (fits : major.start + 24 ≤ 2 ^ 32)
    (inFront : prev ≠ 0 → prev + 24 ≤ 2 ^ 32 ∧
      (major.start + 24 ≤ prev ∨ prev + 24 ≤ major.start))
    (behind : next ≠ 0 → next + 24 ≤ 2 ^ 32 ∧
      (major.start + 24 ≤ next ∨ next + 24 ≤ major.start))
    (different : prev ≠ 0 → next ≠ 0 → prev + 24 ≤ next ∨ next + 24 ≤ prev) :
    ∃ memory, releaseMajor hooks state major.start =
        { state with
          memory := memory
          memRoot := if state.memRoot = major.start then next else state.memRoot
          bestBet := if state.bestBet = major.start then 0 else state.bestBet
          allocated := (state.allocated + (2 ^ 64 - major.extent.size)) % 2 ^ 64
          source := hooks.liballocFree state.source major.start major.pages } ∧
      (prev ≠ 0 →
        record memory prev = Function.update (record state.memory prev) MajorField.next next) ∧
      (next ≠ 0 →
        record memory next = Function.update (record state.memory next) MajorField.prev prev) ∧
      ∀ address, (prev ≠ 0 → ¬InHeader prev address) → (next ≠ 0 → ¬InHeader next address) →
        memory address = state.memory address := by
  have prevWord : prev < 2 ^ 32 := by
    have here : record state.memory major.start MajorField.prev = prev := congrFun header .prev
    rw [← here]
    exact record_lt _ _ _
  have nextWord : next < 2 ^ 32 := by
    have here : record state.memory major.start MajorField.next = next := congrFun header .next
    rw [← here]
    exact record_lt _ _ _
  let relinked := if prev ≠ 0 then setMajor state.memory prev .next next else state.memory
  let memory := if next ≠ 0 then setMajor relinked next .prev prev else relinked
  have relinkedRecord : @record MajorField _ relinked major.start =
      record state.memory major.start :=
    major_relinkMajor fits inFront
  have memoryRecord : @record MajorField _ memory major.start = record relinked major.start :=
    major_relinkMajor fits behind
  have read {memory' : Memory} (same : @record MajorField _ memory' major.start =
      record state.memory major.start) (field : MajorField) :
      majorAt memory' major.start field = majorHeader prev major next field := by
    rw [header] at same
    exact congrFun same field
  have before := read rfl
  have middle := read relinkedRecord
  have afterwards := read (memoryRecord.trans relinkedRecord)
  refine ⟨memory, ?_, fun nonnull => ?_, fun nonnull => ?_, fun address outPrev outNext => ?_⟩
  · simp only [relinked, memory] at middle afterwards
    simp only [releaseMajor, before, middle, afterwards, majorHeader, memory, relinked]
    rfl
  · have there := inFront nonnull
    rw [major_relinkMajor there.1 fun nonnull' => ⟨(behind nonnull').1, different nonnull nonnull'⟩]
    simp only [relinked]
    rw [if_pos nonnull, record_setMajor there.1 nextWord]
  · have there := behind nonnull
    simp only [memory]
    rw [if_pos nonnull, record_setMajor there.1 prevWord,
      major_relinkMajor there.1 fun nonnull' =>
        ⟨(inFront nonnull').1, (different nonnull' nonnull).symm⟩]
  · exact (relinkMajor_frame fun nonnull => ⟨(behind nonnull).1, outNext nonnull⟩).trans
      (relinkMajor_frame fun nonnull => ⟨(inFront nonnull).1, outPrev nonnull⟩)

/-- **An empty major** leaves the heap, and its pages are given back. -/
theorem releaseMajor_spec (heap : HeapStored source state (front ++ [major] ++ back))
    (empty : major.minors = []) :
    HeapStored source (releaseMajor source.toHooks state major.start) (front ++ back) ∧
      SameOn (heapBlocks (front ++ back)) state.memory
        (releaseMajor source.toHooks state major.start).memory := by
  have fits := (heap.laid major HeapStored.mem_middle).header_fits.2
  have inMajors {other : Major} (member : other ∈ front ++ back) :
      other ∈ front ++ [major] ++ back := HeapStored.mem_beside member
  have once : major ∉ front ++ back := by
    have nodup := heap.nodup
    rw [List.append_assoc, List.singleton_append, List.nodup_middle] at nodup
    exact (List.nodup_cons.mp nodup).1
  have beside {other : Major} (member : other ∈ front ++ back) : other.start + 24 ≤ 2 ^ 32 ∧
      (major.start + 24 ≤ other.start ∨ other.start + 24 ≤ major.start) := by
    refine ⟨(heap.laid other (inMajors member)).header_fits.2, ?_⟩
    exact heap.order HeapStored.mem_middle (inMajors member) fun same => once (same ▸ member)
  have inFront {other : Major} (last : other ∈ front.getLast?) : other ∈ front ++ back :=
    List.mem_append_left _ (List.mem_of_mem_getLast? last)
  have inBack {other : Major} (first : other ∈ back.head?) : other ∈ front ++ back :=
    List.mem_append_right _ (List.mem_of_mem_head? first)
  have nodup : (front ++ back).Nodup := heap.nodup.sublist (by simp)
  have lastStart {other : Major} (last : other ∈ front.getLast?) :
      lastOf Major.start 0 front = other.start := lastOf_of_getLast? 0 last
  have firstStart {other : Major} (first : other ∈ back.head?) :
      firstOf Major.start back 0 = other.start := firstOf_of_head? 0 first
  obtain ⟨memory, released, prevEffect, nextEffect, frame⟩ := @releaseMajor_effect _ _ _
    source.toHooks _ _ heap.stored.header fits
    (fun nonnull => by
      obtain ⟨other, last, start⟩ := exists_of_lastOf_ne nonnull
      rw [start]
      exact beside (inFront last))
    (fun nonnull => by
      obtain ⟨other, first, start⟩ := exists_of_firstOf_ne nonnull
      rw [start]
      exact beside (inBack first))
    (fun nonnull nonnull' => by
      obtain ⟨other, last, start⟩ := exists_of_lastOf_ne nonnull
      obtain ⟨next, first, start'⟩ := exists_of_firstOf_ne nonnull'
      rw [start, start']
      refine heap.order (inMajors (inFront last)) (inMajors (inBack first)) fun same => ?_
      exact (List.nodup_append.mp nodup).2.2 other (List.mem_of_mem_getLast? last) next
        (List.mem_of_mem_head? first) same)
  have kept {other : Major} (member : other ∈ front ++ back) {address : ℕ}
      (inside : other.extent.Contains address)
      (unwritten : other ∈ front.getLast? ∨ other ∈ back.head? → ¬InHeader other.start address) :
      memory address = state.memory address := by
    have outside {next : Major} (isNext : next ∈ front ++ back)
        (beside : next ∈ front.getLast? ∨ next ∈ back.head?) : ¬InHeader next.start address := by
      by_cases same : other = next
      · exact same ▸ unwritten (same ▸ beside)
      · intro here
        have inNext := (heap.laid next (inMajors isNext)).header_inside (.inl here)
        exact heap.separate (inMajors member) (inMajors isNext) same address inside inNext
    apply frame
    · intro nonnull
      obtain ⟨next, last, start⟩ := exists_of_lastOf_ne nonnull
      rw [start]
      exact outside (inFront last) (.inl last)
    · intro nonnull
      obtain ⟨next, first, start⟩ := exists_of_firstOf_ne nonnull
      rw [start]
      exact outside (inBack first) (.inr first)
  have minors {other : Major} (member : other ∈ front ++ back)
      (linked : Linked Minor.start (MinorStored state.memory other.start) 0 other.minors 0) :
      Linked Minor.start (MinorStored memory other.start) 0 other.minors 0 := by
    have laid := heap.laid other (inMajors member)
    refine linked.mono fun minor inOther before after here => ?_
    have bounds := laid.bounds inOther
    refine here.congr (by omega) fun address contained => ?_
    refine kept member (laid.header_inside (.inr ⟨minor, inOther, contained⟩)) fun _ => ?_
    have inside := contained.1
    simp only [Minor.head] at inside
    unfold InHeader
    omega
  have keeps : SameOn (heapBlocks (front ++ back)) state.memory memory := by
    intro address isKept
    have notHeader {other : Major} (member : other ∈ front ++ back) :
        ¬InHeader other.start address :=
      fun here => heap.not_header (inMajors member)
        (isKept.subset (heapBlocks_subset fun _ => inMajors))
        (.inl here)
    apply frame
    · intro nonnull
      obtain ⟨next, last, start⟩ := exists_of_lastOf_ne nonnull
      rw [start]
      exact notHeader (inFront last)
    · intro nonnull
      obtain ⟨next, first, start⟩ := exists_of_firstOf_ne nonnull
      rw [start]
      exact notHeader (inBack first)
  rw [released]
  refine ⟨⟨?_, ?_, ?_, ?_, ?_, ?_, ?_, ?_, ?_, ?_⟩, keeps⟩
  · simp only [heap.root]
    cases front with
    | nil => exact if_pos rfl
    | cons root rest =>
        have different : root.start ≠ major.start := by
          have order := (beside (List.mem_append_left back List.mem_cons_self)).2
          omega
        exact if_neg different
  · have linked := @Linked.splice _ _ _ _ (MajorStored memory) _ _ _ _ _ [] heap.linked ?_ trivial
      ?_ ?_
    · simpa using linked
    · intro other member before after here
      have notNext := not_next_to_cut nodup member
      have isOther : other ∈ front ++ back := by
        rcases member with inFront | inBack
        · exact List.mem_append_left _ (List.dropLast_subset _ inFront)
        · exact List.mem_append_right _ (List.mem_of_mem_tail inBack)
      have laid := heap.laid other (inMajors isOther)
      refine here.congr laid fun address header => kept isOther (laid.header_inside header) ?_
      exact fun next => absurd next (not_or.mpr notNext)
    · intro other last before here
      refine ⟨?_, minors (inFront last) here.minors⟩
      have nonnull : lastOf Major.start 0 front ≠ 0 := by
        rw [lastStart last]
        exact Nat.ne_of_gt (heap.laid other (inMajors (inFront last))).nonnull
      have effect := prevEffect nonnull
      rw [lastStart last, here.header] at effect
      rw [effect]
      funext field
      cases field <;> rfl
    · intro other first after here
      refine ⟨?_, minors (inBack first) here.minors⟩
      have nonnull : firstOf Major.start back 0 ≠ 0 := by
        rw [firstStart first]
        exact Nat.ne_of_gt (heap.laid other (inMajors (inBack first))).nonnull
      have effect := nextEffect nonnull
      rw [firstStart first, here.header] at effect
      rw [effect]
      funext field
      cases field <;> rfl
  · exact fun other member => heap.laid other (inMajors member)
  · exact fun other member => heap.aligned other (inMajors member)
  · exact fun other member => heap.above other (inMajors member)
  · exact heap.apart.sublist (by simp)
  · simp only
    split
    · exact .inl rfl
    · rename_i notHere
      rcases heap.bet with none' | ⟨other, member, bet⟩
      · exact .inl none'
      · refine .inr ⟨other, ?_, bet⟩
        rw [List.append_assoc] at member
        rcases List.mem_append.mp member with inFront | behind
        · exact List.mem_append_left _ inFront
        · rcases List.mem_cons.mp behind with rfl | inBack
          · exact absurd bet.symm notHere
          · exact List.mem_append_right _ inBack
  · have total : bytesAllocated (front ++ [major] ++ back) =
        bytesAllocated (front ++ back) + major.extent.size := by
      simp only [bytesAllocated_append, bytesAllocated_singleton]
      omega
    have bound := bytesAllocated_le heap.laid heap.apart
    simp only [heap.allocated, total] at *
    omega
  · simp only [heap.inuse, bytesInUse_append, bytesInUse_singleton, empty, List.map_nil,
      List.sum_nil, Nat.add_zero]
  · have owns := heap.owns
    have start : major.pageExtent.start * 4096 = major.start := by
      have aligned := heap.aligned major HeapStored.mem_middle
      simp only [Major.pageExtent, pageSize]
      omega
    have freed := @PageSource.free _ source state.source ((front ++ back).map Major.pageExtent)
      major.pageExtent (source.perm owns (by
        rw [← List.map_cons]
        exact (show (front ++ [major] ++ back).Perm (major :: (front ++ back)) by simp).map _))
    rw [start] at freed
    exact freed

/-! ## Giving a block back -/

/-- What is left of a major with the given minors: an empty one is not kept. -/
def leftOf (major : Major) (minors : List Minor) : List Major :=
  if minors = [] then [] else [major.withMinors minors]

theorem HeapStored.betOnMajor (heap : HeapStored source state majors) (member : major ∈ majors) :
    HeapStored source (Liballoc.betOn state major.start) majors ∧
      (Liballoc.betOn state major.start).memory = state.memory := by
  unfold Liballoc.betOn
  split
  · exact ⟨heap.betOn member, rfl⟩
  · exact ⟨heap, rfl⟩

/-- Where the header of a block is, as `free` and `realloc` find it. -/
def headerOf (memory : Memory) (ptr : ℕ) : ℕ := wordSub (unalign memory ptr) minorHeaderSize

theorem minor_fits (laid : major.Laid) (split : major.minors = before ++ [minor] ++ after) :
    minor.start + 56 ≤ 2 ^ 32 := by
  have bounds := laid.bounds (show minor ∈ major.minors by simp [split])
  omega

theorem headerOf_stored {memory : Memory} {block place place' : ℕ}
    (stored : MinorStored memory block place minor place') (fits : minor.start + 56 ≤ 2 ^ 32) :
    headerOf memory minor.pointer = minor.start := by
  rw [Liballoc.headerOf, unalign_pointer stored fits, wordSub_eq _ (Nat.le_add_left _ _),
    Nat.add_sub_cancel]
  simp only [minorHeaderSize]
  omega

theorem HeapStored.storedMinor (heap : HeapStored source state (front ++ [major] ++ back))
    (split : major.minors = before ++ [minor] ++ after) :
    MinorStored state.memory major.start (lastOf Minor.start 0 before) minor
      (firstOf Minor.start after 0) := by
  have minors := heap.stored.minors
  rw [split, List.append_assoc, linked_append] at minors
  exact minors.2.1

/-- **`free`** of a block takes it out of its major, and gives the pages of the major back when it
was the last one in it. -/
theorem free_spec (heap : HeapStored source state (front ++ [major] ++ back))
    (split : major.minors = before ++ [minor] ++ after) :
    HeapStored source (free source.toHooks state minor.pointer)
        (front ++ leftOf major (before ++ after) ++ back) ∧
      SameOn (heapBlocks (front ++ leftOf major (before ++ after) ++ back)) state.memory
        (free source.toHooks state minor.pointer).memory := by
  have laid := heap.laid major HeapStored.mem_middle
  have member : minor ∈ major.minors := by simp [split]
  obtain ⟨above, below, roomy, fits⟩ := laid.bounds member
  have pointer := minor.pointer_bounds
  have stored := heap.storedMinor split
  have place : wordSub (unalign state.memory minor.pointer) minorHeaderSize = minor.start :=
    headerOf_stored stored (minor_fits laid split)
  have magic : minorAt state.memory minor.start .magic = liballocMagic :=
    congrFun stored.header .magic
  have block : minorAt state.memory minor.start .block = major.start :=
    congrFun stored.header .block
  have size : minorAt state.memory minor.start .size = minor.size := congrFun stored.header .size
  have spliced := unlinkMinor_spliced heap.stored laid split
  have laidAfter : (major.withMinors (before ++ [] ++ after)).Laid := by
    rw [List.append_nil]
    refine @Major.Laid.remove _ minor before after ?_
    rw [← split]
    exact laid
  have unlinked := heap.respliced split laidAfter spliced
  have keeps := heap.respliced_keeps split laidAfter spliced
  have total : bytesInUse (front ++ [major.withMinors (before ++ [] ++ after)] ++ back) =
      (state.inuse + (2 ^ 64 - minor.size)) % 2 ^ 64 := by
    have bound := bytesInUse_le heap.laid heap.apart
    have sum : state.inuse =
        bytesInUse (front ++ [major.withMinors (before ++ [] ++ after)] ++ back) + minor.size := by
      rw [heap.inuse]
      simp only [bytesInUse_append, bytesInUse_singleton, Major.withMinors_minors, split,
        List.map_append, List.sum_append, List.map_cons, List.map_nil, List.sum_cons, List.sum_nil]
      omega
    rw [← heap.inuse, sum] at bound
    rw [sum]
    omega
  rw [total, List.append_nil] at unlinked
  unfold free
  rw [if_neg (by omega)]
  simp only [place, magic, ne_eq, not_true_eq_false, if_false, freeMinor, block, size]
  generalize changed : ({ state with
    memory := unlinkMinor state.memory major.start minor.start
    inuse := (state.inuse + (2 ^ 64 - minor.size)) % 2 ^ 64 } : Liballoc Source) =
      next at unlinked ⊢
  have memory : unlinkMinor state.memory major.start minor.start = next.memory := by rw [← changed]
  rw [memory] at keeps ⊢
  have first : majorAt next.memory major.start .first = firstOf Minor.start (before ++ after) 0 :=
    congrFun unlinked.stored.header .first
  rw [first]
  by_cases empty : before ++ after = []
  · rw [empty] at unlinked keeps
    obtain ⟨released, kept⟩ := releaseMajor_spec unlinked rfl
    rw [leftOf, if_pos empty, List.append_nil, empty, firstOf_nil, if_pos rfl]
    refine ⟨released, (keeps.subset ?_).trans kept⟩
    exact heapBlocks_subset fun other isOther => HeapStored.mem_beside isOther
  · obtain ⟨other, rest, isFirst⟩ := List.exists_cons_of_ne_nil empty
    have nonnull : ¬firstOf Minor.start (before ++ after) 0 = 0 := by
      have inMajor : other ∈ (major.withMinors (before ++ [] ++ after)).minors := by
        simp [isFirst]
      have bounds := laidAfter.bounds inMajor
      rw [isFirst, firstOf_cons]
      simp only [Major.withMinors_start] at bounds
      omega
    rw [leftOf, if_neg empty, if_neg nonnull]
    obtain ⟨bet, same⟩ := unlinked.betOnMajor HeapStored.mem_middle
    rw [Major.withMinors_start] at bet same
    rw [same]
    exact ⟨bet, keeps⟩

end Liballoc

end CatchOS.Mmu
