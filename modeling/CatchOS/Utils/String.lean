import CatchOS.Lib.Probe
import CatchOS.Machine.Memory
import Mathlib.Data.Nat.Find

/-!
# Comparing and searching strings

`_strcmp`, `_strncmp` and `_strnstr` of `string.c`, as programs that read the memory byte by
byte. The second string is given by its bytes, without the final zero, and has no zero among
them.

Two strings compare equal exactly if the bytes are there (`run_strncmp_eq_zero`). The search
returns the first place where they are, or `NULL` if there is none, and stays inside the window
(`strnstr_searches`). Up to there it reads every byte: as long as nothing was found it comes to
every place of the window (`mem_reads_strnstrLoop`).
-/

set_option autoImplicit false

namespace CatchOS.Utils

open CatchOS.Lib

/-! ## The functions -/

/-- `_strncmp` of the string at `cs` and a literal. -/
def strncmp : ℕ → List Byte → ℕ → Probe ℕ Byte ℤ
  | _, _, 0 => pure 0
  | cs, ct, count + 1 => do
      let c1 ← Probe.ask (offset cs 0)
      if c1 ≠ ct.headD 0 then pure (if c1 < ct.headD 0 then -1 else 1)
      else if c1 = 0 then pure 0
      else strncmp (offset cs 1) ct.tail count

/-- `_strcmp` of the string at `cs` and a string that is given without its final
zero. -/
def strcmp (memory : Memory) (cs : ℕ) : List Byte → ℤ
  | [] => if memory (offset cs 0) ≠ 0 then 1 else 0
  | c :: ct =>
      if memory (offset cs 0) ≠ c then
        if memory (offset cs 0) < c then -1 else 1
      else
        strcmp memory (offset cs 1) ct

/-- `_strcmp` with the bytes that it reads of the string at `cs`. -/
def strcmpProgram (cs : ℕ) : List Byte → Probe ℕ Byte ℤ
  | [] => do
      let c1 ← Probe.ask (offset cs 0)
      pure (if c1 ≠ 0 then 1 else 0)
  | c :: ct => do
      let c1 ← Probe.ask (offset cs 0)
      if c1 ≠ c then pure (if c1 < c then -1 else 1)
      else strcmpProgram (offset cs 1) ct

/-- The loop of `_strnstr`, for a literal that is not empty. -/
def strnstrLoop (s2 : List Byte) : ℕ → ℕ → Probe ℕ Byte ℕ
  | 0, _ => pure 0
  | len + 1, s1 =>
      if s2.length ≤ len + 1 then do
        let order ← strncmp s1 s2 s2.length
        if order = 0 then pure s1 else strnstrLoop s2 len (offset s1 1)
      else pure 0

/-- `_strnstr`, with `NULL` as zero. -/
def strnstr (s1 : ℕ) (s2 : List Byte) (len : ℕ) : Probe ℕ Byte ℕ :=
  if s2.length = 0 then pure s1 else strnstrLoop s2 len s1

/-! ## Comparing -/

/-- The literal is at an address. -/
def TextAt (memory : Memory) (text : List Byte) (address : ℕ) : Prop :=
  readBytes memory address text.length = text

instance (memory : Memory) (text : List Byte) (address : ℕ) :
    Decidable (TextAt memory text address) :=
  inferInstanceAs (Decidable (_ = _))

section Compare

variable {memory : Memory} {cs : ℕ} {text : List Byte}

theorem textAt_cons {c : Byte} : TextAt memory (c :: text) cs ↔
    memory (offset cs 0) = c ∧ TextAt memory text (offset cs 1) := by
  rw [TextAt, List.length_cons, readBytes_succ, List.cons.injEq]
  rfl

/-- **Equal** exactly if the literal is there. -/
theorem run_strncmp_eq_zero (nonzero : ∀ c ∈ text, c ≠ 0) :
    (strncmp cs text text.length).run memory = 0 ↔ TextAt memory text cs := by
  induction text generalizing cs with
  | nil => exact iff_of_true rfl rfl
  | cons c text ih =>
      rw [List.forall_mem_cons] at nonzero
      rw [List.length_cons, strncmp, Probe.run_bind, Probe.run_ask, textAt_cons, List.headD_cons,
        List.tail_cons]
      split
      case isTrue different =>
        refine iff_of_false ?_ fun both => different both.1
        rw [Probe.run_pure]
        split <;> decide
      case isFalse same =>
        rw [ne_eq, not_not] at same
        rw [if_neg (same ▸ nonzero.1), ih nonzero.2]
        exact ⟨fun rest => ⟨same, rest⟩, And.right⟩

/-- No byte behind the count is read. -/
theorem reads_strncmp {count place : ℕ}
    (read : place ∈ (strncmp cs text count).reads memory) : ∃ i < count, place = offset cs i := by
  induction count generalizing cs text with
  | zero => cases read
  | succ count ih =>
      rw [strncmp, Probe.reads_bind, Probe.reads_ask, Probe.run_ask, List.mem_append,
        List.mem_singleton] at read
      rcases read with first | later
      · exact ⟨0, Nat.succ_pos count, first⟩
      · split at later
        · cases later
        · split at later
          · cases later
          · obtain ⟨i, bound, isPlace⟩ := ih later
            rw [offset_offset, Nat.add_comm] at isPlace
            exact ⟨i + 1, Nat.succ_lt_succ bound, isPlace⟩

theorem first_mem_reads_strncmp {count : ℕ} (positive : 0 < count) :
    offset cs 0 ∈ (strncmp cs text count).reads memory := by
  cases count with
  | zero => cases positive
  | succ count => exact List.mem_cons_self

/-- Where the literal is, all of its bytes are read. -/
theorem mem_reads_strncmp (nonzero : ∀ c ∈ text, c ≠ 0) (isThere : TextAt memory text cs) {i : ℕ}
    (bound : i < text.length) :
    offset cs i ∈ (strncmp cs text text.length).reads memory := by
  induction text generalizing cs i with
  | nil => cases bound
  | cons c text ih =>
      rw [List.forall_mem_cons] at nonzero
      obtain ⟨same, rest⟩ := textAt_cons.mp isThere
      rw [List.length_cons, strncmp, Probe.reads_bind, Probe.reads_ask, Probe.run_ask,
        List.headD_cons, if_neg (not_not.mpr same), if_neg (same ▸ nonzero.1), List.tail_cons,
        List.singleton_append]
      cases i with
      | zero => exact List.mem_cons_self
      | succ i =>
          have later := ih nonzero.2 rest (Nat.lt_of_succ_lt_succ bound)
          rw [offset_offset, Nat.add_comm] at later
          exact List.mem_cons_of_mem _ later

/-- The string and its final zero are at the address. -/
def StringAt (memory : Memory) (address : ℕ) (string : List Byte) : Prop :=
  readBytes memory address (string.length + 1) = string ++ [0]

theorem stringAt_nil : StringAt memory cs [] ↔ memory (offset cs 0) = 0 := by
  rw [StringAt, readBytes_succ, List.nil_append, List.cons.injEq]
  exact and_iff_left rfl

theorem stringAt_cons {c : Byte} : StringAt memory cs (c :: text) ↔
    memory (offset cs 0) = c ∧ StringAt memory (offset cs 1) text := by
  rw [StringAt, List.length_cons, readBytes_succ, List.cons_append, List.cons.injEq]
  rfl

/-- The program computes what the function does. -/
theorem run_strcmpProgram (memory : Memory) (cs : ℕ) (ct : List Byte) :
    (strcmpProgram cs ct).run memory = strcmp memory cs ct := by
  induction ct generalizing cs with
  | nil => rfl
  | cons c ct ih =>
      rw [strcmpProgram, Probe.run_ask_bind, Probe.run_ite, Probe.run_pure, ih, strcmp]

end Compare

/-! ## Searching -/

section Search

variable {memory : Memory} {text : List Byte} {len s1 : ℕ}

/-- One turn of the loop. -/
theorem strnstrLoop_turn (nonzero : ∀ c ∈ text, c ≠ 0) (room : text.length ≤ len + 1) :
    (TextAt memory text s1 → (strnstrLoop text (len + 1) s1).run memory = s1 ∧
      (strnstrLoop text (len + 1) s1).reads memory =
        (strncmp s1 text text.length).reads memory) ∧
    (¬TextAt memory text s1 → (strnstrLoop text (len + 1) s1).run memory =
        (strnstrLoop text len (offset s1 1)).run memory ∧
      (strnstrLoop text (len + 1) s1).reads memory =
        (strncmp s1 text text.length).reads memory ++
          (strnstrLoop text len (offset s1 1)).reads memory) := by
  rw [strnstrLoop, if_pos room, Probe.run_bind, Probe.reads_bind]
  refine ⟨fun isThere => ?_, fun notThere => ?_⟩
  · rw [if_pos ((run_strncmp_eq_zero nonzero).mpr isThere), Probe.run_pure, Probe.reads_pure,
      List.append_nil]
    exact ⟨rfl, rfl⟩
  · rw [if_neg fun equal => notThere ((run_strncmp_eq_zero nonzero).mp equal)]
    exact ⟨rfl, rfl⟩

theorem offset_zero (word : s1 < 2 ^ 32) : offset s1 0 = s1 := offset_eq word

theorem textAt_zero (word : s1 < 2 ^ 32) :
    TextAt memory text (offset s1 0) ↔ TextAt memory text s1 := by
  rw [offset_zero word]

/-- **The search returns the first place**, if it is in the window, and reads nothing behind
the literal there. -/
theorem strnstrLoop_found (nonzero : ∀ c ∈ text, c ≠ 0) (nonempty : 0 < text.length)
    (word : s1 < 2 ^ 32) {i : ℕ} (room : i + text.length ≤ len)
    (isThere : TextAt memory text (offset s1 i))
    (first : ∀ j < i, ¬TextAt memory text (offset s1 j)) :
    (strnstrLoop text len s1).run memory = offset s1 i ∧
    ∀ place ∈ (strnstrLoop text len s1).reads memory,
      ∃ k < i + text.length, place = offset s1 k := by
  induction len generalizing s1 i with
  | zero => omega
  | succ len ih =>
      obtain ⟨found, goOn⟩ := @strnstrLoop_turn memory text len s1 nonzero (by omega)
      cases i with
      | zero =>
          obtain ⟨result, reads⟩ := found ((textAt_zero word).mp isThere)
          refine ⟨result.trans (offset_zero word).symm, fun place read => ?_⟩
          rw [reads] at read
          rw [Nat.zero_add]
          exact reads_strncmp read
      | succ i =>
          have notHere := first 0 (Nat.succ_pos i)
          rw [textAt_zero word] at notHere
          obtain ⟨result, reads⟩ := goOn notHere
          have next (j : ℕ) : offset (offset s1 1) j = offset s1 (j + 1) := by
            rw [offset_offset, Nat.add_comm]
          obtain ⟨restResult, restReads⟩ := @ih (offset s1 1) (offset_lt _ _) i (by omega)
            (by rwa [next]) fun j bound => by
              rw [next]
              exact first (j + 1) (Nat.succ_lt_succ bound)
          refine ⟨by rw [result, restResult, next], fun place read => ?_⟩
          rw [reads, List.mem_append] at read
          rcases read with here | later
          · obtain ⟨k, bound, isPlace⟩ := reads_strncmp here
            exact ⟨k, by omega, isPlace⟩
          · obtain ⟨k, bound, isPlace⟩ := restReads place later
            exact ⟨k + 1, by omega, by rw [isPlace, next]⟩

/-- **The search comes to every place** of the window before which it has found nothing. -/
theorem mem_reads_strnstrLoop (nonzero : ∀ c ∈ text, c ≠ 0) (nonempty : 0 < text.length)
    (word : s1 < 2 ^ 32) {k : ℕ} (room : k + text.length ≤ len)
    (nothing : ∀ j, j + text.length ≤ k → ¬TextAt memory text (offset s1 j)) :
    offset s1 k ∈ (strnstrLoop text len s1).reads memory := by
  induction len generalizing s1 k with
  | zero => omega
  | succ len ih =>
      obtain ⟨found, goOn⟩ := @strnstrLoop_turn memory text len s1 nonzero (by omega)
      by_cases isThere : TextAt memory text s1
      · -- the literal is here, so it reaches beyond the place
        have reaches : k < text.length := by
          by_contra beyond
          exact nothing 0 (by omega) ((textAt_zero word).mpr isThere)
        rw [(found isThere).2]
        exact mem_reads_strncmp nonzero isThere reaches
      · rw [(goOn isThere).2, List.mem_append]
        cases k with
        | zero => exact .inl (first_mem_reads_strncmp nonempty)
        | succ k =>
            have next (j : ℕ) : offset (offset s1 1) j = offset s1 (j + 1) := by
              rw [offset_offset, Nat.add_comm]
            rw [← next]
            refine .inr (ih (offset_lt _ _) (by omega) fun j bound => ?_)
            rw [next]
            exact nothing (j + 1) (by omega)

/-- Without the literal in the window the search returns `NULL`. -/
theorem strnstrLoop_missing (nonzero : ∀ c ∈ text, c ≠ 0) (word : s1 < 2 ^ 32)
    (missing : ∀ i, i + text.length ≤ len → ¬TextAt memory text (offset s1 i)) :
    (strnstrLoop text len s1).run memory = 0 := by
  induction len generalizing s1 with
  | zero => rfl
  | succ len ih =>
      by_cases room : text.length ≤ len + 1
      · have notHere := missing 0 (by rwa [Nat.zero_add])
        rw [textAt_zero word] at notHere
        rw [((strnstrLoop_turn nonzero room).2 notHere).1]
        refine ih (offset_lt _ _) fun i bound => ?_
        rw [offset_offset, Nat.add_comm]
        exact missing (i + 1) (by omega)
      · rw [strnstrLoop, if_neg room, Probe.run_pure]

/-- **No byte behind the window is read.** -/
theorem reads_strnstrLoop (nonzero : ∀ c ∈ text, c ≠ 0) {place : ℕ}
    (read : place ∈ (strnstrLoop text len s1).reads memory) : ∃ k < len, place = offset s1 k := by
  induction len generalizing s1 with
  | zero => cases read
  | succ len ih =>
      by_cases room : text.length ≤ len + 1
      · obtain ⟨found, goOn⟩ := @strnstrLoop_turn memory text len s1 nonzero room
        have here : place ∈ (strncmp s1 text text.length).reads memory →
            ∃ k < len + 1, place = offset s1 k := by
          intro compared
          obtain ⟨k, bound, isPlace⟩ := reads_strncmp compared
          exact ⟨k, Nat.lt_of_lt_of_le bound room, isPlace⟩
        by_cases isThere : TextAt memory text s1
        · rw [(found isThere).2] at read
          exact here read
        · rw [(goOn isThere).2, List.mem_append] at read
          rcases read with compared | later
          · exact here compared
          · obtain ⟨k, bound, isPlace⟩ := ih later
            refine ⟨k + 1, Nat.succ_lt_succ bound, ?_⟩
            rw [isPlace, offset_offset, Nat.add_comm]
      · rw [strnstrLoop, if_neg room, Probe.reads_pure] at read
        cases read

/-- The text is inside the window of `len` bytes at `s1`, from its byte `i` on. -/
def MatchAt (memory : Memory) (text : List Byte) (s1 len i : ℕ) : Prop :=
  i + text.length ≤ len ∧ TextAt memory text (s1 + i)

instance (memory : Memory) (text : List Byte) (s1 len i : ℕ) :
    Decidable (MatchAt memory text s1 len i) :=
  inferInstanceAs (Decidable (_ ∧ _))

/-- What the search for a text in a window has to do. -/
structure Searches (memory : Memory) (text : List Byte) (s1 len : ℕ)
    (program : Probe ℕ Byte ℕ) : Prop where
  first : ∀ i, MatchAt memory text s1 len i → (∀ j < i, ¬MatchAt memory text s1 len j) →
    program.run memory = s1 + i
  missing : program.run memory = 0 ↔ ∀ i, ¬MatchAt memory text s1 len i
  inside : ∀ place ∈ program.reads memory, s1 ≤ place ∧ place < s1 + len

/-- **`_strnstr` searches the window.** The window is that of an array: it does not begin at
`NULL` and does not wrap. -/
theorem strnstr_searches (nonempty : text ≠ []) (nonzero : ∀ c ∈ text, c ≠ 0)
    (notNull : s1 ≠ 0) (fits : s1 + len ≤ 2 ^ 32) :
    Searches memory text s1 len (strnstr s1 text len) := by
  have positive : 0 < text.length := List.length_pos_iff.mpr nonempty
  have isLoop : strnstr s1 text len = strnstrLoop text len s1 := if_neg (Nat.ne_of_gt positive)
  have place {i : ℕ} (bound : i < len) : offset s1 i = s1 + i := offset_eq (by omega)
  have found : ∀ i, MatchAt memory text s1 len i → (∀ j < i, ¬MatchAt memory text s1 len j) →
      (strnstrLoop text len s1).run memory = s1 + i := by
    rintro i ⟨room, isThere⟩ earlier
    rw [← place (by omega)] at isThere ⊢
    refine (strnstrLoop_found nonzero positive (by omega) room isThere fun j bound there => ?_).1
    rw [place (by omega)] at there
    exact earlier j bound ⟨by omega, there⟩
  rw [isLoop]
  refine ⟨found, ⟨fun isNull i isMatch => ?_, fun none => ?_⟩, fun a read => ?_⟩
  · -- the first match is not at `NULL`
    have exists_match : ∃ i, MatchAt memory text s1 len i := ⟨i, isMatch⟩
    have result := found _ (Nat.find_spec exists_match) fun j => Nat.find_min exists_match
    omega
  · by_cases window : s1 < 2 ^ 32
    · refine strnstrLoop_missing nonzero window fun i room isThere => none i ⟨room, ?_⟩
      rwa [place (by omega)] at isThere
    · have noBytes : len = 0 := by omega
      rw [noBytes]
      rfl
  · obtain ⟨k, bound, isPlace⟩ := reads_strnstrLoop nonzero read
    rw [place bound] at isPlace
    omega

theorem strnstr_searches_counting :
    Searches (fun address => BitVec.ofNat 8 (address % 3)) [1, 2] 6 8 (strnstr 6 [1, 2] 8) :=
  strnstr_searches (by decide) (by decide) (by decide) (by decide)

end Search

end CatchOS.Utils
