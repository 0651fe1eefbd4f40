import CatchOS.Lib.Written
import CatchOS.Utils.Debug

/-!
# The buffer of `_snprintf`

`_snprintf` (`printf.c`) with its pointer `buf`, its count `len` and every byte that it writes in
memory. Each of the five kinds of pieces moves the pointer and the count on its own, and `%d`, `%x`
and `%s` clip what they copy. The count has 32 bits; `wrapped` says whether a sum or a difference
of it went over.

The walk over the format is the one of `formatProgram`, and the bytes are those of
`snprintfFormatter`: as long as the function has not returned, `buf` is behind what was written and
there is room for another byte (`Running`). So the bytes that are written are the first ones of the
buffer, in their order, and not more than `maxlen` (`snprintf_bounded`).
-/

set_option autoImplicit false

namespace CatchOS.Utils

open CatchOS.Lib

variable {memory : Memory}

/-! ## The function -/

/-- The memory and the variables of `_snprintf`. -/
structure Output (memory : Memory) where
  state : Written memory
  buf : ℕ
  len : ℕ
  wrapped : Bool

/-- `_memcpy`, one byte a turn. -/
def memcpyLoop (state : Written memory) (dst : ℕ) (src : List Byte) : ℕ → Written memory
  | 0 => state
  | len + 1 => (memcpyLoop state dst src len).put (offset dst len) (src.getD len 0)

/-- How much of a string of `l` bytes is copied. -/
def clipped (maxlen len l : ℕ) : ℕ :=
  if maxlen < (len + l) % 2 ^ 32 then (maxlen + (2 ^ 32 - len)) % 2 ^ 32 else l

namespace Output

/-- `*buf++ = b; len++`. -/
def put (output : Output memory) (b : Byte) : Output memory where
  state := output.state.put (offset output.buf 0) b
  buf := offset output.buf 1
  len := (output.len + 1) % 2 ^ 32
  wrapped := output.wrapped || decide (2 ^ 32 ≤ output.len + 1)

/-- The `_memcpy` of as much of `s` as there is room for, and `len += l`; `buf` moves unless the
function returns. -/
def copy (maxlen : ℕ) (output : Output memory) (s : List Byte) : Output memory :=
  let strlen := s.length % 2 ^ 32
  let l := clipped maxlen output.len strlen
  { state := memcpyLoop output.state output.buf s l
    buf := if maxlen ≤ (output.len + l) % 2 ^ 32 then output.buf else offset output.buf l
    len := (output.len + l) % 2 ^ 32
    wrapped := output.wrapped || decide (2 ^ 32 ≤ s.length) ||
      decide (2 ^ 32 ≤ output.len + strlen) ||
      decide (maxlen < (output.len + strlen) % 2 ^ 32 ∧ maxlen < output.len) ||
      decide (2 ^ 32 ≤ output.len + l) }

/-- Before the first byte. -/
def start (memory : Memory) (buf : ℕ) : Output memory := ⟨.start memory, buf, 0, false⟩

end Output

/-- The directives of `_snprintf`. -/
def bufferDirective (maxlen : ℕ) (directive : Byte) (va : Va (Output memory)) :
    Va (Output memory) × Bool :=
  let word := va.arg.word
  let printed (output : Output memory) := (va.fetched output, decide (maxlen ≤ output.len))
  if directive = ascii 'c' then printed (va.sink.put (word.setWidth 8))
  else if directive = ascii 'd' then
    if word.toInt < 0 then
      let output := va.sink.put (ascii '-')
      if maxlen ≤ output.len then (va.fetched output, true)
      else printed (output.copy maxlen (digitString (-word).toNat 10))
    else printed (va.sink.copy maxlen (digitString word.toNat 10))
  else if directive = ascii 'x' then printed (va.sink.copy maxlen (digitString word.toNat 16))
  else if directive = ascii 's' then printed (va.sink.copy maxlen va.arg.string)
  else (va, false)

/-- `_snprintf` with its buffer. -/
def bufferFormatter (maxlen : ℕ) : Formatter (Output memory) where
  literal byte va := (⟨va.sink.put byte, va.args⟩, (va.sink.put byte).len = maxlen)
  behind next := 0 ≤ next.toInt
  directive := bufferDirective maxlen

/-! ## The bytes of the buffer -/

/-- The first bytes of the buffer were written, in their order, and nothing else. -/
structure Stored (buf : ℕ) (state : Written memory) (out : List Byte) : Prop where
  writes : state.writes = (List.range out.length).map (offset buf)
  content : readBytes state.memory buf out.length = out

section Stored

variable {buf : ℕ} {state : Written memory} {out : List Byte}

theorem stored_start : Stored buf (.start memory) [] := ⟨rfl, rfl⟩

theorem Stored.put (stored : Stored buf state out) (fits : out.length < 2 ^ 32) (b : Byte) :
    Stored buf (state.put (offset buf out.length) b) (out ++ [b]) := by
  constructor
  · rw [List.length_append, List.length_singleton, List.range_succ, List.map_append,
      List.map_singleton, ← stored.writes]
    rfl
  · rw [List.length_append, List.length_singleton, readBytes_concat, Written.memory_put_self]
    refine congrArg (· ++ [b]) ((readBytes_congr fun i bound => ?_).trans stored.content)
    refine Written.memory_put_of_ne ?_
    rw [ne_eq, offset_inj (bound.trans fits) fits]
    exact bound.ne

/-- A copy puts one byte after the other. -/
theorem Stored.memcpy (stored : Stored buf state out) {dst : ℕ} {s : List Byte} {l : ℕ}
    (next : ∀ i, offset dst i = offset buf (out.length + i)) (part : l ≤ s.length)
    (fits : out.length + l ≤ 2 ^ 32) :
    Stored buf (memcpyLoop state dst s l) (out ++ s.take l) := by
  induction l with
  | zero =>
      rw [List.take_zero, List.append_nil]
      exact stored
  | succ l ih =>
      have before := ih (Nat.le_of_succ_le part) (Nat.le_of_succ_le fits)
      have length : (out ++ s.take l).length = out.length + l := by
        rw [List.length_append, List.length_take_of_le (Nat.le_of_succ_le part)]
      have after := before.put (by rw [length]; exact fits) (s.getD l 0)
      rw [length, List.append_assoc, List.getD_eq_getElem s 0 part,
        List.take_append_getElem part] at after
      rw [memcpyLoop, next, List.getD_eq_getElem s 0 part]
      exact after

end Stored

/-! ## One piece -/

/-- The function has printed what the printer has, and nothing wrapped. -/
structure Tracks (buf maxlen : ℕ) (output : Output memory) (printer : Printer) : Prop where
  printed : printer.len = printer.out.length
  len : output.len = printer.out.length
  bound : printer.out.length ≤ maxlen
  stored : Stored buf output.state printer.out
  exact : output.wrapped = false

/-- It has not returned: there is room, and `buf` is behind what was printed. -/
structure Running (buf maxlen : ℕ) (output : Output memory) (printer : Printer) : Prop
    extends Tracks buf maxlen output printer where
  room : printer.out.length < maxlen
  next : ∀ i, offset output.buf i = offset buf (printer.out.length + i)

section Pieces

variable {buf maxlen : ℕ} {output : Output memory} {printer : Printer}

/-- Unless the buffer is full, the function goes on behind one byte. -/
theorem Running.put (running : Running buf maxlen output printer) (word : maxlen < 2 ^ 31)
    (b : Byte) :
    Tracks buf maxlen (output.put b) (printer.put b) ∧
      ((output.put b).len ≠ maxlen → Running buf maxlen (output.put b) (printer.put b)) := by
  obtain ⟨⟨printed, len, bound, stored, isExact⟩, room, next⟩ := running
  have length : (printer.out ++ [b]).length = printer.out.length + 1 := List.length_append
  have noWrap : (printer.out.length + 1) % 2 ^ 32 = printer.out.length + 1 :=
    Nat.mod_eq_of_lt (by omega)
  have isLen : (output.put b).len = printer.out.length + 1 := by
    rw [Output.put, len, noWrap]
  have tracks : Tracks buf maxlen (output.put b) (printer.put b) := by
    refine ⟨?_, ?_, ?_, ?_, ?_⟩
    · rw [Printer.put, printed, length, noWrap]
    · rw [isLen, Printer.put, length]
    · rw [Printer.put, length]
      exact room
    · rw [Output.put, next]
      exact stored.put (by omega) b
    · rw [Output.put, isExact, len, Bool.false_or]
      exact decide_eq_false (by omega)
  refine ⟨tracks, fun unfilled => ⟨tracks, ?_, ?_⟩⟩
  · rw [isLen] at unfilled
    rw [Printer.put, length]
    exact lt_of_le_of_ne room unfilled
  · intro i
    change offset (offset output.buf 1) i = _
    rw [offset_offset, next, Printer.put, length, Nat.add_assoc]

/-- A string is clipped to the room that is left. -/
theorem clipped_eq (running : Running buf maxlen output printer) (word : maxlen < 2 ^ 31)
    {l : ℕ} (short : l < 2 ^ 31) :
    clipped maxlen output.len l = min l (maxlen - printer.out.length) := by
  have room := running.room
  rw [clipped, running.len, Nat.mod_eq_of_lt (by omega)]
  split <;> omega

/-- Unless the buffer is full, the function goes on behind a string. -/
theorem Running.copy (running : Running buf maxlen output printer) (word : maxlen < 2 ^ 31)
    {s : List Byte} (short : s.length < 2 ^ 31) :
    Tracks buf maxlen (output.copy maxlen s) (printer.copy maxlen s) ∧
      (¬maxlen ≤ (output.copy maxlen s).len →
        Running buf maxlen (output.copy maxlen s) (printer.copy maxlen s)) := by
  obtain ⟨l, isClipped⟩ : ∃ l, clipped maxlen output.len s.length = l := ⟨_, rfl⟩
  have least : l = min s.length (maxlen - printer.out.length) :=
    isClipped.symm.trans (clipped_eq running word short)
  obtain ⟨⟨printed, len, bound, stored, isExact⟩, room, next⟩ := running
  rw [len] at isClipped
  have part : l ≤ s.length := least ▸ min_le_left _ _
  have within : printer.out.length + l ≤ maxlen := by omega
  have strlen : s.length % 2 ^ 32 = s.length := Nat.mod_eq_of_lt (by omega)
  have noWrap : (printer.out.length + l) % 2 ^ 32 = printer.out.length + l :=
    Nat.mod_eq_of_lt (by omega)
  have isPrinter : printer.copy maxlen s = ⟨printer.out ++ s.take l, printer.out.length + l⟩ := by
    rw [clipped] at isClipped
    unfold Printer.copy
    simp only [strlen, printed, isClipped, noWrap]
  have length : (printer.out ++ s.take l).length = printer.out.length + l := by
    rw [List.length_append, List.length_take_of_le part]
  have isLen : (output.copy maxlen s).len = printer.out.length + l := by
    simp only [Output.copy, strlen, isClipped, len, noWrap]
  have tracks : Tracks buf maxlen (output.copy maxlen s) (printer.copy maxlen s) := by
    rw [isPrinter]
    refine ⟨length.symm, isLen.trans length.symm, length.trans_le within, ?_, ?_⟩
    · simp only [Output.copy, strlen, len, isClipped]
      exact stored.memcpy next part (by omega)
    · simp only [Output.copy, strlen, isClipped, isExact, len, Bool.false_or, Bool.or_eq_false_iff,
        decide_eq_false_iff_not]
      omega
  refine ⟨tracks, fun unfilled => ⟨tracks, ?_, ?_⟩⟩
  · rw [isLen, not_le] at unfilled
    rw [isPrinter, length]
    exact unfilled
  · intro i
    rw [isLen] at unfilled
    simp only [Output.copy, strlen, isClipped, len, noWrap]
    rw [if_neg unfilled, offset_offset, next, isPrinter, length, Nat.add_assoc]

end Pieces

/-! ## The walk over the format -/

/-- Both functions have done the same: they returned both, or they go on with the same
arguments. -/
structure Agrees (buf maxlen : ℕ) (after : Va (Output memory) × Bool)
    (printed : Va Printer × Bool) : Prop where
  returns : after.2 = printed.2
  args : after.1.args = printed.1.args
  tracks : Tracks buf maxlen after.1.sink printed.1.sink
  goesOn : after.2 = false → Running buf maxlen after.1.sink printed.1.sink

section Walk

variable {buf maxlen : ℕ} {va : Va (Output memory)} {printed : Va Printer}

/-- After an argument was fetched. -/
theorem agrees_fetched (args : va.args = printed.args) {output : Output memory} {printer : Printer}
    (both : Tracks buf maxlen output printer ∧
      (¬maxlen ≤ output.len → Running buf maxlen output printer)) :
    Agrees buf maxlen (va.fetched output, decide (maxlen ≤ output.len))
      (printed.fetched printer, decide (maxlen ≤ printer.len)) := by
  obtain ⟨tracks, goesOn⟩ := both
  refine ⟨?_, ?_, tracks, fun unfilled => goesOn (of_decide_eq_false unfilled)⟩
  · rw [tracks.len, tracks.printed]
  · funext i
    exact congrFun args (i + 1)

theorem agrees_literal (running : Running buf maxlen va.sink printed.sink)
    (args : va.args = printed.args) (word : maxlen < 2 ^ 31) (byte : Byte) :
    Agrees buf maxlen ((bufferFormatter maxlen).literal byte va)
      ((snprintfFormatter maxlen).literal byte printed) := by
  obtain ⟨tracks, goesOn⟩ := running.put word byte
  refine ⟨?_, args, tracks, fun unfilled => goesOn (of_decide_eq_false unfilled)⟩
  change decide ((va.sink.put byte).len = maxlen) = decide ((printed.sink.put byte).len = maxlen)
  rw [tracks.len, tracks.printed]

/-- The numerals that are printed are short. -/
theorem length_digitString {num base : ℕ} (atLeastTwo : 1 < base) (small : base ≤ 16)
    (word : num < 2 ^ 32) : (digitString num base).length < 2 ^ 31 := by
  rw [digitString, intToStrStatic_eq atLeastTwo small word, Option.getD_some]
  exact (numeral_length atLeastTwo small word).trans_lt (by decide)

theorem agrees_directive (running : Running buf maxlen va.sink printed.sink)
    (args : va.args = printed.args) (word : maxlen < 2 ^ 31)
    (strings : ∀ i, (va.args i).string.length < 2 ^ 31) (directive : Byte) :
    Agrees buf maxlen (bufferDirective maxlen directive va)
      (snprintfDirective maxlen directive printed) := by
  have fetched : printed.arg = va.arg := (congrFun args 0).symm
  have number {sink : Output memory} {printer : Printer} {num base : ℕ}
      (goesOn : Running buf maxlen sink printer) (atLeastTwo : 1 < base) (small : base ≤ 16)
      (below : num < 2 ^ 32) := agrees_fetched args
    (goesOn.copy word (length_digitString atLeastTwo small below))
  have putByte (byte : Byte) := running.put word byte
  unfold bufferDirective snprintfDirective
  rw [fetched]
  dsimp only
  by_cases isC : directive = ascii 'c'
  · rw [if_pos isC, if_pos isC]
    obtain ⟨tracks, goesOn⟩ := putByte (va.arg.word.setWidth 8)
    exact agrees_fetched args ⟨tracks, fun unfilled => goesOn fun full => unfilled full.ge⟩
  rw [if_neg isC, if_neg isC]
  by_cases isD : directive = ascii 'd'
  · rw [if_pos isD, if_pos isD]
    by_cases negative : va.arg.word.toInt < 0
    · rw [if_pos negative, if_pos negative]
      obtain ⟨tracks, goesOn⟩ := putByte (ascii '-')
      have sameLen : (printed.sink.put (ascii '-')).len = (va.sink.put (ascii '-')).len :=
        tracks.printed.trans tracks.len.symm
      rw [sameLen]
      by_cases full : maxlen ≤ (va.sink.put (ascii '-')).len
      · rw [if_pos full, if_pos full]
        refine ⟨rfl, ?_, tracks, fun isFalse => absurd isFalse (Bool.noConfusion ·)⟩
        funext i
        exact congrFun args (i + 1)
      · rw [if_neg full, if_neg full]
        exact number (goesOn fun isFull => full isFull.ge) (by decide) (by decide)
          (-va.arg.word).isLt
    · rw [if_neg negative, if_neg negative]
      exact number running (by decide) (by decide) va.arg.word.isLt
  rw [if_neg isD, if_neg isD]
  by_cases isX : directive = ascii 'x'
  · rw [if_pos isX, if_pos isX]
    exact number running (by decide) (by decide) va.arg.word.isLt
  rw [if_neg isX, if_neg isX]
  by_cases isS : directive = ascii 's'
  · rw [if_pos isS, if_pos isS]
    exact agrees_fetched args (running.copy word (strings 0))
  rw [if_neg isS, if_neg isS]
  exact ⟨rfl, args, running.toTracks, fun _ => running⟩

/-- The arguments that are left are some of those that were there. -/
theorem bufferDirective_args (strings : ∀ i, (va.args i).string.length < 2 ^ 31)
    (directive : Byte) (i : ℕ) :
    ((bufferDirective maxlen directive va).1.args i).string.length < 2 ^ 31 := by
  unfold bufferDirective
  dsimp only
  repeat' split
  all_goals first | exact strings (i + 1) | exact strings i

variable {text : Memory}

/-- **The walk keeps both alike**, by induction on its turns. -/
theorem tracks_formatLoop (running : Running buf maxlen va.sink printed.sink)
    (args : va.args = printed.args) (word : maxlen < 2 ^ 31)
    (strings : ∀ i, (va.args i).string.length < 2 ^ 31) (turns place : ℕ) :
    Tracks buf maxlen
      ((formatLoop (bufferFormatter maxlen) turns place va).run text).sink
      ((formatLoop (snprintfFormatter maxlen) turns place printed).run text).sink := by
  induction turns generalizing place va printed with
  | zero => exact running.toTracks
  | succ turns ih =>
      have sameBehind : (@bufferFormatter memory maxlen).behind =
          (snprintfFormatter maxlen).behind :=
        rfl
      by_cases literal : text place ≠ ascii '%'
      · have agrees := agrees_literal running args word (text place)
        rw [run_literal literal, run_literal literal, ← agrees.returns, sameBehind]
        by_cases full : ((bufferFormatter maxlen).literal (text place) va).2 = true
        · rw [if_pos full, if_pos full]
          exact agrees.tracks
        rw [if_neg full, if_neg full]
        by_cases behind : (snprintfFormatter maxlen).behind (text (place + 1)) = true
        · rw [if_pos behind, if_pos behind]
          exact agrees.tracks
        · rw [if_neg behind, if_neg behind]
          exact ih (agrees.goesOn (Bool.eq_false_of_not_eq_true full)) agrees.args strings _
      · have percent := not_not.mp literal
        have agrees : Agrees buf maxlen ((bufferFormatter maxlen).directive (text (place + 1)) va)
            ((snprintfFormatter maxlen).directive (text (place + 1)) printed) :=
          agrees_directive running args word strings (text (place + 1))
        have others := @bufferDirective_args memory maxlen va strings (text (place + 1))
        rw [run_directive percent, run_directive percent, ← agrees.returns]
        by_cases full : ((bufferFormatter maxlen).directive (text (place + 1)) va).2 = true
        · rw [if_pos full, if_pos full]
          exact agrees.tracks
        rw [if_neg full, if_neg full]
        by_cases ends : text (place + 2) = 0
        · rw [if_pos ends, if_pos ends]
          exact agrees.tracks
        · rw [if_neg ends, if_neg ends]
          exact ih (agrees.goesOn (Bool.eq_false_of_not_eq_true full)) agrees.args others _

/-- **Both functions print the same** into a buffer that has room for a byte. -/
theorem tracks_formatProgram {args : ℕ → VaArg} (positive : 0 < maxlen) (word : maxlen < 2 ^ 31)
    (strings : ∀ i, (args i).string.length < 2 ^ 31) (turns : ℕ) :
    Tracks buf maxlen
      ((formatProgram (@bufferFormatter memory maxlen) turns ⟨.start memory buf, args⟩).run
        text).sink
      ((formatProgram (snprintfFormatter maxlen) turns ⟨⟨[], 0⟩, args⟩).run text).sink := by
  have tracks : Tracks buf maxlen (Output.start memory buf) ⟨[], 0⟩ :=
    ⟨rfl, rfl, Nat.zero_le _, stored_start, rfl⟩
  have behind (i : ℕ) : offset buf i = offset buf (0 + i) := by rw [Nat.zero_add]
  rw [formatProgram, formatProgram, Probe.run_ask_bind, Probe.run_ask_bind]
  by_cases empty : text 0 = 0
  · rw [if_pos empty, if_pos empty]
    exact tracks
  · rw [if_neg empty, if_neg empty]
    exact tracks_formatLoop ⟨tracks, positive, behind⟩ rfl word strings turns 0

end Walk

/-- **`_snprintf` respects its bound**, whatever the format is: it writes the first bytes of the
buffer, each one once and in their order, not more than `maxlen`, and its count does not wrap. -/
theorem snprintf_bounded {text : Memory} {buf maxlen : ℕ} {args : ℕ → VaArg}
    (positive : 1 ≤ maxlen) (word : maxlen < 2 ^ 31)
    (strings : ∀ i, (args i).string.length < 2 ^ 31) (turns : ℕ) :
    let output :=
      ((formatProgram (bufferFormatter maxlen) turns ⟨.start memory buf, args⟩).run text).sink
    output.wrapped = false ∧
      ∃ n ≤ maxlen, output.state.writes = (List.range n).map (offset buf) := by
  have tracks := @tracks_formatProgram memory buf maxlen text args positive word strings turns
  exact ⟨tracks.exact, _, tracks.bound, tracks.stored.writes⟩

theorem snprintf_bounded_clipped :
    let output := ((formatProgram (bufferFormatter 3) 9
      ⟨.start (fun _ => 0) 0x1000, fun _ => ⟨-12345, [1, 2, 3, 4]⟩⟩).run
        (textOf [ascii '%', ascii 'd', ascii '%', ascii 's'])).sink
    output.wrapped = false ∧
      ∃ n ≤ 3, output.state.writes = (List.range n).map (offset 0x1000) :=
  snprintf_bounded (by decide) (by decide) (fun _ => by decide) 9

end CatchOS.Utils
