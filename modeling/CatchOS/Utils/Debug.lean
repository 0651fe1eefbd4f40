import CatchOS.Drivers.TextScreen
import CatchOS.Lib.Probe
import CatchOS.Utils.Printf
import Mathlib.Data.List.GetD

/-!
# Reading a format

`_snprintf` (`printf.c`), `_dbg_log` and `_dbg_screen` (`debug.c`) walk over a format with
the same three loops: one over the format, one over literal bytes, and a `switch` over the
byte behind a percent sign. They are one program that reads the format byte by byte
(`formatProgram`) with different effects; places are counted from the start of the format.

Each of them leaves the `switch` when the byte behind a percent sign is the final zero, and
the outer loop goes on behind it. So a format that ends in a percent sign that is not
itself a directive is read beyond its end, and any other format is not
(`neverOverRead_iff`). `_snprintf` gets there only when it has not returned earlier, as it
does behind most literal bytes.
-/

set_option autoImplicit false

namespace CatchOS.Utils

open CatchOS.Lib CatchOS.Drivers

/-! ## Arguments -/

/-- The next word of the variable arguments, and the bytes before the final zero of the
string at that address. -/
structure VaArg where
  word : BitVec 32
  string : List Byte

/-- What was written so far, and the arguments that were not fetched yet. -/
structure Va (Sink : Type) where
  sink : Sink
  args : ℕ → VaArg

namespace Va

variable {Sink : Type} (va : Va Sink)

/-- The argument that `va_arg` fetches. -/
def arg : VaArg := va.args 0

/-- An argument was fetched. -/
def fetched (sink : Sink) : Va Sink := ⟨sink, fun i => va.args (i + 1)⟩

end Va

/-! ## The walk over a format -/

/-- What a function does at the bytes of a format: at a literal byte and at a directive, and
whether it returns then; and the bytes behind a literal one that it returns at. -/
structure Formatter (Sink : Type) where
  literal : Byte → Va Sink → Va Sink × Bool
  behind : Byte → Bool
  directive : Byte → Va Sink → Va Sink × Bool

section Walk

variable {Sink : Type} (formatter : Formatter Sink)

/-- The loops from `traverse` on, where the byte is not the final zero. -/
def formatLoop : ℕ → ℕ → Va Sink → Probe ℕ Byte (Va Sink)
  | 0, _, va => pure va
  | turns + 1, traverse, va => do
      let byte ← Probe.ask traverse
      if byte ≠ ascii '%' then do
        let byte ← Probe.ask traverse
        let after := formatter.literal byte va
        if after.2 then pure after.1
        else do
          let next ← Probe.ask (traverse + 1)
          if formatter.behind next then pure after.1
          else formatLoop turns (traverse + 1) after.1
      else do
        let byte ← Probe.ask (traverse + 1)
        let after := formatter.directive byte va
        if after.2 then pure after.1
        else do
          -- The final zero is a directive too, and the loop steps over it.
          let next ← Probe.ask (traverse + 2)
          if next = 0 then pure after.1 else formatLoop turns (traverse + 2) after.1

def formatProgram (turns : ℕ) (va : Va Sink) : Probe ℕ Byte (Va Sink) := do
  let first ← Probe.ask 0
  if first = 0 then pure va else formatLoop formatter turns 0 va

end Walk

/-! ## The functions -/

/-- The string of `_int_to_str_static`. -/
def digitString (num base : ℕ) : List Byte := (intToStrStatic num base).getD []

/-- The directives of `_dbg_log` and `_dbg_screen`, which differ in how they write a
character and a string. -/
def debugDirective {Sink : Type} (put : Byte → Sink → Sink) (write : List Byte → Sink → Sink)
    (directive : Byte) (va : Va Sink) : Va Sink × Bool :=
  let word := va.arg.word
  if directive = ascii 'c' then (va.fetched (put (word.setWidth 8) va.sink), false)
  else if directive = ascii 'u' then (va.fetched (write (digitString word.toNat 10) va.sink), false)
  else if directive = ascii 'd' then
    if word.toInt < 0 then
      (va.fetched (write (digitString (-word).toNat 10) (put (ascii '-') va.sink)), false)
    else (va.fetched (write (digitString word.toNat 10) va.sink), false)
  else if directive = ascii 'o' then (va.fetched (write (digitString word.toNat 8) va.sink), false)
  else if directive = ascii 's' then (va.fetched (write va.arg.string va.sink), false)
  else if directive = ascii 'x' then (va.fetched (write (digitString word.toNat 16) va.sink), false)
  else (va, false)

/-- `_dbg_log`: the bytes that go to the serial port. At its return behind a literal byte it
also releases the lock that it does not take. -/
def dbgLog : Formatter (List Byte) where
  literal byte va := (⟨va.sink ++ [byte], va.args⟩, false)
  behind next := next = 0
  directive := debugDirective (fun byte out => out ++ [byte]) (fun s out => out ++ s)

/-- The character cells of `_dbg_screen`. -/
def debugCell (mode : ScreenMode) (white : ℕ) (c : Byte) (text : TextState) : TextState :=
  svgaDrawCharCell mode text c white

/-- `_dbg_screen`: the static `scrpos` and the calls that draw, with the color of
`svga_translate_rgb(0xff, 0xff, 0xff)`. -/
def dbgScreen (mode : ScreenMode) (white : ℕ) : Formatter TextState where
  literal byte va :=
    let text := if byte = ascii '\n' then
        { va.sink with
          scrpos := offset va.sink.scrpos (100 - offset va.sink.scrpos 100 % 100) }
      else va.sink
    (⟨debugCell mode white byte text, va.args⟩, false)
  behind next := next = 0
  directive := debugDirective (debugCell mode white) fun s text =>
    svgaWriteStr mode text (fun i => s.getD i 0) s.length white

/-- The directives of `_snprintf`, which returns when its buffer is full. -/
def snprintfDirective (maxlen : ℕ) (directive : Byte) (va : Va Printer) : Va Printer × Bool :=
  let word := va.arg.word
  let printed (printer : Printer) := (va.fetched printer, decide (maxlen ≤ printer.len))
  if directive = ascii 'c' then printed (va.sink.put (word.setWidth 8))
  else if directive = ascii 'd' then
    if word.toInt < 0 then
      let printer := va.sink.put (ascii '-')
      if maxlen ≤ printer.len then (va.fetched printer, true)
      else printed (printer.copy maxlen (digitString (-word).toNat 10))
    else printed (va.sink.copy maxlen (digitString word.toNat 10))
  else if directive = ascii 'x' then printed (va.sink.copy maxlen (digitString word.toNat 16))
  else if directive = ascii 's' then printed (va.sink.copy maxlen va.arg.string)
  else (va, false)

/-- `_snprintf`. The test behind a literal byte is one of a signed `char`. -/
def snprintfFormatter (maxlen : ℕ) : Formatter Printer where
  literal byte va := (⟨va.sink.put byte, va.args⟩, (va.sink.put byte).len = maxlen)
  behind next := 0 ≤ next.toInt
  directive := snprintfDirective maxlen

/-! ## Formats -/

/-- The text starts with the format, and a zero follows it. -/
structure Terminated (text : Memory) (format : List Byte) : Prop where
  bytes : ∀ i (bound : i < format.length), text i = format[i]
  nonzero : ∀ byte ∈ format, byte ≠ 0
  final : text format.length = 0

/-- The format ends in a percent sign that no other one stands before as its directive. -/
def LonePercent : List Byte → Prop
  | [] => False
  | [byte] => byte = ascii '%'
  | byte :: next :: format =>
      if byte = ascii '%' then LonePercent format else LonePercent (next :: format)

/-- The walk of a function does not come beyond the final zero, however many turns it makes. -/
def StopsAtEnd {Sink : Type} (formatter : Formatter Sink) (text : Memory) (format : List Byte) :
    Prop :=
  ∀ (turns : ℕ) (va : Va Sink),
    ∀ place ∈ (formatProgram formatter turns va).reads text, place ≤ format.length

/-- None of the functions reads beyond the final zero, whatever their arguments are. -/
structure NeverOverRead (text : Memory) (format : List Byte) : Prop where
  snprintf : ∀ maxlen, StopsAtEnd (snprintfFormatter maxlen) text format
  dbgLog : StopsAtEnd dbgLog text format
  dbgScreen : ∀ mode white, StopsAtEnd (dbgScreen mode white) text format

/-! ## The rest of a format -/

/-- The rest of a format and its final zero are at a place. -/
def RestAt (text : Memory) (place : ℕ) (rest : List Byte) : Prop :=
  Terminated (fun i => text (place + i)) rest

variable {text : Memory} {place : ℕ} {byte : Byte} {rest format : List Byte}

theorem RestAt.head (restAt : RestAt text place (byte :: rest)) : text place = byte ∧ byte ≠ 0 :=
  ⟨restAt.bytes 0 (Nat.succ_pos _), restAt.nonzero byte List.mem_cons_self⟩

theorem RestAt.tail (restAt : RestAt text place (byte :: rest)) : RestAt text (place + 1) rest := by
  have shift (i : ℕ) : place + 1 + i = place + (i + 1) := by omega
  refine ⟨fun i bound => ?_, fun other member =>
    restAt.nonzero other (List.mem_cons_of_mem _ member),
    ?_⟩
  · rw [shift]
    exact restAt.bytes (i + 1) (Nat.succ_lt_succ bound)
  · rw [shift]
    exact restAt.final

theorem RestAt.nil_iff (restAt : RestAt text place rest) : text place = 0 ↔ rest = [] := by
  cases rest with
  | nil => exact iff_of_true restAt.final rfl
  | cons byte rest =>
      obtain ⟨head, nonzero⟩ := restAt.head
      exact iff_of_false (head ▸ nonzero) (List.cons_ne_nil _ _)

/-- The byte at the place, with the final zero. -/
theorem RestAt.headD (restAt : RestAt text place rest) : text place = rest.headD 0 := by
  cases rest with
  | nil => exact restAt.final
  | cons byte rest => exact restAt.head.1

theorem restAt_zero (terminated : Terminated text format) : RestAt text 0 format := by
  unfold RestAt
  simpa only [Nat.zero_add] using terminated

/-- A percent sign alone at the end is one of the rest too. -/
theorem lonePercent_literal (literal : byte ≠ ascii '%') :
    LonePercent (byte :: rest) ↔ LonePercent rest := by
  cases rest with
  | nil => exact iff_of_false literal id
  | cons next rest => rw [LonePercent, if_neg literal]

theorem lonePercent_directive (directive : Byte) :
    LonePercent (ascii '%' :: directive :: rest) ↔ LonePercent rest := by
  rw [LonePercent, if_pos rfl]

section Reads

variable {Sink : Type} {formatter : Formatter Sink}

/-- The reads of one turn at a literal byte. -/
theorem reads_literal (literal : text place ≠ ascii '%') (turns : ℕ) (va : Va Sink) :
    (formatLoop formatter (turns + 1) place va).reads text =
      place :: place ::
        if (formatter.literal (text place) va).2 then []
        else (place + 1) ::
          if formatter.behind (text (place + 1)) then []
          else (formatLoop formatter turns (place + 1)
            (formatter.literal (text place) va).1).reads text := by
  rw [formatLoop, Probe.reads_ask_bind, if_pos literal, Probe.reads_ask_bind]
  dsimp only
  rw [Probe.reads_ite, Probe.reads_pure, Probe.reads_ask_bind, Probe.reads_ite, Probe.reads_pure]

/-- The reads of one turn at a directive. -/
theorem reads_directive (percent : text place = ascii '%') (turns : ℕ) (va : Va Sink) :
    (formatLoop formatter (turns + 1) place va).reads text =
      place :: (place + 1) ::
        if (formatter.directive (text (place + 1)) va).2 then []
        else (place + 2) ::
          if text (place + 2) = 0 then []
          else (formatLoop formatter turns (place + 2)
            (formatter.directive (text (place + 1)) va).1).reads text := by
  rw [formatLoop, Probe.reads_ask_bind, if_neg (not_not.mpr percent), Probe.reads_ask_bind]
  dsimp only
  rw [Probe.reads_ite, Probe.reads_pure, Probe.reads_ask_bind, Probe.reads_ite, Probe.reads_pure]

/-- The result of one turn at a literal byte. -/
theorem run_literal (literal : text place ≠ ascii '%') (turns : ℕ) (va : Va Sink) :
    (formatLoop formatter (turns + 1) place va).run text =
      if (formatter.literal (text place) va).2 then (formatter.literal (text place) va).1
      else if formatter.behind (text (place + 1)) then (formatter.literal (text place) va).1
      else (formatLoop formatter turns (place + 1)
        (formatter.literal (text place) va).1).run text := by
  rw [formatLoop, Probe.run_ask_bind, if_pos literal, Probe.run_ask_bind]
  dsimp only
  rw [Probe.run_ite, Probe.run_pure, Probe.run_ask_bind, Probe.run_ite, Probe.run_pure]

/-- The result of one turn at a directive. -/
theorem run_directive (percent : text place = ascii '%') (turns : ℕ) (va : Va Sink) :
    (formatLoop formatter (turns + 1) place va).run text =
      if (formatter.directive (text (place + 1)) va).2 then
        (formatter.directive (text (place + 1)) va).1
      else if text (place + 2) = 0 then (formatter.directive (text (place + 1)) va).1
      else (formatLoop formatter turns (place + 2)
        (formatter.directive (text (place + 1)) va).1).run text := by
  rw [formatLoop, Probe.run_ask_bind, if_neg (not_not.mpr percent), Probe.run_ask_bind]
  dsimp only
  rw [Probe.run_ite, Probe.run_pure, Probe.run_ask_bind, Probe.run_ite, Probe.run_pure]

/-- Without a lone percent sign a walk that returns before the final zero stays in the
format. -/
theorem formatLoop_stays (returns : formatter.behind 0 = true) (turns : ℕ) (va : Va Sink)
    (restAt : RestAt text place rest) (nonempty : rest ≠ []) (safe : ¬ LonePercent rest) :
    ∀ other ∈ (formatLoop formatter turns place va).reads text, other ≤ place + rest.length := by
  induction turns generalizing place rest va with
  | zero =>
      intro other member
      cases member
  | succ turns ih =>
      obtain ⟨byte, rest, rfl⟩ := List.exists_cons_of_ne_nil nonempty
      obtain ⟨head, -⟩ := restAt.head
      intro other member
      rw [List.length_cons]
      by_cases literal : text place ≠ ascii '%'
      · rw [lonePercent_literal (head ▸ literal)] at safe
        rw [reads_literal literal, List.mem_cons, List.mem_cons] at member
        obtain rfl | rfl | member := member
        · omega
        · omega
        by_cases full : (formatter.literal (text place) va).2 = true
        · rw [if_pos full] at member
          cases member
        rw [if_neg full, List.mem_cons] at member
        obtain rfl | member := member
        · omega
        by_cases behind : formatter.behind (text (place + 1)) = true
        · rw [if_pos behind] at member
          cases member
        · rw [if_neg behind] at member
          -- The byte behind is not the final zero.
          have more : rest ≠ [] := by
            intro empty
            rw [restAt.tail.nil_iff.mpr empty] at behind
            exact behind returns
          have inside := ih _ restAt.tail more safe other member
          omega
      · have percent := not_not.mp literal
        rw [head] at percent
        subst percent
        cases rest with
        | nil => exact absurd rfl safe
        | cons directive rest =>
            rw [lonePercent_directive] at safe
            rw [reads_directive head, List.mem_cons, List.mem_cons] at member
            rw [List.length_cons]
            obtain rfl | rfl | member := member
            · omega
            · omega
            by_cases full : (formatter.directive (text (place + 1)) va).2 = true
            · rw [if_pos full] at member
              cases member
            rw [if_neg full, List.mem_cons] at member
            obtain rfl | member := member
            · omega
            have after : RestAt text (place + 2) rest := restAt.tail.tail
            by_cases ends : text (place + 2) = 0
            · rw [if_pos ends] at member
              cases member
            · rw [if_neg ends] at member
              have inside := ih _ after (mt after.nil_iff.mpr ends) safe other member
              omega

/-- A walk that only returns at the final zero reads the byte behind it when the rest ends
in a lone percent sign. -/
theorem formatLoop_overReads (goesOn : ∀ byte va, (formatter.literal byte va).2 = false)
    (fetches : ∀ byte va, (formatter.directive byte va).2 = false)
    (returns : ∀ byte, formatter.behind byte = true → byte = 0) {turns : ℕ} (va : Va Sink)
    (enough : rest.length ≤ turns) (restAt : RestAt text place rest) (lone : LonePercent rest) :
    place + rest.length + 1 ∈ (formatLoop formatter turns place va).reads text := by
  induction turns generalizing place rest va with
  | zero =>
      rw [List.length_eq_zero_iff.mp (Nat.le_zero.mp enough)] at lone
      cases lone
  | succ turns ih =>
      cases rest with
      | nil => cases lone
      | cons byte rest =>
      rw [List.length_cons] at enough ⊢
      obtain ⟨head, -⟩ := restAt.head
      by_cases literal : text place ≠ ascii '%'
      · rw [lonePercent_literal (head ▸ literal)] at lone
        have more : rest ≠ [] := by
          rintro rfl
          cases lone
        have goes : ¬ formatter.behind (text (place + 1)) = true := fun ends =>
          more (restAt.tail.nil_iff.mp (returns _ ends))
        have later := ih (formatter.literal (text place) va).1 (Nat.le_of_succ_le_succ enough)
          restAt.tail lone
        rw [reads_literal literal, goesOn, if_neg Bool.false_ne_true, if_neg goes]
        have shifted : place + (rest.length + 1) + 1 = place + 1 + rest.length + 1 := by omega
        rw [shifted]
        exact List.mem_cons_of_mem _ (List.mem_cons_of_mem _ (List.mem_cons_of_mem _ later))
      · have percent := not_not.mp literal
        rw [reads_directive percent, fetches, if_neg Bool.false_ne_true]
        refine List.mem_cons_of_mem _ (List.mem_cons_of_mem _ ?_)
        cases rest with
        -- The final zero is taken for the directive.
        | nil => exact List.mem_cons_self
        | cons directive rest =>
            rw [← head, percent, lonePercent_directive] at lone
            have more : rest ≠ [] := by
              rintro rfl
              cases lone
            have after : RestAt text (place + 2) rest := restAt.tail.tail
            rw [List.length_cons] at enough ⊢
            have later := ih (formatter.directive (text (place + 1)) va).1 (by omega) after lone
            rw [if_neg (mt after.nil_iff.mp more)]
            have shifted : place + (rest.length + 1 + 1) + 1 = place + 2 + rest.length + 1 := by
              omega
            rw [shifted]
            exact List.mem_cons_of_mem _ later

/-- A function that returns at the final zero behind a literal byte stays in a format without
a lone percent sign. -/
theorem stopsAtEnd_of_not_lone (returns : formatter.behind 0 = true)
    (terminated : Terminated text format) (safe : ¬ LonePercent format) :
    StopsAtEnd formatter text format := by
  intro turns va other member
  have start := restAt_zero terminated
  rw [formatProgram, Probe.reads_ask_bind, List.mem_cons] at member
  obtain rfl | member := member
  · exact Nat.zero_le _
  by_cases ends : text 0 = 0
  · rw [if_pos ends] at member
    cases member
  · rw [if_neg ends] at member
    have inside := formatLoop_stays returns turns va start (mt start.nil_iff.mpr ends) safe other
      member
    omega

/-- A function that returns nowhere else stays in exactly these formats. -/
theorem stopsAtEnd_iff (goesOn : ∀ byte va, (formatter.literal byte va).2 = false)
    (fetches : ∀ byte va, (formatter.directive byte va).2 = false)
    (behind : ∀ byte, formatter.behind byte = true ↔ byte = 0) (start : Sink)
    (terminated : Terminated text format) :
    StopsAtEnd formatter text format ↔ ¬ LonePercent format := by
  refine ⟨fun stops lone => ?_, stopsAtEnd_of_not_lone ((behind 0).mpr rfl) terminated⟩
  have whole := restAt_zero terminated
  have nonempty : format ≠ [] := by
    rintro rfl
    cases lone
  have beyond := formatLoop_overReads goesOn fetches (fun byte => (behind byte).mp)
    ⟨start, fun _ => ⟨0, []⟩⟩ (le_refl _) whole lone
  have inside := stops format.length ⟨start, fun _ => ⟨0, []⟩⟩ (0 + format.length + 1) (by
    rw [formatProgram, Probe.reads_ask_bind, if_neg (mt whole.nil_iff.mp nonempty)]
    exact List.mem_cons_of_mem _ beyond)
  omega

end Reads

/-! ## The three functions -/

theorem debugDirective_goes {Sink : Type} (put : Byte → Sink → Sink)
    (write : List Byte → Sink → Sink) (directive : Byte) (va : Va Sink) :
    (debugDirective put write directive va).2 = false := by
  unfold debugDirective
  dsimp only
  repeat' split
  all_goals rfl

theorem dbgLog_stopsAtEnd_iff (terminated : Terminated text format) :
    StopsAtEnd dbgLog text format ↔ ¬ LonePercent format :=
  stopsAtEnd_iff (fun _ _ => rfl) (debugDirective_goes _ _) (fun _ => decide_eq_true_iff) []
    terminated

theorem dbgScreen_stopsAtEnd_iff (mode : ScreenMode) (white : ℕ)
    (terminated : Terminated text format) :
    StopsAtEnd (dbgScreen mode white) text format ↔ ¬ LonePercent format :=
  stopsAtEnd_iff (fun _ _ => rfl) (debugDirective_goes _ _) (fun _ => decide_eq_true_iff)
    ⟨0, [], false⟩ terminated

/-- **Formats that are not over-read** are those that do not end in a lone percent sign. -/
theorem neverOverRead_iff (terminated : Terminated text format) :
    NeverOverRead text format ↔ ¬ LonePercent format := by
  constructor
  · intro never
    exact (dbgLog_stopsAtEnd_iff terminated).mp never.dbgLog
  · intro safe
    exact ⟨fun maxlen => stopsAtEnd_of_not_lone rfl terminated safe,
      (dbgLog_stopsAtEnd_iff terminated).mpr safe,
      fun mode white => (dbgScreen_stopsAtEnd_iff mode white terminated).mpr safe⟩

/-- The text of a format, with zeros behind it. -/
def textOf (format : List Byte) : Memory := fun i => format.getD i 0

theorem terminated_textOf (nonzero : ∀ byte ∈ format, byte ≠ 0) :
    Terminated (textOf format) format := by
  refine ⟨fun i bound => ?_, nonzero, ?_⟩
  · rw [textOf, List.getD_eq_getElem _ _ bound]
  · rw [textOf, List.getD_eq_default _ _ (le_refl _)]

/-- A percent sign as the directive of another one is not alone. -/
theorem percent_twice_neverOverRead :
    NeverOverRead (textOf [ascii '%', ascii '%']) [ascii '%', ascii '%'] :=
  (neverOverRead_iff (terminated_textOf (by decide))).mpr id

/-- All three functions read the byte behind the zero that ends the format `%`. -/
theorem percent_overRead : ¬ ∀ (text : Memory) (format : List Byte), Terminated text format →
    NeverOverRead text format := by
  intro never
  have stops := never (textOf [ascii '%']) _ (terminated_textOf (by decide))
  have beyond := stops.snprintf 8 1 ⟨⟨[], 0⟩, fun _ => ⟨0, []⟩⟩ 2
  exact absurd (beyond (by decide)) (by decide)

/-! ## What `_snprintf` stores -/

/-- The words on the stack are those of the arguments. -/
def HoldsArgs : List Arg → (ℕ → VaArg) → Prop
  | [], _ => True
  | .word i :: args, va => (va 0).word = i ∧ HoldsArgs args fun n => va (n + 1)
  | .string s :: args, va => (va 0).string = s ∧ HoldsArgs args fun n => va (n + 1)

section Snprintf

variable {maxlen : ℕ} {args : List Arg} {va : Va Printer} {out : List Byte}

/-- After a directive, the walk has returned with what is stored in the end, or goes on with
the rest of the format and of the arguments. -/
def Continues (maxlen : ℕ) (rest out : List Byte) (after : Va Printer × Bool) : Prop :=
  if after.2 then after.1.sink.out = out
  else ∃ args, HoldsArgs args after.1.args ∧ snprintfLoop maxlen rest args after.1.sink = some out

theorem continues_printed {printer : Printer} (holds : HoldsArgs args fun n => va.args (n + 1))
    (stored : printer.orFull maxlen (snprintfLoop maxlen rest args printer) = some out) :
    Continues maxlen rest out (va.fetched printer, decide (maxlen ≤ printer.len)) := by
  unfold Printer.orFull at stored
  unfold Continues
  by_cases full : maxlen ≤ printer.len
  · rw [if_pos full, Option.some.injEq] at stored
    rw [decide_eq_true full, if_pos rfl]
    exact stored
  · rw [if_neg full] at stored
    rw [decide_eq_false full, if_neg Bool.false_ne_true]
    exact ⟨args, holds, stored⟩

/-- The digits of a number, when there are some. -/
theorem continues_digits {printer : Printer} {num base : ℕ}
    (holds : HoldsArgs args fun n => va.args (n + 1))
    (stored : ((intToStrStatic num base).bind fun s => (printer.copy maxlen s).orFull maxlen
      (snprintfLoop maxlen rest args (printer.copy maxlen s))) = some out) :
    Continues maxlen rest out (va.fetched (printer.copy maxlen (digitString num base)),
      decide (maxlen ≤ (printer.copy maxlen (digitString num base)).len)) := by
  obtain ⟨s, digits, stored⟩ := Option.bind_eq_some_iff.mp stored
  rw [digitString, digits, Option.getD_some]
  exact continues_printed holds stored

/-- The fetched word is the next argument. -/
theorem holdsArgs_word {args : List Arg} {i : BitVec 32}
    (holds : HoldsArgs (.word i :: args) va.args) :
    va.arg.word = i ∧ HoldsArgs args fun n => va.args (n + 1) := holds

/-- **One directive** of the function does what the list model says. -/
theorem continues_directive (directive : Byte) (holds : HoldsArgs args va.args)
    (stored : snprintfLoop maxlen (ascii '%' :: directive :: rest) args va.sink = some out) :
    Continues maxlen rest out (snprintfDirective maxlen directive va) := by
  rw [snprintfLoop.eq_def] at stored
  dsimp only at stored
  rw [if_neg (not_not.mpr rfl)] at stored
  unfold snprintfDirective
  dsimp only
  by_cases isC : directive = ascii 'c'
  · rw [if_pos isC] at stored ⊢
    split at stored
    case h_1 i args =>
      obtain ⟨word, others⟩ := holdsArgs_word holds
      rw [word]
      exact continues_printed others stored
    case h_2 => cases stored
  rw [if_neg isC] at stored ⊢
  by_cases isD : directive = ascii 'd'
  · rw [if_pos isD] at stored ⊢
    split at stored
    case h_1 i args =>
      obtain ⟨word, others⟩ := holdsArgs_word holds
      rw [word]
      by_cases negative : i.toInt < 0
      · rw [if_pos negative] at stored ⊢
        unfold Printer.orFull at stored
        by_cases full : maxlen ≤ (va.sink.put (ascii '-')).len
        · rw [if_pos full, Option.some.injEq] at stored
          rw [if_pos full, Continues, if_pos rfl]
          exact stored
        · rw [if_neg full] at stored ⊢
          exact continues_digits others stored
      · rw [if_neg negative] at stored ⊢
        exact continues_digits others stored
    case h_2 => cases stored
  rw [if_neg isD] at stored ⊢
  by_cases isX : directive = ascii 'x'
  · rw [if_pos isX] at stored ⊢
    split at stored
    case h_1 i args =>
      obtain ⟨word, others⟩ := holdsArgs_word holds
      rw [word]
      exact continues_digits others stored
    case h_2 => cases stored
  rw [if_neg isX] at stored ⊢
  by_cases isS : directive = ascii 's'
  · rw [if_pos isS] at stored ⊢
    split at stored
    case h_1 s args =>
      obtain ⟨string, others⟩ := holds
      rw [Va.arg, string]
      exact continues_printed others stored
    case h_2 => cases stored
  rw [if_neg isS] at stored ⊢
  rw [Continues, if_neg Bool.false_ne_true]
  exact ⟨args, holds, stored⟩

/-- The walk stores what the list model says. -/
theorem run_formatLoop_snprintf {turns : ℕ} (enough : rest.length ≤ turns)
    (restAt : RestAt text place rest) (nonempty : rest ≠ []) (holds : HoldsArgs args va.args)
    (stored : snprintfLoop maxlen rest args va.sink = some out) :
    ((formatLoop (snprintfFormatter maxlen) turns place va).run text).sink.out = out := by
  induction turns generalizing place rest args va with
  | zero => exact absurd (List.length_eq_zero_iff.mp (Nat.le_zero.mp enough)) nonempty
  | succ turns ih =>
      obtain ⟨byte, rest, rfl⟩ := List.exists_cons_of_ne_nil nonempty
      obtain ⟨head, -⟩ := restAt.head
      rw [List.length_cons] at enough
      by_cases literal : byte ≠ ascii '%'
      · rw [snprintfLoop.eq_def] at stored
        dsimp only at stored
        rw [if_pos literal] at stored
        rw [run_literal (head ▸ literal), head, restAt.tail.headD]
        dsimp only [snprintfFormatter]
        simp only [decide_eq_true_eq]
        by_cases full : (va.sink.put byte).len = maxlen
        · rw [if_pos full, Option.some.injEq] at stored
          rw [if_pos full]
          exact stored
        rw [if_neg full] at stored ⊢
        by_cases returns : 0 ≤ (rest.headD 0).toInt
        · rw [if_pos returns, Option.some.injEq] at stored
          rw [if_pos returns]
          exact stored
        · rw [if_neg returns] at stored ⊢
          have more : rest ≠ [] := by
            rintro rfl
            exact returns (le_refl _)
          exact ih (Nat.le_of_succ_le_succ enough) restAt.tail more holds stored
      · obtain rfl := not_not.mp literal
        cases rest with
        | nil =>
            rw [snprintfLoop.eq_def] at stored
            dsimp only at stored
            rw [if_neg literal] at stored
            cases stored
        | cons directive rest =>
            have next := restAt.tail.head.1
            have after : RestAt text (place + 2) rest := restAt.tail.tail
            have continues := continues_directive directive holds stored
            rw [List.length_cons] at enough
            have directs : (snprintfFormatter maxlen).directive = snprintfDirective maxlen := rfl
            rw [run_directive head, next, directs]
            unfold Continues at continues
            by_cases full : (snprintfDirective maxlen directive va).2 = true
            · rw [if_pos full] at continues ⊢
              exact continues
            rw [if_neg full] at continues ⊢
            obtain ⟨args, others, stored⟩ := continues
            by_cases ends : text (place + 2) = 0
            · rw [if_pos ends]
              rw [after.nil_iff.mp ends, snprintfLoop, Option.some.injEq] at stored
              exact stored
            · rw [if_neg ends]
              exact ih (by omega) after (mt after.nil_iff.mpr ends) others stored

/-- **The program is `_snprintf`**: where the list model stores bytes, the walk stores them
too. -/
theorem run_formatProgram_snprintf {turns : ℕ} {va : ℕ → VaArg} (enough : format.length ≤ turns)
    (terminated : Terminated text format) (holds : HoldsArgs args va)
    (stored : snprintf maxlen format args = some out) :
    ((formatProgram (snprintfFormatter maxlen) turns ⟨⟨[], 0⟩, va⟩).run text).sink.out = out := by
  have start := restAt_zero terminated
  rw [formatProgram, Probe.run_ask_bind]
  by_cases ends : text 0 = 0
  · rw [if_pos ends, Probe.run_pure]
    rw [start.nil_iff.mp ends, snprintf, snprintfLoop, Option.some.injEq] at stored
    exact stored
  · rw [if_neg ends]
    exact run_formatLoop_snprintf enough start (mt start.nil_iff.mpr ends) holds stored

end Snprintf

end CatchOS.Utils
