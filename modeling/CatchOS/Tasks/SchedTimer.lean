import CatchOS.Drivers.Madt
import CatchOS.Lib.Transition

/-!
# The scheduling timer

The timer interrupt is handled by one CPU at a time. At every tick
`ISR_SYSTIME_SCHED` passes it on to the next processor of `_madt_info`, in turn.
`start_APs` has tried to start these processors, all but the one with local APIC 0
that the machine booted on, and has dropped the result.

A tick therefore reaches a processor that never started as soon as the table lists
one that does not come up, whether it is disabled or fails; and a machine without the
table has no processors to take turns, so that the first tick divides by zero
(`timer_only_live`).
-/

set_option autoImplicit false

namespace CatchOS.Tasks

open CatchOS.Lib CatchOS.Drivers

/-! ## Starting the processors -/

/-- The local APIC of the processor the machine boots on. -/
def bspLapicId : Byte := 0

/-- `start_AP`, by whether it finds `AP_STARTUP_SUCCESSFUL` set after the first and after
the second startup interrupt. -/
def startAp (first second : Bool) : ℤ :=
  if first then 0
  else if second then 0
  else -1

/-- The calls of `start_AP` that `start_APs` makes, with what they return. The turns
of its loop find the flag as given. -/
def startAps (info : Memory) (flag : ℕ → Bool × Bool) : List (Byte × ℤ) :=
  (List.range (processorCount info)).filterMap fun i =>
    if localApicId info i ≠ bspLapicId then
      some (localApicId info i, startAp (flag i).1 (flag i).2)
    else none

/-- `init_io_apic`: whether an I/O APIC is initialized. -/
def initIoApic (info : Memory) : Bool := ioApicCount info ≠ 0

/-- The processor is the one the machine booted on, or a `start_AP` for it returned 0. -/
def Live (info : Memory) (flag : ℕ → Bool × Bool) (id : Byte) : Prop :=
  id = bspLapicId ∨ (id, 0) ∈ startAps info flag

/-! ## The tick -/

/-- `IRQ_REDIR_BASE`. -/
def irqRedirBase : Byte := 32

/-- `INT_SYSTIME`. -/
def intSystime : Byte := 32

/-- What `ioapic_redirect_external_int` writes: the pin of the I/O APIC, and the vector
and the local APIC that interrupts on it go to. -/
structure Redirection where
  pin : Byte
  vector : Byte
  dest : Byte
  deriving DecidableEq

def ioapicRedirectExternalInt (info : Memory) (irq destLapic : Byte) : Redirection where
  pin := if 0 < (info (irqOverrideField + irq.toNat)).toNat then
      irq + info (irqOverrideField + irq.toNat)
    else irq
  vector := irq + irqRedirBase
  dest := destLapic

/-- `smp_redirect_external_irq`. Without an I/O APIC nothing is redirected, and
interrupts go to the processor the machine booted on. -/
def smpRedirectExternalIrq (info : Memory) (irq destCpu : Byte) : Option Redirection :=
  if initIoApic info then some (ioapicRedirectExternalInt info (irq - irqRedirBase) destCpu)
  else none

/-- The static `cpuno` of the handler, and what the last tick redirected. -/
structure SchedTimer where
  cpuno : Byte
  redirected : Option Redirection
  deriving DecidableEq

/-- `ISR_SYSTIME_SCHED` up to its call of `task_isr_tick`; `none` is a division by
zero. -/
def isrSystimeSched (info : Memory) (timer : SchedTimer) : Option SchedTimer :=
  if processorCount info = 0 then none
  else
    let cpuno := (timer.cpuno + 1) % info processorCountField
    some {
      cpuno := cpuno
      redirected := smpRedirectExternalIrq info intSystime (localApicId info cpuno.toNat) }

/-- The ticks of a machine with the given table. -/
def timerSystem (madt : Option Memory) : System SchedTimer Unit where
  initial timer := timer = ⟨0, none⟩
  step timer _ := isrSystimeSched (madtParse madt) timer

/-- At every tick the index is computed, and the timer goes to a live processor. -/
def TimerOnlyLive (madt : Option Memory) (flag : ℕ → Bool × Bool) : Prop :=
  ∀ timer, (timerSystem madt).Reachable timer →
    ∃ next, isrSystimeSched (madtParse madt) timer = some next ∧
      ∀ redirection ∈ next.redirected, Live (madtParse madt) flag redirection.dest

/-- There are processors, and unless nothing is redirected all of them are live. -/
def ProcessorsLive (info : Memory) (flag : ℕ → Bool × Bool) : Prop :=
  processorCount info ≠ 0 ∧
  (ioApicCount info = 0 ∨ ∀ i < processorCount info, Live info flag (localApicId info i))

/-- The same in terms of the entries of the table: there are processors, and unless
there is no I/O APIC every one of them has local APIC 0 or an entry, in whose turn it
was started. -/
def EntriesLive (apics : List Byte) (ioApics : ℕ) (flag : ℕ → Bool × Bool) : Prop :=
  apics ≠ [] ∧
  (ioApics % 2 ^ 16 = 0 ∨ ∀ id ∈ apics, id = bspLapicId ∨
    ∃ j, apics[j]? = some id ∧ ((flag j).1 = true ∨ (flag j).2 = true))

section

variable {madt : Option Memory} {info : Memory} {flag : ℕ → Bool × Bool}

theorem startAp_eq_zero {first second : Bool} :
    startAp first second = 0 ↔ first = true ∨ second = true := by
  cases first <;> cases second <;> decide

/-- A processor other than the first is live when one of its turns succeeded. -/
theorem live_iff {id : Byte} : Live info flag id ↔ id = bspLapicId ∨
    ∃ j < processorCount info, localApicId info j = id ∧
      ((flag j).1 = true ∨ (flag j).2 = true) := by
  unfold Live startAps
  constructor
  · rintro (boot | started)
    · exact .inl boot
    · obtain ⟨j, inRange, called⟩ := List.mem_filterMap.mp started
      split at called
      · simp only [Option.some.injEq, Prod.mk.injEq] at called
        exact .inr ⟨j, List.mem_range.mp inRange, called.1, startAp_eq_zero.mp called.2⟩
      · cases called
  · rintro (boot | ⟨j, bound, rfl, success⟩)
    · exact .inl boot
    · by_cases boot : localApicId info j = bspLapicId
      · exact .inl boot
      · refine .inr (List.mem_filterMap.mpr ⟨j, List.mem_range.mpr bound, ?_⟩)
        rw [if_pos boot, startAp_eq_zero.mpr success]

theorem processorCount_lt (info : Memory) : processorCount info < 256 :=
  (info processorCountField).isLt

/-- A tick moves on to the next processor, and after the last one to the first. -/
theorem isrSystimeSched_eq (processors : processorCount info ≠ 0) {timer : SchedTimer}
    (inRange : timer.cpuno.toNat < processorCount info) :
    ∃ cpuno : Byte, cpuno.toNat = (timer.cpuno.toNat + 1) % processorCount info ∧
      isrSystimeSched info timer = some ⟨cpuno,
        smpRedirectExternalIrq info intSystime (localApicId info cpuno.toNat)⟩ := by
  have small := processorCount_lt info
  refine ⟨(timer.cpuno + 1) % info processorCountField, ?_, if_neg processors⟩
  have one : (1 : Byte).toNat = 1 := rfl
  rw [BitVec.toNat_umod, BitVec.toNat_add, one, Nat.mod_eq_of_lt (a := timer.cpuno.toNat + 1)
    (by omega)]
  rfl

/-- `cpuno` is the number of a processor, at every tick. -/
theorem cpuno_inRange (processors : processorCount (madtParse madt) ≠ 0) {timer : SchedTimer}
    (reachable : (timerSystem madt).Reachable timer) :
    timer.cpuno.toNat < processorCount (madtParse madt) := by
  refine reachable.invariant (fun timer => timer.cpuno.toNat < processorCount (madtParse madt)) ?_
    ?_
  · rintro timer rfl
    exact Nat.pos_of_ne_zero processors
  · intro timer action next inRange _ stepped
    obtain ⟨cpuno, moved, ticked⟩ := isrSystimeSched_eq processors inRange
    obtain rfl : _ = next := Option.some.inj (ticked.symm.trans stepped)
    rw [moved]
    exact Nat.mod_lt _ (Nat.pos_of_ne_zero processors)

/-- Every processor gets its turn. -/
theorem exists_reachable_cpuno (processors : processorCount (madtParse madt) ≠ 0) (i : ℕ)
    (bound : i < processorCount (madtParse madt)) :
    ∃ timer, (timerSystem madt).Reachable timer ∧ timer.cpuno.toNat = i := by
  induction i with
  | zero => exact ⟨⟨0, none⟩, .start rfl, rfl⟩
  | succ i ih =>
      obtain ⟨timer, reachable, here⟩ := ih (Nat.lt_of_succ_lt bound)
      obtain ⟨cpuno, moved, ticked⟩ := isrSystimeSched_eq processors
        (cpuno_inRange processors reachable)
      have stepped : (timerSystem madt).step timer () = some _ := ticked
      refine ⟨_, .step reachable trivial stepped, ?_⟩
      rw [moved, here, Nat.mod_eq_of_lt bound]

/-- **What the timer needs**, in terms of what the parser leaves. -/
theorem timerOnlyLive_iff (madt : Option Memory) (flag : ℕ → Bool × Bool) :
    TimerOnlyLive madt flag ↔ ProcessorsLive (madtParse madt) flag := by
  constructor
  · intro live
    have processors : processorCount (madtParse madt) ≠ 0 := by
      intro none
      obtain ⟨next, ticked, -⟩ := live ⟨0, .none⟩ (.start rfl)
      rw [isrSystimeSched, if_pos none] at ticked
      cases ticked
    refine ⟨processors, ?_⟩
    by_cases ioApics : ioApicCount (madtParse madt) = 0
    · exact .inl ioApics
    · refine .inr fun i bound => ?_
      -- The tick that goes to processor `i` comes when `cpuno` is the one before it.
      obtain ⟨j, inRange, next⟩ : ∃ j < processorCount (madtParse madt),
          (j + 1) % processorCount (madtParse madt) = i := by
        cases i with
        | zero =>
            refine ⟨processorCount (madtParse madt) - 1, by omega, ?_⟩
            rw [Nat.sub_add_cancel (Nat.pos_of_ne_zero processors), Nat.mod_self]
        | succ j => exact ⟨j, Nat.lt_of_succ_lt bound, Nat.mod_eq_of_lt bound⟩
      obtain ⟨timer, reachable, here⟩ := exists_reachable_cpuno processors j inRange
      obtain ⟨cpuno, moved, ticked⟩ := isrSystimeSched_eq processors
        (cpuno_inRange processors reachable)
      obtain ⟨after, alsoTicked, goes⟩ := live timer reachable
      obtain rfl : _ = after := Option.some.inj (ticked.symm.trans alsoTicked)
      rw [here, next] at moved
      rw [← moved]
      exact goes (ioapicRedirectExternalInt (madtParse madt) (intSystime - irqRedirBase)
        (localApicId (madtParse madt) cpuno.toNat)) (if_pos (decide_eq_true ioApics))
  · rintro ⟨processors, redirected⟩ timer reachable
    obtain ⟨cpuno, moved, ticked⟩ := isrSystimeSched_eq processors
      (cpuno_inRange processors reachable)
    refine ⟨_, ticked, fun redirection made => ?_⟩
    unfold smpRedirectExternalIrq at made
    split at made
    · rename_i initialized
      obtain rfl := Option.some.inj made
      have all := redirected.resolve_left (of_decide_eq_true initialized)
      exact all _ (moved ▸ Nat.mod_lt _ (Nat.pos_of_ne_zero processors))
    · cases made

/-- The processors of `_madt_info` are those of the table. -/
theorem processorsLive_iff {apics : List Byte} {ioApics : ℕ}
    (collected : Collected info apics ioApics) :
    ProcessorsLive info flag ↔ EntriesLive apics ioApics flag := by
  have listed (i : ℕ) : i < processorCount info ↔ ∃ id, apics[i]? = some id := by
    rw [collected.count]
    constructor
    · intro bound
      exact ⟨_, List.getElem?_eq_getElem bound⟩
    · rintro ⟨id, found⟩
      exact (List.getElem?_eq_some_iff.mp found).1
  have live (id : Byte) : Live info flag id ↔ id = bspLapicId ∨
      ∃ j, apics[j]? = some id ∧ ((flag j).1 = true ∨ (flag j).2 = true) := by
    rw [live_iff]
    refine or_congr Iff.rfl (exists_congr fun j => ?_)
    constructor
    · rintro ⟨bound, here, success⟩
      obtain ⟨other, found⟩ := (listed j).mp bound
      rw [← here, collected.id j other found]
      exact ⟨found, success⟩
    · rintro ⟨found, success⟩
      exact ⟨(listed j).mpr ⟨id, found⟩, collected.id j id found, success⟩
  refine and_congr ?_ (or_congr ?_ ?_)
  · rw [collected.count, ne_eq, ne_eq, List.length_eq_zero_iff]
  · rw [collected.ioCount]
  · constructor
    · intro all id member
      obtain ⟨i, found⟩ := List.mem_iff_getElem?.mp member
      rw [← live, ← collected.id i id found]
      exact all i ((listed i).mpr ⟨id, found⟩)
    · intro all i bound
      obtain ⟨id, found⟩ := (listed i).mp bound
      rw [collected.id i id found, live]
      exact all id (List.mem_of_getElem? found)

/-- **When the scheduling timer only goes to live processors**: exactly when there are
processors and, unless nothing is redirected, all of them are live. For a table with at
most 128 processors these are the processors that its entries list, whatever their
flags. -/
theorem timer_only_live (madt : Option Memory) (flag : ℕ → Bool × Bool) :
    (TimerOnlyLive madt flag ↔ ProcessorsLive (madtParse madt) flag) ∧
    ((madtApics madt).length ≤ maxCpusSupported →
      (TimerOnlyLive madt flag ↔ EntriesLive (madtApics madt) (madtIoApics madt) flag)) := by
  refine ⟨timerOnlyLive_iff madt flag, fun few => ?_⟩
  rw [timerOnlyLive_iff, processorsLive_iff (madtParse_collected madt few)]

end

/-- The bytes of a table with two enabled processors, with local APICs 0 and 1, and an
I/O APIC. -/
def twoProcessors : Memory := fun place =>
  (([0x41, 0x50, 0x49, 0x43, 72] ++ List.replicate 39 0) ++
    [0, 8, 0, 0, 1, 0, 0, 0] ++ [0, 8, 1, 1, 1, 0, 0, 0] ++
    [1, 12, 0, 0, 0, 0, 0xC0, 0xFE, 0, 0, 0, 0] : List Byte).getD place 0

/-- Both processors come up: the timer only goes to live processors. -/
theorem timer_only_live_two_processors :
    TimerOnlyLive (some twoProcessors) fun _ => (true, false) := by
  refine ((timer_only_live (some twoProcessors) fun _ => (true, false)).2 (by decide +kernel)).mpr
    ?_
  have apics : madtApics (some twoProcessors) = [0, 1] := by decide +kernel
  rw [apics]
  refine ⟨nofun, .inr fun id member => ?_⟩
  obtain ⟨i, found⟩ := List.mem_iff_getElem?.mp member
  exact .inr ⟨i, found, .inl rfl⟩

/-- **The timer goes to a processor that never started.** The second processor does not
come up, and the first tick goes to it. -/
theorem timer_goes_to_failed_processor : ¬ ∀ madt flag, TimerOnlyLive madt flag := by
  intro live
  have few : (madtApics (some twoProcessors)).length ≤ maxCpusSupported := by decide +kernel
  have apics : madtApics (some twoProcessors) = [0, 1] := by decide +kernel
  have ioApics : madtIoApics (some twoProcessors) = 1 := by decide +kernel
  have entries := (timerOnlyLive_iff _ _).mp (live (some twoProcessors) fun _ => (false, false))
  rw [processorsLive_iff (madtParse_collected _ few), apics, ioApics] at entries
  have second := entries.2.resolve_left (by decide) 1 (by decide)
  obtain boot | ⟨j, -, success | success⟩ := second
  · cases boot
  · cases success
  · cases success

/-- Without the table the first tick divides by zero. -/
example : isrSystimeSched (madtParse none) ⟨0, none⟩ = none := rfl

end CatchOS.Tasks
