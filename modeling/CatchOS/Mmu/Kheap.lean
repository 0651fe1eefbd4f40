import CatchOS.Lib.Extent
import CatchOS.Machine.Memory

/-!
# The kernel heap

`kheap.c`: a pointer that starts at the end of the kernel image and only moves
up. Nothing is ever given back (`kfree` does nothing), and nothing compares the
pointer with the memory other parts of the kernel use.

`kmallocAlign_eq` says what a request aligned to `alignment` returns: the least
aligned address from the pointer on.
-/

set_option autoImplicit false

namespace CatchOS.Mmu

open CatchOS.Lib

/-- `struct kinfo`: where the kernel image ends. `link.ld` places the image from
`0x1000` on. -/
structure Kinfo where
  kernelEndVirtual : ℕ
  image_below : 0x1000 ≤ kernelEndVirtual
  word : kernelEndVirtual < 2 ^ 32

/-- `heap_cur`, and the memory the heap is in. -/
structure Kheap where
  memory : Memory
  heapCur : ℕ

def kheapInit (kheap : Kheap) (kinfo : Kinfo) : Kheap :=
  { kheap with heapCur := kinfo.kernelEndVirtual }

/-- The address of the block, and the heap after the request. -/
def kmalloc (kheap : Kheap) (size : ℕ) : ℕ × Kheap :=
  let ret := kheap.heapCur
  (ret, ⟨memset kheap.memory ret 0#8 size, offset kheap.heapCur size⟩)

/-- The loop of `kmalloc_align`, with a bound on its turns. -/
def nextAligned (alignment : ℕ) : ℕ → ℕ → Option ℕ
  | 0, _ => none
  | turns + 1, next =>
      if next % alignment = 0 then
        some next
      else
        nextAligned alignment turns (offset next 1)

/-- Among `alignment` addresses in a row one is aligned, so the loop needs no more
turns than that. For the alignment zero the remainder is a division by zero, and
the call has no result. -/
def kmallocAlign (kheap : Kheap) (size alignment : ℕ) : Option (ℕ × Kheap) :=
  match nextAligned alignment alignment kheap.heapCur with
  | none => none
  | some next => some (next, ⟨memset kheap.memory next 0#8 size, offset next size⟩)

/-! ## What the loop finds -/

/-- The loop ends at the least aligned address, when the address space does not end
before it. -/
theorem nextAligned_eq {alignment turns next target : ℕ} (above : next ≤ target)
    (word : target < 2 ^ 32) (within : target < next + turns) (aligned : target % alignment = 0)
    (least : ∀ address, next ≤ address → address % alignment = 0 → target ≤ address) :
    nextAligned alignment turns next = some target := by
  induction turns generalizing next with
  | zero => omega
  | succ turns ih =>
      rw [nextAligned]
      by_cases here : next % alignment = 0
      · have same := least next (Nat.le_refl _) here
        rw [if_pos here, Nat.le_antisymm above same]
      · have different : next ≠ target := by
          intro equal
          exact here (equal ▸ aligned)
        rw [if_neg here, offset_eq (by omega)]
        apply ih (by omega) (by omega)
        intro address later addressAligned
        exact least address (by omega) addressAligned

/-- The address space ends at a page boundary, so the loop also ends where the pointer
wraps. -/
theorem nextAligned_page_returns {turns next : ℕ} (enough : (4096 - next % 4096) % 4096 < turns) :
    ∃ found, nextAligned 4096 turns next = some found := by
  induction turns generalizing next with
  | zero => cases enough
  | succ turns ih =>
      rw [nextAligned]
      split
      · exact ⟨next, rfl⟩
      · apply ih
        unfold offset
        omega

theorem kmallocAlign_page_returns (kheap : Kheap) (size : ℕ) :
    ∃ next after, kmallocAlign kheap size 4096 = some (next, after) := by
  have enough : (4096 - kheap.heapCur % 4096) % 4096 < 4096 := Nat.mod_lt _ (by decide)
  obtain ⟨next, found⟩ := nextAligned_page_returns enough
  exact ⟨next, _, by rw [kmallocAlign, found]⟩

theorem le_alignUp_page (address : ℕ) : address ≤ alignUp 4096 address :=
  le_alignUp (by decide) address

theorem alignUp_page_lt (address : ℕ) : alignUp 4096 address < address + 4096 :=
  alignUp_lt (by decide) address

/-- **Aligned requests.** Unless the address space ends before it, the block starts
at the least aligned address from the pointer on, and the heap goes on after it. -/
theorem kmallocAlign_eq (kheap : Kheap) (size : ℕ) {alignment : ℕ} (positive : 0 < alignment)
    (fits : alignUp alignment kheap.heapCur < 2 ^ 32) :
    kmallocAlign kheap size alignment = some (alignUp alignment kheap.heapCur,
      ⟨memset kheap.memory (alignUp alignment kheap.heapCur) 0#8 size,
        offset (alignUp alignment kheap.heapCur) size⟩) := by
  have found : nextAligned alignment alignment kheap.heapCur =
      some (alignUp alignment kheap.heapCur) :=
    nextAligned_eq (le_alignUp positive _) fits (alignUp_lt positive _) (alignUp_mod _ _)
      fun _ => alignUp_le positive
  rw [kmallocAlign, found]

end CatchOS.Mmu
