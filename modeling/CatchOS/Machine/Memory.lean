import Mathlib.Algebra.Ring.Int.Defs
import Mathlib.Algebra.Ring.Nat
import Mathlib.Logic.Function.Basic

/-!
# Words and memory of the machine

The 32-bit machine the kernel runs on: the `int32_t` and pointer arithmetic of
its C code, and the memory as one byte for every address. The kernel maps memory
to itself, so an address is both the virtual and the physical one.
-/

set_option autoImplicit false

namespace CatchOS

/-! ## Words -/

/-- An `int32_t` that holds the given number: on overflow the value wraps. -/
def int32 (value : ℤ) : ℤ := value.bmod (2 ^ 32)

theorem int32_bounds (value : ℤ) : -(2 ^ 31) ≤ int32 value ∧ int32 value < 2 ^ 31 := by
  have lower := @Int.le_bmod value (2 ^ 32) (by decide)
  have upper := @Int.bmod_lt value (2 ^ 32) (by decide)
  unfold int32
  omega

/-- A counter that wraps is never above the number it stands for. -/
theorem int32_le {value : ℤ} (nonneg : 0 ≤ value) : int32 value ≤ value := by
  rw [int32, Int.bmod_eq_emod]
  split <;> omega

theorem int32_eq {value : ℤ} (lower : -(2 ^ 31) ≤ value) (upper : value < 2 ^ 31) :
    int32 value = value :=
  Int.bmod_eq_of_le (by omega) (by omega)

/-- A step of a counter wraps as the counter itself does. -/
theorem int32_add (value n : ℤ) : int32 (int32 value + n) = int32 (value + n) :=
  Int.bmod_add_bmod

/-- A 32-bit pointer moved up by a number of bytes. -/
def offset (pointer bytes : ℕ) : ℕ := (pointer + bytes) % 2 ^ 32

theorem offset_lt (pointer bytes : ℕ) : offset pointer bytes < 2 ^ 32 :=
  Nat.mod_lt _ (by decide)

/-- Without a wrap the pointer moves by plain addition. -/
theorem offset_eq {pointer bytes : ℕ} (fits : pointer + bytes < 2 ^ 32) :
    offset pointer bytes = pointer + bytes :=
  Nat.mod_eq_of_lt fits

/-- Moving a pointer by two different numbers of bytes gives two addresses, also
when one of the moves wraps. -/
theorem offset_inj {pointer i j : ℕ} (iBound : i < 2 ^ 32) (jBound : j < 2 ^ 32) :
    offset pointer i = offset pointer j ↔ i = j := by
  unfold offset
  omega

/-! ## Memory -/

abbrev Byte := BitVec 8

/-- The byte at every address. -/
abbrev Memory := ℕ → Byte

/-- `_memset`: the bytes that are less than `len` above `dst`, which may wrap. The loop
of the source writes one byte a turn; `memset_succ` is one turn of it. -/
def memset (memory : Memory) (dst : ℕ) (c : Byte) (len : ℕ) : Memory := fun address =>
  if address < 2 ^ 32 ∧ (address + (2 ^ 32 - dst % 2 ^ 32)) % 2 ^ 32 < len then c
  else memory address

/-- A byte that `_memset` reaches has the given value. -/
theorem memset_inside {memory : Memory} {dst len i : ℕ} {c : Byte} (inside : i < len) :
    memset memory dst c len (offset dst i) = c := by
  apply if_pos
  unfold offset
  omega

/-- A byte that `_memset` does not reach keeps its value. -/
theorem memset_outside {memory : Memory} {dst len address : ℕ} {c : Byte}
    (outside : ∀ i < len, address ≠ offset dst i) :
    memset memory dst c len address = memory address := by
  apply if_neg
  rintro ⟨word, near⟩
  apply outside _ near
  unfold offset
  omega

/-- One turn of the loop of `_memset`. -/
theorem memset_succ (memory : Memory) (dst : ℕ) (c : Byte) (len : ℕ) :
    memset memory dst c (len + 1) =
      Function.update (memset memory dst c len) (offset dst len) c := by
  funext address
  by_cases here : address = offset dst len
  · rw [here, Function.update_self, memset_inside (Nat.lt_succ_self len)]
  · rw [Function.update_of_ne here]
    have same : (address < 2 ^ 32 ∧ (address + (2 ^ 32 - dst % 2 ^ 32)) % 2 ^ 32 < len + 1) ↔
        (address < 2 ^ 32 ∧ (address + (2 ^ 32 - dst % 2 ^ 32)) % 2 ^ 32 < len) := by
      unfold offset at here
      omega
    unfold memset
    simp only [same]

/-- Below a block that does not wrap `_memset` changes nothing. -/
theorem memset_below {memory : Memory} {dst len address : ℕ} {c : Byte}
    (below : address < dst) (fits : dst + len ≤ 2 ^ 32) :
    memset memory dst c len address = memory address := by
  apply memset_outside
  intro i bound
  rw [offset_eq (by omega)]
  omega

/-! ## Words in memory -/

/-- The `uint32_t` at an address; the low byte comes first. -/
def loadWord (memory : Memory) (address : ℕ) : ℕ :=
  (memory (offset address 0)).toNat + 2 ^ 8 * (memory (offset address 1)).toNat +
    2 ^ 16 * (memory (offset address 2)).toNat + 2 ^ 24 * (memory (offset address 3)).toNat

def storeWord (memory : Memory) (address value : ℕ) : Memory :=
  (List.range 4).foldl
    (fun memory i =>
      Function.update memory (offset address i) (BitVec.ofNat 8 (value / 2 ^ (8 * i))))
    memory

/-- A byte outside the word keeps its value. -/
theorem storeWord_frame {memory : Memory} {address value other : ℕ}
    (outside : ∀ i < 4, other ≠ offset address i) :
    storeWord memory address value other = memory other := by
  unfold storeWord
  have inRange : ∀ i ∈ List.range 4, other ≠ offset address i := by
    intro i member
    exact outside i (List.mem_range.mp member)
  generalize List.range 4 = places at inRange
  induction places generalizing memory with
  | nil => rfl
  | cons place places ih =>
      rw [List.foldl_cons, ih fun i member => inRange i (List.mem_cons_of_mem _ member)]
      exact Function.update_of_ne (inRange place List.mem_cons_self) _ _

/-- A word depends on its own four bytes only. -/
theorem loadWord_congr {memory memory' : Memory} {address : ℕ}
    (same : ∀ i < 4, memory' (offset address i) = memory (offset address i)) :
    loadWord memory' address = loadWord memory address := by
  simp only [loadWord, same 0 (by decide), same 1 (by decide), same 2 (by decide),
    same 3 (by decide)]

theorem loadWord_lt (memory : Memory) (address : ℕ) : loadWord memory address < 2 ^ 32 := by
  have byte0 := (memory (offset address 0)).isLt
  have byte1 := (memory (offset address 1)).isLt
  have byte2 := (memory (offset address 2)).isLt
  have byte3 := (memory (offset address 3)).isLt
  unfold loadWord
  omega

/-- A byte of the word that is loaded. -/
theorem byte_loadWord {memory : Memory} {address i : ℕ} (bound : i < 4) :
    BitVec.ofNat 8 (loadWord memory address / 2 ^ (8 * i)) = memory (offset address i) := by
  have byte0 := (memory (offset address 0)).isLt
  have byte1 := (memory (offset address 1)).isLt
  have byte2 := (memory (offset address 2)).isLt
  have byte3 := (memory (offset address 3)).isLt
  apply BitVec.eq_of_toNat_eq
  rw [BitVec.toNat_ofNat, loadWord]
  rcases (by omega : i = 0 ∨ i = 1 ∨ i = 2 ∨ i = 3) with rfl | rfl | rfl | rfl
  all_goals omega

/-- A word whose bytes are those of a value. -/
theorem loadWord_of_bytes {memory : Memory} {address value : ℕ} (word : value < 2 ^ 32)
    (bytes : ∀ i < 4, memory (offset address i) = BitVec.ofNat 8 (value / 2 ^ (8 * i))) :
    loadWord memory address = value := by
  simp only [loadWord, bytes 0 (by decide), bytes 1 (by decide), bytes 2 (by decide),
    bytes 3 (by decide), BitVec.toNat_ofNat]
  omega

/-- A byte of the word that was stored. -/
theorem storeWord_byte {memory : Memory} {address value i : ℕ} (bound : i < 4) :
    storeWord memory address value (offset address i) = BitVec.ofNat 8 (value / 2 ^ (8 * i)) := by
  have place (j : ℕ) (small : j < 4) : offset address i = offset address j ↔ i = j :=
    offset_inj (by omega) (by omega)
  have turns : List.range 4 = [0, 1, 2, 3] := rfl
  simp only [storeWord, turns, List.foldl_cons, List.foldl_nil, Function.update_apply,
    place 0 (by decide), place 1 (by decide), place 2 (by decide), place 3 (by decide)]
  rcases (by omega : i = 0 ∨ i = 1 ∨ i = 2 ∨ i = 3) with rfl | rfl | rfl | rfl <;> rfl

/-- A word that was stored is loaded again. -/
theorem loadWord_storeWord {memory : Memory} {address value : ℕ} (word : value < 2 ^ 32) :
    loadWord (storeWord memory address value) address = value :=
  loadWord_of_bytes word fun _ => storeWord_byte

/-- A store does not change a word that has no byte in common with it. -/
theorem loadWord_storeWord_of_apart {memory : Memory} {address other value : ℕ}
    (fits : address + 4 ≤ 2 ^ 32) (otherFits : other + 4 ≤ 2 ^ 32)
    (apart : other + 4 ≤ address ∨ address + 4 ≤ other) :
    loadWord (storeWord memory address value) other = loadWord memory other := by
  apply loadWord_congr
  intro i bound
  apply storeWord_frame
  intro j small
  rw [offset_eq (by omega), offset_eq (by omega)]
  omega

/-! ## Runs of bytes -/

/-- The `len` bytes from an address on. -/
def readBytes (memory : Memory) (address len : ℕ) : List Byte :=
  (List.range len).map fun i => memory (offset address i)

/-- `_memcpy` of the given bytes: the loop writes one byte a turn. -/
def writeBytes (memory : Memory) : ℕ → List Byte → Memory
  | _, [] => memory
  | dst, byte :: bytes =>
      writeBytes (Function.update memory (offset dst 0) byte) (offset dst 1) bytes

theorem length_readBytes (memory : Memory) (address len : ℕ) :
    (readBytes memory address len).length = len := by
  rw [readBytes, List.length_map, List.length_range]

/-- Bytes that agree in memory are read alike. -/
theorem readBytes_congr {memory memory' : Memory} {address len : ℕ}
    (same : ∀ i < len, memory' (offset address i) = memory (offset address i)) :
    readBytes memory' address len = readBytes memory address len :=
  List.map_congr_left fun i member => same i (List.mem_range.mp member)

theorem offset_offset (pointer i j : ℕ) : offset (offset pointer i) j = offset pointer (i + j) := by
  unfold offset
  omega

theorem readBytes_succ (memory : Memory) (address len : ℕ) :
    readBytes memory address (len + 1) =
      memory (offset address 0) :: readBytes memory (offset address 1) len := by
  rw [readBytes, List.range_succ_eq_map, List.map_cons, List.map_map]
  refine congrArg _ (List.map_congr_left fun i _ => ?_)
  rw [Function.comp_apply, offset_offset, Nat.succ_eq_add_one, Nat.add_comm i 1]

theorem readBytes_concat (memory : Memory) (address len : ℕ) :
    readBytes memory address (len + 1) =
      readBytes memory address len ++ [memory (offset address len)] := by
  rw [readBytes, List.range_succ, List.map_append, List.map_singleton]
  rfl

/-- A byte outside the run keeps its value. -/
theorem writeBytes_frame {memory : Memory} {dst other : ℕ} {bytes : List Byte}
    (outside : ∀ i < bytes.length, other ≠ offset dst i) :
    writeBytes memory dst bytes other = memory other := by
  induction bytes generalizing memory dst with
  | nil => rfl
  | cons byte bytes ih =>
      rw [writeBytes, ih, Function.update_of_ne (outside 0 (Nat.zero_lt_succ _))]
      intro i bound
      rw [offset_offset]
      exact outside (1 + i) (by rw [List.length_cons]; omega)

/-- The bytes that were written are read again. -/
theorem readBytes_writeBytes {memory : Memory} {dst : ℕ} {bytes : List Byte}
    (fits : bytes.length ≤ 2 ^ 32) :
    readBytes (writeBytes memory dst bytes) dst bytes.length = bytes := by
  induction bytes generalizing memory dst with
  | nil => rfl
  | cons byte bytes ih =>
      rw [List.length_cons] at fits
      rw [List.length_cons, readBytes, List.range_succ_eq_map, List.map_cons, List.map_map,
        writeBytes]
      congr 1
      · rw [writeBytes_frame, Function.update_self]
        intro i bound
        rw [offset_offset, ne_eq, offset_inj (by omega) (by omega)]
        omega
      · have rest := @ih (Function.update memory (offset dst 0) byte) (offset dst 1) (by omega)
        refine Eq.trans (List.map_congr_left ?_) rest
        intro i _
        rw [Function.comp_apply, offset_offset, Nat.succ_eq_add_one, Nat.add_comm i 1]

section Copies

variable {memory : Memory} {dst src : ℕ}

theorem writeBytes_append (memory : Memory) (dst : ℕ) (front back : List Byte) :
    writeBytes memory dst (front ++ back) =
      writeBytes (writeBytes memory dst front) (offset dst front.length) back := by
  induction front generalizing memory dst with
  | nil =>
      cases back with
      | nil => rfl
      | cons byte bytes =>
          rw [List.nil_append, List.length_nil, writeBytes, writeBytes, writeBytes, offset_offset,
            offset_offset]
  | cons byte bytes ih =>
      rw [List.cons_append, writeBytes, writeBytes, ih, offset_offset, List.length_cons,
        Nat.add_comm 1]

theorem readBytes_add (memory : Memory) (address first second : ℕ) :
    readBytes memory address (first + second) =
      readBytes memory address first ++ readBytes memory (offset address first) second := by
  induction second with
  | zero => simp [readBytes]
  | succ second ih =>
      rw [← Nat.add_assoc, readBytes_concat, readBytes_concat, ih, List.append_assoc, offset_offset]

theorem readBytes_take (memory : Memory) (address len n : ℕ) :
    (readBytes memory address len).take n = readBytes memory address (min n len) := by
  rw [readBytes, ← List.map_take, List.take_range, readBytes]

/-- One byte of a run of bytes is written. -/
theorem readBytes_update {memory : Memory} {address len i : ℕ} {byte : Byte} (fits : len ≤ 2 ^ 32)
    (inside : i < len) :
    readBytes (Function.update memory (offset address i) byte) address len =
      (readBytes memory address len).set i byte := by
  apply List.ext_getElem
  · rw [List.length_set, length_readBytes, length_readBytes]
  · intro j bound _
    rw [length_readBytes] at bound
    simp only [readBytes, List.getElem_set, List.getElem_map, List.getElem_range]
    by_cases same : i = j
    · rw [if_pos same, ← same, Function.update_self]
    · rw [if_neg same, Function.update_of_ne]
      rw [ne_eq, offset_inj (by omega) (by omega)]
      exact fun equal => same equal.symm

/-- `_memset` writes one byte over and over. -/
theorem memset_eq_writeBytes (memory : Memory) (dst : ℕ) (c : Byte) (len : ℕ) :
    memset memory dst c len = writeBytes memory dst (List.replicate len c) := by
  induction len with
  | zero =>
      funext address
      exact memset_outside fun i bound => absurd bound (Nat.not_lt_zero i)
  | succ len ih =>
      rw [memset_succ, ih, List.replicate_succ', writeBytes_append, List.length_replicate,
        writeBytes,
        writeBytes, offset_offset, Nat.add_zero]

/-- A word that is loaded and stored is four bytes that are copied. -/
theorem storeWord_loadWord (memory : Memory) (dst src : ℕ) :
    storeWord memory dst (loadWord memory src) =
      writeBytes memory dst (readBytes memory src 4) := by
  have turns : List.range 4 = [0, 1, 2, 3] := rfl
  simp only [storeWord, readBytes, turns, List.foldl_cons, List.foldl_nil, List.map_cons,
    List.map_nil, writeBytes, offset_offset]
  rw [byte_loadWord (by decide), byte_loadWord (by decide), byte_loadWord (by decide),
    byte_loadWord (by decide)]

/-- Bytes that lie elsewhere are read as before. -/
theorem readBytes_writeBytes_of_apart {bytes : List Byte} {len : ℕ}
    (fits : dst + bytes.length ≤ 2 ^ 32)
    (srcFits : src + len ≤ 2 ^ 32) (apart : dst + bytes.length ≤ src ∨ src + len ≤ dst) :
    readBytes (writeBytes memory dst bytes) src len = readBytes memory src len := by
  apply readBytes_congr
  intro i bound
  apply writeBytes_frame
  intro j inBytes
  rw [offset_eq (by omega), offset_eq (by omega)]
  omega

end Copies

end CatchOS
