import CatchOS.Utils.Hashtable

/-!
# Lookups in a hash table

A table is set up and pairs are inserted one after another. Whatever the hash is, and
however the keys collide, a lookup then returns the data of the first pair that was
inserted with the key, and fails without a store to the caller's buffer when there is
none. This is `FirstInsert`, and it holds for every table whose array is as long as its
size says.

The number of bytes of the array is computed in 32 bits. From the size `2 ^ 30` on it
is less than four for each slot, and a lookup may read a slot behind the array:
`firstInsert_iff` says that smaller tables, and only those, work.
-/

set_option autoImplicit false

namespace CatchOS.Utils

open CatchOS.Lib CatchOS.Mmu

/-- A call of `hashtable_insert`, with the blocks that `mmu_mmap` returns. -/
structure Insertion where
  key : List Byte
  data : List Byte
  node : ℕ
  tmp : ℕ

namespace Insertion

def blocks (insertion : Insertion) : List Extent :=
  [⟨insertion.node, htPairSize⟩, ⟨insertion.tmp, insertion.data.length⟩]

def pair (insertion : Insertion) : Pair :=
  ⟨insertion.key, ⟨insertion.node, insertion.tmp, insertion.data⟩⟩

end Insertion

/-- The insertions one after another. -/
def hashtableInsertAll (ht : Hashtable) (heap : Heap) (insertions : List Insertion) :
    Option Heap :=
  insertions.foldlM (fun heap insertion =>
    hashtableInsert heap ht insertion.key insertion.data insertion.node insertion.tmp) heap

/-- The result of `hashtable_get`, and the caller's buffer `out` after it. -/
def hashtableGetOut (heap : Heap) (ht : Hashtable) (key out : List Byte) :
    Option (ℤ × List Byte) :=
  (hashtableGet heap ht key out.length).map fun copied =>
    copied.elim (-1, out) fun data => (0, data)

/-- What a lookup should return: the data of the first insertion with the key. -/
def firstInsert (insertions : List Insertion) (key out : List Byte) : ℤ × List Byte :=
  (insertions.find? fun insertion => insertion.key = key).elim (-1, out) fun insertion =>
    (0, insertion.data)

/-- **The semantics of a table of the given size**: with any hash into the table (`none` is
`hashFNV`), any insertions of keys and data of one length into fresh blocks, and any key, the
calls return and the lookup is that of the first insertion. -/
def FirstInsert (size : ℕ) : Prop :=
  ∀ (hashfunc : Option (List Byte → ℕ → ℕ)) (heap : Heap) (nodes : ℕ)
    (insertions : List Insertion) (key out : List Byte),
    (∀ hash ∈ hashfunc, ∀ key, hash key size < size) →
    heap.Supply (⟨nodes, arrayBytes size⟩ :: insertions.flatMap Insertion.blocks) →
    (∀ insertion ∈ insertions, KeyString insertion.key ∧ insertion.data.length = out.length) →
    KeyString key →
    ∃ start ht after, hashtableInit heap hashfunc size nodes = some (start, ht) ∧
      hashtableInsertAll ht start insertions = some after ∧
      hashtableGetOut after ht key out = some (firstInsert insertions key out)

/-! ## Tables whose array is complete -/

theorem arrayBytes_eq {size : ℕ} (small : size < 2 ^ 30) : arrayBytes size = 4 * size :=
  Nat.mod_eq_of_lt (by omega)

/-- A default hash, or one with its range in the table. -/
theorem hash_lt {hashfunc : Option (List Byte → ℕ → ℕ)} {size : ℕ} (positive : 0 < size)
    (range : ∀ hash ∈ hashfunc, ∀ key, hash key size < size) (key : List Byte) :
    hashfunc.getD hashFnv key size < size := by
  cases hashfunc with
  | none => exact hashFnv_lt positive key
  | some hash => exact range hash rfl key

/-- Every insertion appends its pair, as long as there are fresh blocks. -/
theorem Tabled.insertAll {ht : Hashtable} {insertions : List Insertion} {heap : Heap}
    {pairs : List Pair} (tabled : Tabled heap ht pairs)
    (supply : heap.Supply (insertions.flatMap Insertion.blocks))
    (keys : ∀ insertion ∈ insertions, KeyString insertion.key) :
    ∃ after, hashtableInsertAll ht heap insertions = some after ∧
      Tabled after ht (pairs ++ insertions.map Insertion.pair) := by
  induction insertions generalizing heap pairs with
  | nil => exact ⟨heap, rfl, by rwa [List.map_nil, List.append_nil]⟩
  | cons insertion insertions ih =>
      obtain ⟨isKey, keys⟩ := List.forall_mem_cons.mp keys
      rw [List.flatMap_cons] at supply
      have freshNode := supply.1 ⟨insertion.node, htPairSize⟩ List.mem_cons_self
      have freshCopy := supply.1 ⟨insertion.tmp, insertion.data.length⟩
        (List.mem_cons_of_mem _ List.mem_cons_self)
      have apart := (List.pairwise_cons.mp supply.2).1 ⟨insertion.tmp, insertion.data.length⟩
        List.mem_cons_self
      obtain ⟨after, called, inserted, blocks, -⟩ :=
        tabled.insert isKey freshNode freshCopy apart.symm
      have left : after.Supply (insertions.flatMap Insertion.blocks) := by
        refine supply.rest ?_
        rw [blocks]
        refine List.forall_mem_cons.mpr ⟨.inr ?_, List.forall_mem_cons.mpr ⟨.inr ?_, fun _ => .inl⟩⟩
        · exact List.mem_cons_of_mem _ List.mem_cons_self
        · exact List.mem_cons_self
      obtain ⟨last, calledAll, all⟩ := ih inserted left keys
      refine ⟨last, ?_, ?_⟩
      · rw [hashtableInsertAll, List.foldlM_cons, called]
        exact calledAll
      · rw [List.map_cons]
        rwa [List.append_assoc, List.singleton_append] at all

/-- In the list of the pairs the first one with a key is that of the first insertion. -/
theorem find?_map_pair (insertions : List Insertion) (key : List Byte) :
    ((insertions.map Insertion.pair).find? fun pair => pair.key = key).map
        (fun pair => pair.entry.value) =
      (insertions.find? fun insertion => insertion.key = key).map Insertion.data := by
  rw [List.find?_map, Option.map_map]
  rfl

theorem firstInsert_of_small {size : ℕ} (positive : 0 < size) (small : size < 2 ^ 30) :
    FirstInsert size := by
  intro hashfunc heap nodes insertions key out range supply inserted isKey
  rw [arrayBytes_eq small] at supply
  obtain ⟨start, created, tabled, blocks, -⟩ :=
    Tabled.init (supply.1 _ List.mem_cons_self) (hash_lt positive range)
  have left : start.Supply (insertions.flatMap Insertion.blocks) := supply.next blocks
  obtain ⟨after, called, all⟩ := tabled.insertAll left fun insertion member =>
    (inserted insertion member).1
  refine ⟨start, _, after, created, called, ?_⟩
  rw [List.nil_append] at all
  rw [hashtableGetOut, all.get isKey, Option.map_some, find?_map_pair, firstInsert]
  · cases insertions.find? fun insertion => insertion.key = key <;> rfl
  · intro pair member
    obtain ⟨insertion, isInsertion, rfl⟩ := List.mem_map.mp member
    exact (inserted insertion isInsertion).2

/-! ## Tables whose array is too short -/

/-- A byte 1 right behind an array of the given number of bytes at address 4, and zeros. -/
def behindArray (bytes : ℕ) : Memory := fun address =>
  if address = offset 4 bytes then 1 else 0

theorem behindArray_of_ne {bytes address : ℕ} (different : address ≠ offset 4 bytes) :
    behindArray bytes address = 0 :=
  if_neg different

/-- Clearing the array does not change the byte behind it. -/
theorem memset_behindArray {bytes : ℕ} (fits : 4 + bytes ≤ 2 ^ 32) :
    memset (behindArray bytes) 4 0 bytes = behindArray bytes := by
  funext address
  by_cases inside : ∃ i < bytes, offset 4 i = address
  · obtain ⟨i, bound, rfl⟩ := inside
    rw [memset_inside bound, behindArray_of_ne]
    rw [ne_eq, offset_inj (by omega) (by omega)]
    omega
  · exact memset_outside fun i bound same => inside ⟨i, bound, same.symm⟩

/-- The slot behind the array holds the address 1. -/
theorem nodeAt_behindArray {bytes index : ℕ} (behind : 4 * index = bytes)
    {size : ℕ} {hash : List Byte → ℕ → ℕ} :
    nodeAt (behindArray bytes) ⟨4, size, hash⟩ index = 1 := by
  have others (i : ℕ) (positive : 0 < i) (small : i < 4) :
      behindArray bytes (offset (offset 4 bytes) i) = 0 := by
    apply behindArray_of_ne
    unfold offset
    omega
  have first : behindArray bytes (offset (offset 4 bytes) 0) = 1 := by
    rw [offset_offset, Nat.add_zero]
    exact if_pos rfl
  rw [nodeAt, nodeSlot, behind, loadWord, first, others 1 (by decide) (by decide),
    others 2 (by decide) (by decide), others 3 (by decide) (by decide)]
  rfl

/-- From the size `2 ^ 30` on there is a slot behind the array. Nothing was inserted, and the
lookup of the empty key finds a pair there. -/
theorem not_firstInsert_of_large {size : ℕ} (large : 2 ^ 30 ≤ size) : ¬FirstInsert size := by
  intro semantics
  have word : arrayBytes size < 2 ^ 32 := Nat.mod_lt _ (by decide)
  have aligned : 4 * (arrayBytes size / 4) = arrayBytes size := by
    unfold arrayBytes
    omega
  have fits : 4 + arrayBytes size ≤ 2 ^ 32 := by omega
  let heap : Heap := ⟨behindArray (arrayBytes size), [], .nil, inside_nil⟩
  let hash : List Byte → ℕ → ℕ := fun _ _ => arrayBytes size / 4
  have fresh : heap.Fresh ⟨4, arrayBytes size⟩ :=
    ⟨⟨show 4 ≠ 0 by decide, show 4 < 2 ^ 32 by decide, fits⟩,
      fun _ member => absurd member List.not_mem_nil⟩
  have range : ∀ hash' ∈ some hash, ∀ key, hash' key size < size := by
    intro hash' isHash key
    rw [← Option.mem_some_iff.mp isHash]
    show arrayBytes size / 4 < size
    omega
  obtain ⟨start, ht, after, created, inserted, looked⟩ :=
    semantics (some hash) heap 4 [] [] [] range
      ⟨List.forall_mem_singleton.mpr fresh, List.pairwise_singleton _ _⟩
      (fun _ member => absurd member List.not_mem_nil)
      ⟨by decide, fun _ member => absurd member List.not_mem_nil⟩
  obtain ⟨between, requested⟩ := mmuMmap_fresh fresh
  obtain ⟨-, memory, -⟩ := mmuMmap_spec requested
  rw [hashtableInit, requested, Option.map_some, memory, Option.some.injEq,
    Prod.mk.injEq] at created
  obtain ⟨rfl, rfl⟩ := created
  obtain rfl := Option.some.inj inserted
  have cleared : memset heap.memory 4 0 (arrayBytes size) = behindArray (arrayBytes size) :=
    memset_behindArray fits
  -- The slot that the hash selects leads to address 1, and there is an empty key.
  have slot := @nodeAt_behindArray _ _ aligned size hash
  have equal : strcmp (behindArray (arrayBytes size)) (keyPlace 1) [] = 0 := by
    rw [strcmp, behindArray_of_ne]
    · decide
    · unfold keyPlace offset
      omega
  simp only [hashtableGetOut, hashtableGet, Heap.store_memory, cleared, Option.getD_some, hash,
    slot] at looked
  rw [if_pos (by decide), follow, if_pos (by rw [equal]; rfl), Option.map_some,
    if_neg (by decide)] at looked
  have failed : (0 : ℤ) = -1 := congrArg Prod.fst (Option.some.inj looked)
  exact absurd failed (by decide)

/-- **Lookups return the first insert** if and only if the array has four bytes for each
slot. -/
theorem firstInsert_iff {size : ℕ} (positive : 0 < size) :
    FirstInsert size ↔ size < 2 ^ 30 := by
  refine ⟨fun semantics => ?_, firstInsert_of_small positive⟩
  by_contra large
  exact not_firstInsert_of_large (Nat.not_lt.mp large) semantics

/-- A table with one slot, two keys and three insertions: the second one of the first key
does not change what a lookup returns, and the empty key is not found. -/
theorem firstInsert_one_slot : FirstInsert 1 ∧
    ∃ start ht after, hashtableInit ⟨fun _ => 0, [], .nil, nofun⟩ none 1 16 = some (start, ht) ∧
      hashtableInsertAll ht start
        [⟨[65], [1], 0x100, 0x200⟩, ⟨[66], [2], 0x300, 0x400⟩, ⟨[65], [3], 0x500, 0x600⟩] =
          some after ∧
      hashtableGetOut after ht [65] [9] = some (0, [1]) := by
  have semantics : FirstInsert 1 := (firstInsert_iff (by decide)).mpr (by decide)
  exact ⟨semantics, semantics none _ 16 _ [65] [9] nofun (by decide) (by decide) (by decide)⟩

/-- The array of a table with `2 ^ 30 + 1` slots has four bytes. -/
theorem not_firstInsert_short_array :
    arrayBytes (2 ^ 30 + 1) = 4 ∧ ¬FirstInsert (2 ^ 30 + 1) :=
  ⟨by decide, not_firstInsert_of_large (by decide)⟩

end CatchOS.Utils
