import CatchOS.Utils.List
import CatchOS.Utils.StringOrder
import Mathlib.Data.List.Find

/-!
# Hash tables

`hashtable.c`: an array of linked lists. The pairs of a list are nodes that carry
their key after the `list_head`, as a string of at most 64 bytes. A pair is inserted
at the end of the list that the hash of its key selects, also when the key is there
already, and a lookup takes the first pair of that list with the key.

`Tabled` says how pairs lie in the heap: all of them are laid out apart, and the list
of an index holds those whose key has this hash, in the order in which they were
inserted. Inserting a pair appends it (`Tabled.insert`), and a lookup finds the first
pair with the key among all of them (`Tabled.get`): whatever the hash is, two pairs
with the same key are in the same list.
-/

set_option autoImplicit false

namespace CatchOS.Utils

open CatchOS.Lib CatchOS.Mmu

/-! ## The functions -/

/-- `FNV_PRIME`. -/
def fnvPrime : ℕ := 0x811C9DC5

/-- The hash of a string; `size_t` has 32 bits. -/
def hashFnv (str : List Byte) (max : ℕ) : ℕ :=
  str.foldl (fun hash c => (hash * fnvPrime % 2 ^ 32) ^^^ c.toNat) 0 % max

/-- `HT_MAX_KEY_LEN`. -/
def htMaxKeyLen : ℕ := 64

/-- `sizeof(struct ht_pair)`. -/
def htPairSize : ℕ := 8 + htMaxKeyLen

/-- `struct hashtable`. -/
structure Hashtable where
  nodes : ℕ
  size : ℕ
  hash : List Byte → ℕ → ℕ

/-- `&ht->nodes[index]`. -/
def nodeSlot (ht : Hashtable) (index : ℕ) : ℕ := offset ht.nodes (4 * index)

/-- `ht->nodes[index]`. -/
def nodeAt (memory : Memory) (ht : Hashtable) (index : ℕ) : ℕ := loadWord memory (nodeSlot ht index)

/-- `size * sizeof(*ht->nodes)`; `size_t` has 32 bits. -/
def arrayBytes (size : ℕ) : ℕ := 4 * size % 2 ^ 32

/-- The array is the block at `nodes`. -/
def hashtableInit (heap : Heap) (hashfunc : Option (List Byte → ℕ → ℕ)) (size nodes : ℕ) :
    Option (Heap × Hashtable) :=
  (mmuMmap heap ⟨nodes, arrayBytes size⟩).map fun heap =>
    (heap.store (memset heap.memory nodes 0 (arrayBytes size)),
      ⟨nodes, size, hashfunc.getD hashFnv⟩)

/-- `&node->key`. -/
def keyPlace (node : ℕ) : ℕ := offset node 8

/-- The `_memset` and the `_strncpy` of a key. -/
def storeKey (memory : Memory) (node : ℕ) (key : List Byte) : Memory :=
  writeBytes (memset memory (keyPlace node) 0 htMaxKeyLen) (keyPlace node) (key.take htMaxKeyLen)

/-- The blocks that `mmu_mmap` returns are arguments: the node and the copy of the
data. -/
def hashtableInsert (heap : Heap) (ht : Hashtable) (key data : List Byte) (node tmp : ℕ) :
    Option Heap :=
  let index := ht.hash key ht.size
  if nodeAt heap.memory ht index = 0 then
    (mmuMmap heap ⟨node, htPairSize⟩).bind fun heap =>
      let heap := heap.store (storeWord heap.memory (nodeSlot ht index) node)
      (listCreateNoalloc heap data (nodeAt heap.memory ht index) tmp).map fun heap =>
        heap.store (storeKey heap.memory (nodeAt heap.memory ht index) key)
  else
    (mmuMmap heap ⟨node, htPairSize⟩).bind fun heap =>
      let heap := heap.store (setNext heap.memory node 0)
      (listInsertBackNoalloc heap (nodeAt heap.memory ht index) data node tmp).map fun (_, heap) =>
        heap.store (storeKey heap.memory node key)

/-- The bytes that are copied to `out`, or `none` for the result `-1`. The loop is
bounded by the number of blocks. -/
def hashtableGet (heap : Heap) (ht : Hashtable) (key : List Byte) (dataSize : ℕ) :
    Option (Option (List Byte)) :=
  let index := ht.hash key ht.size
  if nodeAt heap.memory ht index ≠ 0 then
    (follow (listNext heap.memory)
      (fun real => real = 0 || strcmp heap.memory (keyPlace real) key = 0)
      (heap.blocks.length + 1) (nodeAt heap.memory ht index)).map fun real =>
        if real = 0 then none
        else some (readBytes heap.memory (listData heap.memory real) dataSize)
  else
    some none

/-! ## Strings -/

/-- A string that fits into a key, with its final zero. -/
structure KeyString (key : List Byte) : Prop where
  short : key.length < htMaxKeyLen
  nonzero : ∀ c ∈ key, c ≠ 0

instance (key : List Byte) : Decidable (KeyString key) :=
  decidable_of_iff (key.length < htMaxKeyLen ∧ ∀ c ∈ key, c ≠ 0)
    ⟨fun both => ⟨both.1, both.2⟩, fun isKey => ⟨isKey.short, isKey.nonzero⟩⟩

/-- A key that was stored is there as a string. -/
theorem storeKey_string (memory : Memory) (node : ℕ) {key : List Byte} (isKey : KeyString key) :
    StringAt (storeKey memory node key) (keyPlace node) key := by
  have short : key.length < 64 := isKey.short
  have whole : key.take htMaxKeyLen = key := List.take_of_length_le isKey.short.le
  rw [StringAt, readBytes_concat, storeKey, whole, readBytes_writeBytes (by omega),
    writeBytes_frame, memset_inside isKey.short]
  intro i bound
  rw [ne_eq, offset_inj (by omega) (by omega)]
  omega

/-- Storing a key changes the bytes of the key only. -/
theorem storeKey_frame {memory : Memory} {node address : ℕ} {key : List Byte}
    (fits : node + htPairSize ≤ 2 ^ 32)
    (outside : address < node + 8 ∨ node + htPairSize ≤ address) :
    storeKey memory node key address = memory address := by
  unfold htPairSize htMaxKeyLen at fits outside
  have place : keyPlace node = node + 8 := offset_eq (by omega)
  have copied : (key.take htMaxKeyLen).length ≤ 64 := by
    rw [List.length_take]
    exact Nat.min_le_left _ _
  rw [storeKey, writeBytes_frame, memset_outside]
  · intro i bound
    unfold htMaxKeyLen at bound
    rw [place, offset_eq (by omega)]
    omega
  · intro i bound
    rw [place, offset_eq (by omega)]
    omega

/-! ## The end of a list -/

theorem listGetTailLoop_eq {memory : Memory} {start head last turns : ℕ} {nodes : List ℕ}
    (chain : Chain (listNext memory) 0 start nodes) (ends : (head :: nodes).getLast? = some last)
    (enough : nodes.length < turns) : listGetTailLoop memory turns start head = some last := by
  induction chain generalizing head turns with
  | nil =>
      obtain ⟨left, rfl⟩ := Nat.exists_eq_add_of_lt enough
      rw [List.getLast?_singleton] at ends
      rw [listGetTailLoop, if_pos rfl, ends]
  | @cons node rest different _ ih =>
      cases turns with
      | zero => cases enough
      | succ turns =>
          rw [List.getLast?_cons_cons] at ends
          rw [listGetTailLoop, if_neg different]
          exact ih ends (Nat.lt_of_succ_lt_succ enough)

/-! ## How pairs lie in the heap -/

/-- A key, and the node with its data. -/
structure Pair where
  key : List Byte
  entry : Entry

/-- The pairs whose key has the given hash. -/
def bucket (ht : Hashtable) (pairs : List Pair) (index : ℕ) : List Pair :=
  pairs.filter fun pair => ht.hash pair.key ht.size = index

def Hashtable.arrayExtent (ht : Hashtable) : Extent := ⟨ht.nodes, 4 * ht.size⟩

/-- The array and the pairs lie apart in the heap, and the lists are those of the
hashes. -/
structure Buckets (heap : Heap) (ht : Hashtable) (pairs : List Pair) : Prop where
  hash : ∀ key, ht.hash key ht.size < ht.size
  array : ht.arrayExtent ∈ heap.blocks
  laid : Laid heap htPairSize (pairs.map Pair.entry)
  apart : ∀ pair ∈ pairs, ∀ extent ∈ pair.entry.extents htPairSize, ht.arrayExtent.Apart extent
  chain : ∀ index < ht.size, Chain (listNext heap.memory) 0 (nodeAt heap.memory ht index)
    ((bucket ht pairs index).map fun pair => pair.entry.node)

/-- The keys are in their nodes. -/
def Keyed (memory : Memory) (pairs : List Pair) : Prop :=
  ∀ pair ∈ pairs, KeyString pair.key ∧ StringAt memory (keyPlace pair.entry.node) pair.key

structure Tabled (heap : Heap) (ht : Hashtable) (pairs : List Pair) : Prop where
  buckets : Buckets heap ht pairs
  keyed : Keyed heap.memory pairs

theorem bucket_append (ht : Hashtable) (pairs : List Pair) (new : Pair) (index : ℕ) :
    bucket ht (pairs ++ [new]) index =
      if ht.hash new.key ht.size = index then bucket ht pairs index ++ [new]
      else bucket ht pairs index := by
  rw [bucket, List.filter_append]
  split
  · rename_i here
    rw [List.filter_cons_of_pos (by rwa [decide_eq_true_eq]), List.filter_nil]
    rfl
  · rename_i elsewhere
    rw [List.filter_cons_of_neg (by rwa [decide_eq_true_eq]), List.filter_nil, List.append_nil]
    rfl

theorem wide : 8 ≤ htPairSize := by decide

/-- The `list_head` is a part of the node. -/
theorem head_contains {entry : Entry} {address : ℕ} (above : entry.node ≤ address)
    (below : address < entry.node + 8) : (entry.nodeExtent htPairSize).Contains address :=
  ⟨above, Nat.lt_of_lt_of_le below (Nat.add_le_add_left wide _)⟩

namespace Buckets

variable {heap after : Heap} {ht : Hashtable} {pairs : List Pair} {pair : Pair} {index : ℕ}

theorem entry_mem (member : pair ∈ pairs) : pair.entry ∈ pairs.map Pair.entry :=
  List.mem_map_of_mem member

/-- The slots of the array do not wrap. -/
theorem slot_eq (buckets : Buckets heap ht pairs) (bound : index < ht.size) :
    nodeSlot ht index = ht.nodes + 4 * index ∧ ht.nodes + 4 * index + 4 ≤ 2 ^ 32 := by
  have fits : ht.nodes + 4 * ht.size ≤ 2 ^ 32 := (heap.inside _ buckets.array).2.2
  exact ⟨offset_eq (by omega), by omega⟩

/-- A slot depends on the bytes of the array. -/
theorem nodeAt_congr (buckets : Buckets heap ht pairs) (bound : index < ht.size)
    {memory memory' : Memory}
    (same : ∀ address, ht.arrayExtent.Contains address → memory' address = memory address) :
    nodeAt memory' ht index = nodeAt memory ht index := by
  obtain ⟨slot, fits⟩ := buckets.slot_eq bound
  refine loadWord_congr fun i small => same _ ?_
  rw [slot, offset_eq (by omega)]
  exact Extent.contains_mk (by omega) (by omega)

/-- The `next` word of a node depends on its own bytes. -/
theorem listNext_congr (buckets : Buckets heap ht pairs) (member : pair ∈ pairs) {memory : Memory}
    (same : ∀ address, pair.entry.node ≤ address → address < pair.entry.node + 8 →
      memory address = heap.memory address) :
    listNext memory pair.entry.node = listNext heap.memory pair.entry.node := by
  have fits := buckets.laid.node_fits (entry_mem member)
  unfold htPairSize htMaxKeyLen at fits
  refine loadWord_congr fun i bound => ?_
  rw [offset_eq (by omega)]
  exact same _ (by omega) (by omega)

/-- The list of an index depends on the heads of the nodes. -/
theorem chain_congr (buckets : Buckets heap ht pairs) (bound : index < ht.size) {memory : Memory}
    (heads : ∀ pair ∈ pairs, ∀ address, pair.entry.node ≤ address →
      address < pair.entry.node + 8 → memory address = heap.memory address) :
    Chain (listNext memory) 0 (nodeAt heap.memory ht index)
      ((bucket ht pairs index).map fun pair => pair.entry.node) := by
  refine (buckets.chain index bound).congr fun node member => ?_
  obtain ⟨pair, inBucket, rfl⟩ := List.mem_map.mp member
  have isPair := List.mem_of_mem_filter inBucket
  exact buckets.listNext_congr isPair (heads pair isPair)

/-- Changes outside the array, the heads of the nodes and the copies. -/
theorem of_memory (buckets : Buckets heap ht pairs)
    (blocks : ∀ block ∈ heap.blocks, block ∈ after.blocks)
    (array : ∀ address, ht.arrayExtent.Contains address →
      after.memory address = heap.memory address)
    (heads : ∀ pair ∈ pairs, ∀ address, pair.entry.node ≤ address →
      address < pair.entry.node + 8 → after.memory address = heap.memory address)
    (copies : ∀ pair ∈ pairs, ∀ address, pair.entry.dataExtent.Contains address →
      after.memory address = heap.memory address) : Buckets after ht pairs := by
  refine ⟨buckets.hash, blocks _ buckets.array, ?_, buckets.apart, fun index bound => ?_⟩
  · refine buckets.laid.of_memory wide blocks ?_ ?_
    · intro entry member address above below
      obtain ⟨pair, isPair, rfl⟩ := List.mem_map.mp member
      exact heads pair isPair address (by omega) below
    · intro entry member
      obtain ⟨pair, isPair, rfl⟩ := List.mem_map.mp member
      exact copies pair isPair
  · rw [buckets.nodeAt_congr bound array]
    exact buckets.chain_congr bound heads

/-- A list has no more nodes than the heap has blocks. -/
theorem length_le (buckets : Buckets heap ht pairs) (bound : index < ht.size) :
    (bucket ht pairs index).length ≤ heap.blocks.length := by
  have some' : ((bucket ht pairs index).map Pair.entry).Sublist (pairs.map Pair.entry) :=
    List.filter_sublist.map _
  have laid : Laid heap htPairSize ((bucket ht pairs index).map Pair.entry) :=
    ⟨fun entry member => buckets.laid.blocks entry (some'.subset member),
      buckets.laid.apart.sublist (some'.flatMap _),
      fun entry member => buckets.laid.stored entry (some'.subset member)⟩
  have nodup := (buckets.chain index bound).nodup
  have count := laid.length_le (by rwa [List.map_map])
  rwa [List.length_map] at count

/-- The list of an empty slot is empty. -/
theorem bucket_nil (buckets : Buckets heap ht pairs) (bound : index < ht.size)
    (empty : nodeAt heap.memory ht index = 0) : bucket ht pairs index = [] :=
  List.map_eq_nil_iff.mp ((buckets.chain index bound).nil_iff.mpr empty)

end Buckets

/-! ## Looking up -/

section Get

variable {heap : Heap} {ht : Hashtable} {pairs : List Pair} {key : List Byte}

/-- The first pair with a key is in the list of its hash. -/
theorem find?_bucket (ht : Hashtable) (pairs : List Pair) (key : List Byte) :
    (bucket ht pairs (ht.hash key ht.size)).find? (fun pair => pair.key = key) =
      pairs.find? fun pair => pair.key = key := by
  rw [bucket, List.find?_filter]
  refine List.find?_congr fun pair _ => ?_
  by_cases same : pair.key = key
  · simp [same]
  · simp [same]

/-- **A lookup** finds the first pair that was inserted with the key, and copies from its data. -/
theorem Tabled.get_read (tabled : Tabled heap ht pairs) (isKey : KeyString key) (dataSize : ℕ) :
    hashtableGet heap ht key dataSize =
      some ((pairs.find? fun pair => pair.key = key).map fun pair =>
        readBytes heap.memory pair.entry.data dataSize) := by
  have bound := tabled.buckets.hash key
  have chain := tabled.buckets.chain _ bound
  have count := tabled.buckets.length_le bound
  have lookup := find?_bucket ht pairs key
  unfold hashtableGet
  generalize ht.hash key ht.size = index at bound chain count lookup
  dsimp only
  by_cases empty : nodeAt heap.memory ht index = 0
  · rw [tabled.buckets.bucket_nil bound empty, List.find?_nil] at lookup
    rw [if_neg (not_not.mpr empty), ← lookup, Option.map_none]
  · rw [if_pos empty]
    -- On the nodes of the list the test of the loop is that of the keys.
    have tests : ((bucket ht pairs index).map fun pair => pair.entry.node).find?
        (fun real => real = 0 || strcmp heap.memory (keyPlace real) key = 0) =
        (pairs.find? fun pair => pair.key = key).map fun pair => pair.entry.node := by
      rw [List.find?_map, ← lookup]
      refine congrArg _ (List.find?_congr fun pair inBucket => ?_)
      have isPair := List.mem_of_mem_filter inBucket
      have nonnull := chain.ne_null _ (List.mem_map_of_mem inBucket)
      obtain ⟨ownKey, held⟩ := tabled.keyed pair isPair
      have compared := strcmp_eq_zero held ownKey.nonzero isKey.nonzero
      simp [nonnull, compared]
    cases found : pairs.find? (fun pair => pair.key = key) with
    | none =>
        rw [found, Option.map_none] at tests
        rw [chain.follow_null tests (by simp) (by rw [List.length_map]; omega)]
        simp
    | some pair =>
        rw [found, Option.map_some] at tests
        have isPair := List.mem_of_find?_eq_some found
        have stored := tabled.buckets.laid.stored _ (Buckets.entry_mem isPair)
        have nonnull : pair.entry.node ≠ 0 :=
          (heap.inside _ (tabled.buckets.laid.node_mem (Buckets.entry_mem isPair))).1
        rw [chain.follow_found tests (by rw [List.length_map]; omega), Option.map_some,
          if_neg nonnull, stored.data, Option.map_some]

/-- These are the data that were inserted. -/
theorem Tabled.get (tabled : Tabled heap ht pairs) (isKey : KeyString key) {dataSize : ℕ}
    (sizes : ∀ pair ∈ pairs, pair.entry.value.length = dataSize) :
    hashtableGet heap ht key dataSize =
      some ((pairs.find? fun pair => pair.key = key).map fun pair => pair.entry.value) := by
  rw [tabled.get_read isKey]
  cases found : pairs.find? (fun pair => pair.key = key) with
  | none => rfl
  | some pair =>
      have isPair := List.mem_of_find?_eq_some found
      have stored := tabled.buckets.laid.stored _ (Buckets.entry_mem isPair)
      rw [Option.map_some, Option.map_some, ← sizes pair isPair, stored.value]

end Get

/-! ## An empty table -/

theorem hashFnv_lt {max : ℕ} (positive : 0 < max) (str : List Byte) : hashFnv str max < max :=
  Nat.mod_lt _ positive

/-- A new table has no pairs, and its array is a block that was not there before. -/
theorem Tabled.init {heap : Heap} {hashfunc : Option (List Byte → ℕ → ℕ)} {size nodes : ℕ}
    (fresh : heap.Fresh ⟨nodes, 4 * size⟩)
    (hash : ∀ key, hashfunc.getD hashFnv key size < size) :
    ∃ after, hashtableInit heap hashfunc size nodes =
        some (after, ⟨nodes, size, hashfunc.getD hashFnv⟩) ∧
      Tabled after ⟨nodes, size, hashfunc.getD hashFnv⟩ [] ∧
      after.blocks = ⟨nodes, 4 * size⟩ :: heap.blocks ∧
      ∀ block ∈ heap.blocks, ∀ address, block.Contains address →
        after.memory address = heap.memory address := by
  obtain ⟨between, requested⟩ := mmuMmap_fresh fresh
  obtain ⟨⟨⟨nonnull, -, fits⟩, apart⟩, memory, blocks⟩ := mmuMmap_spec requested
  have whole : arrayBytes size = 4 * size := by
    simp only at nonnull fits
    exact Nat.mod_eq_of_lt (by omega)
  refine ⟨between.store (memset between.memory nodes 0 (4 * size)),
    by rw [hashtableInit, whole, requested, Option.map_some],
    ⟨⟨hash, ?_, Laid.nil _ _, nofun, ?_⟩, nofun⟩, blocks, ?_⟩
  · rw [Heap.store_blocks, blocks]
    exact List.mem_cons_self
  · intro index (bound : index < size)
    have zero : nodeAt (memset between.memory nodes 0 (4 * size))
        ⟨nodes, size, hashfunc.getD hashFnv⟩ index = 0 := by
      have byte (i : ℕ) (small : i < 4) :
          memset between.memory nodes 0 (4 * size) (offset (offset nodes (4 * index)) i) = 0 := by
        rw [offset_offset, memset_inside (by omega)]
      rw [nodeAt, nodeSlot, loadWord, byte 0 (by decide), byte 1 (by decide), byte 2 (by decide),
        byte 3 (by decide)]
      rfl
    rw [Heap.store_memory, zero]
    exact .nil
  · intro block member address contained
    rw [Heap.store_memory, ← memory]
    apply memset_outside
    intro i bound same
    simp only at fits
    rw [offset_eq (by omega)] at same
    exact apart block member address (Extent.contains_mk (by omega) (by omega)) contained

/-! ## Storing a key -/

/-- A key is stored inside its node. -/
theorem storeKey_apart {memory : Memory} {node address : ℕ} {key : List Byte} {extent : Extent}
    (fits : node + htPairSize ≤ 2 ^ 32) (apart : Extent.Apart ⟨node, htPairSize⟩ extent)
    (contained : extent.Contains address) : storeKey memory node key address = memory address := by
  have outside := apart.outside contained
  exact storeKey_frame fits (by omega)

/-- A string depends on the bytes of its key only. -/
theorem StringAt.of_memory {memory memory' : Memory} {node : ℕ} {key : List Byte}
    (held : StringAt memory (keyPlace node) key) (isKey : KeyString key)
    (fits : node + htPairSize ≤ 2 ^ 32)
    (same : ∀ address, node + 8 ≤ address → address < node + htPairSize →
      memory' address = memory address) : StringAt memory' (keyPlace node) key := by
  have short := isKey.short
  unfold htPairSize htMaxKeyLen at *
  refine Eq.trans (readBytes_congr fun i bound => ?_) held
  rw [keyPlace, offset_offset, offset_eq (by omega)]
  exact same _ (by omega) (by omega)

/-- Storing a key keeps the lists. -/
theorem Buckets.storeKey {heap : Heap} {ht : Hashtable} {pairs : List Pair} {pair : Pair}
    (buckets : Buckets heap ht pairs) (member : pair ∈ pairs) (key : List Byte) :
    Buckets (heap.store (Utils.storeKey heap.memory pair.entry.node key)) ht pairs := by
  have fits := buckets.laid.node_fits (entry_mem member)
  refine buckets.of_memory (fun _ => id) ?_ ?_ ?_
  · intro address contained
    exact storeKey_apart fits (buckets.apart pair member _ List.mem_cons_self).symm contained
  · intro other otherMember address above below
    by_cases same : pair.entry = other.entry
    · exact storeKey_frame fits (.inl (same ▸ below))
    · exact storeKey_apart fits (buckets.laid.node_apart_node (entry_mem member)
        (entry_mem otherMember) same) (head_contains above below)
  · intro other otherMember address contained
    exact storeKey_apart fits
      (buckets.laid.node_apart_data (entry_mem member) (entry_mem otherMember)) contained

/-! ## A pair that was linked -/

/-- What the calls before the key is stored have done: the new pair is at the end of its
list, and of the blocks that were there one word has changed, a slot of the array or the
`next` of a pair. -/
structure Linked (heap between : Heap) (ht : Hashtable) (pairs : List Pair) (new : Pair)
    (link : ℕ) : Prop where
  place : Extent.Inside ⟨link, 4⟩ ht.arrayExtent ∨ ∃ pair ∈ pairs, link = pair.entry.node
  blocks : between.blocks =
    new.entry.dataExtent :: new.entry.nodeExtent htPairSize :: heap.blocks
  memory : ∀ block ∈ heap.blocks, ∀ address, block.Contains address →
    address < link ∨ link + 4 ≤ address → between.memory address = heap.memory address
  buckets : Buckets between ht (pairs ++ [new])

namespace Linked

variable {heap between : Heap} {ht : Hashtable} {pairs : List Pair} {new : Pair} {link : ℕ}

theorem new_mem : new ∈ pairs ++ [new] := List.mem_append_right _ List.mem_cons_self

/-- The word that has changed is in none of the keys. -/
theorem outside_key (linked : Linked heap between ht pairs new link) {pair : Pair}
    (member : pair ∈ pairs) {address : ℕ} (above : pair.entry.node + 8 ≤ address)
    (below : address < pair.entry.node + htPairSize) : address < link ∨ link + 4 ≤ address := by
  have old {pair : Pair} (member : pair ∈ pairs) : pair ∈ pairs ++ [new] :=
    List.mem_append_left _ member
  have inNode : (pair.entry.nodeExtent htPairSize).Contains address :=
    Extent.contains_mk (by omega) below
  rcases linked.place with inArray | ⟨other, otherMember, rfl⟩
  · exact (inArray.apart
      (linked.buckets.apart pair (old member) _ List.mem_cons_self)).outside inNode
  · by_cases same : other.entry = pair.entry
    · rw [same]
      omega
    · exact Laid.outside_next wide (linked.buckets.laid.node_apart_node
        (Buckets.entry_mem (old otherMember)) (Buckets.entry_mem (old member)) same) inNode

/-- The keys that were there are as they were. -/
theorem key_frame (linked : Linked heap between ht pairs new link) (before : Buckets heap ht pairs)
    {pair : Pair} (member : pair ∈ pairs) {address : ℕ} (above : pair.entry.node + 8 ≤ address)
    (below : address < pair.entry.node + htPairSize) :
    storeKey between.memory new.entry.node new.key address = heap.memory address := by
  have isEntry := Buckets.entry_mem member
  have laid := linked.buckets.laid
  rw [List.map_append, List.map_singleton] at laid
  have isNew : new.entry ∈ pairs.map Pair.entry ++ [new.entry] :=
    List.mem_append_right _ List.mem_cons_self
  have apart := laid.node_apart_node isNew (List.mem_append_left _ isEntry)
    (laid.ne_new wide isEntry).symm
  have inNode : (pair.entry.nodeExtent htPairSize).Contains address :=
    Extent.contains_mk (by omega) below
  rw [storeKey_apart (laid.node_fits isNew) apart inNode]
  exact linked.memory _ (before.laid.node_mem isEntry) address inNode
    (linked.outside_key member above below)

/-- With its key stored the new pair is in the table. -/
theorem tabled (linked : Linked heap between ht pairs new link) (before : Tabled heap ht pairs)
    (isKey : KeyString new.key) :
    Tabled (between.store (storeKey between.memory new.entry.node new.key)) ht
      (pairs ++ [new]) := by
  refine ⟨linked.buckets.storeKey new_mem _, List.forall_mem_append.mpr ⟨?_, ?_⟩⟩
  · intro pair member
    obtain ⟨ownKey, held⟩ := before.keyed pair member
    have fits := before.buckets.laid.node_fits (Buckets.entry_mem member)
    refine ⟨ownKey, held.of_memory ownKey fits fun address above below => ?_⟩
    exact linked.key_frame before.buckets member above below
  · intro pair isNew
    rw [List.mem_singleton.mp isNew]
    exact ⟨isKey, storeKey_string _ _ isKey⟩

/-- Blocks that do not belong to the table are as they were. -/
theorem frame (linked : Linked heap between ht pairs new link) {block : Extent}
    (member : block ∈ heap.blocks) (notArray : block.Apart ht.arrayExtent)
    (notNode : ∀ pair ∈ pairs, block.Apart (pair.entry.nodeExtent htPairSize)) {address : ℕ}
    (contained : block.Contains address) :
    storeKey between.memory new.entry.node new.key address = heap.memory address := by
  have blocks := between.apart
  rw [linked.blocks] at blocks
  have apart := List.rel_of_pairwise_cons (List.pairwise_cons.mp blocks).2 member
  have fits := linked.buckets.laid.node_fits (Buckets.entry_mem new_mem)
  rw [storeKey_apart fits apart contained]
  refine linked.memory block member address contained ?_
  rcases linked.place with inArray | ⟨pair, isPair, rfl⟩
  · exact (inArray.apart notArray.symm).outside contained
  · exact Laid.outside_next wide (notNode pair isPair).symm contained

end Linked

/-! ## Linking a pair -/

theorem listCreateNoalloc_returns {heap : Heap} {data : List Byte} {tmp : ℕ}
    (fresh : heap.Fresh ⟨tmp, data.length⟩) (newnode : ℕ) :
    ∃ after, listCreateNoalloc heap data newnode tmp = some after := by
  obtain ⟨between, requested⟩ := mmuMmap_fresh fresh
  exact ⟨_, by rw [listCreateNoalloc, requested, Option.map_some]⟩

section Link

variable {heap between after : Heap} {ht : Hashtable} {pairs : List Pair}
  {key data : List Byte} {node tmp : ℕ}

/-- A word of the array is stored in its own slot. -/
theorem Buckets.nodeAt_storeWord (buckets : Buckets heap ht pairs) {index other value : ℕ}
    (bound : index < ht.size) (otherBound : other < ht.size) (word : value < 2 ^ 32)
    (memory : Memory) :
    nodeAt (storeWord memory (nodeSlot ht index) value) ht other =
      if other = index then value else nodeAt memory ht other := by
  obtain ⟨slot, fits⟩ := buckets.slot_eq bound
  obtain ⟨otherSlot, otherFits⟩ := buckets.slot_eq otherBound
  split
  · rename_i same
    rw [same]
    exact loadWord_storeWord word
  · rename_i different
    rw [nodeAt, nodeAt, slot, otherSlot]
    exact loadWord_storeWord_of_apart (by omega) (by omega) (by omega)

/-- A store to a slot changes the bytes of the array only. -/
theorem Buckets.storeSlot_frame (buckets : Buckets heap ht pairs) {index value address : ℕ}
    (bound : index < ht.size) (memory : Memory)
    (outside : address < nodeSlot ht index ∨ nodeSlot ht index + 4 ≤ address) :
    storeWord memory (nodeSlot ht index) value address = memory address := by
  obtain ⟨slot, fits⟩ := buckets.slot_eq bound
  apply storeWord_frame
  intro i small
  rw [slot, offset_eq (by omega)]
  omega

theorem Buckets.slot_inside (buckets : Buckets heap ht pairs) {index : ℕ}
    (bound : index < ht.size) : Extent.Inside ⟨nodeSlot ht index, 4⟩ ht.arrayExtent := by
  obtain ⟨slot, fits⟩ := buckets.slot_eq bound
  rw [slot, Hashtable.arrayExtent]
  exact Extent.inside_of_le (Nat.le_add_right _ _) (by dsimp only; omega)

/-- The blocks of a pair are outside a slot. -/
theorem Buckets.outside_slot (buckets : Buckets heap ht pairs) {index : ℕ} (bound : index < ht.size)
    {pair : Pair} (member : pair ∈ pairs) {extent : Extent}
    (isExtent : extent ∈ pair.entry.extents htPairSize) {address : ℕ}
    (contained : extent.Contains address) :
    address < nodeSlot ht index ∨ nodeSlot ht index + 4 ≤ address :=
  ((buckets.slot_inside bound).apart (buckets.apart pair member extent isExtent)).outside contained

/-- A store to a slot keeps the pairs. -/
theorem Buckets.laid_storeSlot (buckets : Buckets heap ht pairs) {index : ℕ}
    (bound : index < ht.size) (value : ℕ) (memory : between.memory = heap.memory)
    (blocks : ∀ block ∈ heap.blocks, block ∈ between.blocks) :
    Laid (between.store (storeWord between.memory (nodeSlot ht index) value)) htPairSize
      (pairs.map Pair.entry) := by
  have stored {pair : Pair} (member : pair ∈ pairs) {extent : Extent}
      (isExtent : extent ∈ pair.entry.extents htPairSize) {address : ℕ}
      (contained : extent.Contains address) :
      storeWord between.memory (nodeSlot ht index) value address = heap.memory address := by
    rw [buckets.storeSlot_frame bound _ (buckets.outside_slot bound member isExtent contained),
      memory]
  refine buckets.laid.of_memory wide blocks ?_ ?_
  · intro entry member address above below
    obtain ⟨pair, isPair, rfl⟩ := List.mem_map.mp member
    exact stored isPair List.mem_cons_self (head_contains (by omega) below)
  · intro entry member address contained
    obtain ⟨pair, isPair, rfl⟩ := List.mem_map.mp member
    exact stored isPair (List.mem_cons_of_mem _ List.mem_cons_self) contained

/-- The table with one more pair. -/
theorem Buckets.concat {new : Pair} (buckets : Buckets heap ht pairs)
    (blocks : after.blocks =
      new.entry.dataExtent :: new.entry.nodeExtent htPairSize :: heap.blocks)
    (laid : Laid after htPairSize (pairs.map Pair.entry ++ [new.entry]))
    (chain : ∀ index < ht.size, Chain (listNext after.memory) 0 (nodeAt after.memory ht index)
      ((bucket ht (pairs ++ [new]) index).map fun pair => pair.entry.node)) :
    Buckets after ht (pairs ++ [new]) := by
  have apart := after.apart
  rw [blocks, List.pairwise_cons, List.pairwise_cons] at apart
  obtain ⟨copyApart, nodeApart, -⟩ := apart
  refine ⟨buckets.hash, ?_, ?_, List.forall_mem_append.mpr ⟨buckets.apart, ?_⟩, chain⟩
  · rw [blocks]
    exact List.mem_cons_of_mem _ (List.mem_cons_of_mem _ buckets.array)
  · rw [List.map_append, List.map_singleton]
    exact laid
  · simp only [List.mem_singleton, forall_eq, Entry.extents, List.forall_mem_cons]
    exact ⟨(nodeApart _ buckets.array).symm,
      (copyApart _ (List.mem_cons_of_mem _ buckets.array)).symm⟩

/-- The first pair of a list: its node goes to the array. -/
theorem Buckets.linkFirst (buckets : Buckets heap ht pairs)
    (empty : nodeAt heap.memory ht (ht.hash key ht.size) = 0)
    (requested : mmuMmap heap ⟨node, htPairSize⟩ = some between)
    (called : listCreateNoalloc
      (between.store (storeWord between.memory (nodeSlot ht (ht.hash key ht.size)) node))
      data node tmp = some after) :
    Linked heap after ht pairs ⟨key, ⟨node, tmp, data⟩⟩ (nodeSlot ht (ht.hash key ht.size)) := by
  have bound := buckets.hash key
  have nothing := buckets.bucket_nil bound empty
  generalize index_eq : ht.hash key ht.size = index at *
  obtain ⟨⟨⟨nonnull, word, nodeFits⟩, fresh⟩, memory, blocks⟩ := mmuMmap_spec requested
  simp only at nonnull word nodeFits
  have old {block : Extent} (member : block ∈ heap.blocks) : block ∈ between.blocks := by
    rw [blocks]
    exact List.mem_cons_of_mem _ member
  have kept := buckets.laid_storeSlot bound node memory fun _ => old
  -- The new node.
  have nodeBlock : ⟨node, htPairSize⟩ ∈ between.blocks := by
    rw [blocks]
    exact List.mem_cons_self
  obtain ⟨laid, next, afterBlocks, frame⟩ := kept.create wide nodeBlock
    (fun entry member extent isExtent =>
      fresh extent (buckets.laid.blocks entry member extent isExtent)) called
  have unchanged {block : Extent} (member : block ∈ heap.blocks) {address : ℕ}
      (contained : block.Contains address)
      (outside : address < nodeSlot ht index ∨ nodeSlot ht index + 4 ≤ address) :
      after.memory address = heap.memory address := by
    rw [frame block (old member) (fresh block member) address contained, Heap.store_memory,
      buckets.storeSlot_frame bound _ outside, memory]
  have slots {other : ℕ} (otherBound : other < ht.size) :
      nodeAt after.memory ht other =
        if other = index then node else nodeAt heap.memory ht other := by
    rw [← memory, ← buckets.nodeAt_storeWord bound otherBound word]
    exact buckets.nodeAt_congr otherBound
      (frame _ (old buckets.array) (fresh _ buckets.array))
  have allBlocks : after.blocks = ⟨tmp, data.length⟩ :: ⟨node, htPairSize⟩ :: heap.blocks := by
    rw [afterBlocks, Heap.store_blocks, blocks]
  refine ⟨.inl (buckets.slot_inside bound), allBlocks, fun block member address contained outside =>
    unchanged member contained outside, buckets.concat allBlocks laid ?_⟩
  intro other otherBound
  rw [slots otherBound, bucket_append, index_eq]
  by_cases here : other = index
  · rw [if_pos here, if_pos here.symm, here, nothing]
    refine .cons nonnull ?_
    rw [next]
    exact .nil
  · rw [if_neg here, if_neg (Ne.symm here)]
    refine buckets.chain_congr otherBound fun pair isPair address above below => ?_
    have inNode := head_contains above below
    exact unchanged (buckets.laid.node_mem (entry_mem isPair)) inNode
      (buckets.outside_slot bound isPair List.mem_cons_self inNode)

theorem nodes_eq (pairs : List Pair) :
    pairs.map (fun pair => pair.entry.node) = (pairs.map Pair.entry).map Entry.node := by
  rw [List.map_map]
  rfl

/-- Two pairs do not share a node. -/
theorem Buckets.eq_of_entry (buckets : Buckets heap ht pairs) {pair other : Pair}
    (member : pair ∈ pairs) (otherMember : other ∈ pairs) (same : pair.entry = other.entry) :
    pair = other := by
  have nodup : (pairs.map Pair.entry).Nodup := by
    refine (List.pairwise_flatMap.mp buckets.laid.apart).2.imp ?_
    intro entry entry' apart equal
    subst equal
    have inNode : (entry.nodeExtent htPairSize).Contains entry.node :=
      ⟨Nat.le_refl _, Nat.lt_add_of_pos_right (show 0 < htPairSize by decide)⟩
    exact apart _ List.mem_cons_self _ List.mem_cons_self entry.node inNode inNode
  exact List.inj_on_of_nodup_map nodup member otherMember same

/-- The two stores that link a node after another one. -/
theorem linkAfter_frame {memory : Memory} {last new address : ℕ} (lastFits : last + 4 ≤ 2 ^ 32)
    (newFits : new + 4 ≤ 2 ^ 32) (outsideLast : address < last ∨ last + 4 ≤ address)
    (outsideNew : address < new ∨ new + 4 ≤ address) :
    linkAfter memory last new address = memory address := by
  rw [linkAfter, Laid.setNext_frame lastFits outsideLast, Laid.setNext_frame newFits outsideNew]

/-- A fresh node whose `next` was cleared. -/
theorem Buckets.clear (buckets : Buckets heap ht pairs)
    (requested : mmuMmap heap ⟨node, htPairSize⟩ = some between) :
    Buckets (between.store (setNext between.memory node 0)) ht pairs ∧
      ∀ block ∈ heap.blocks, ∀ address, block.Contains address →
        setNext between.memory node 0 address = heap.memory address := by
  obtain ⟨⟨⟨-, -, fits⟩, apart⟩, memory, blocks⟩ := mmuMmap_spec requested
  have cleared : ∀ block ∈ heap.blocks, ∀ address, block.Contains address →
      setNext between.memory node 0 address = heap.memory address := by
    intro block member address contained
    simp only [htPairSize] at fits
    rw [Laid.setNext_frame (by omega) (Laid.outside_next wide (apart block member) contained),
      memory]
  refine ⟨buckets.of_memory ?_ (cleared _ buckets.array) ?_ ?_, cleared⟩
  · intro block member
    rw [Heap.store_blocks, blocks]
    exact List.mem_cons_of_mem _ member
  · intro pair member address above below
    exact cleared _ (buckets.laid.node_mem (entry_mem member)) address (head_contains above below)
  · intro pair member
    exact cleared _ (buckets.laid.data_mem (entry_mem member))

/-- The end of a list that is not empty. -/
theorem Buckets.exists_last (buckets : Buckets heap ht pairs) {index : ℕ} (bound : index < ht.size)
    (nonempty : nodeAt heap.memory ht index ≠ 0) :
    ∃ last, (bucket ht pairs index).getLast? = some last ∧
      listGetTail heap (nodeAt heap.memory ht index) = some last.entry.node := by
  have chain := buckets.chain index bound
  have count := buckets.length_le bound
  have some' : bucket ht pairs index ≠ [] := by
    intro nothing
    exact nonempty (chain.nil_iff.mp (by rw [nothing, List.map_nil]))
  have ends := List.getLast?_eq_some_getLast some'
  refine ⟨_, ends, listGetTailLoop_eq chain ?_ (by rw [List.length_map]; omega)⟩
  rw [List.getLast?_cons, List.getLast?_map, ends, Option.map_some, Option.getD_some]

/-- The last pair of a list is linked to a new one. -/
theorem Buckets.relink {new last : Pair} (buckets : Buckets heap ht pairs)
    (ends : (bucket ht pairs (ht.hash new.key ht.size)).getLast? = some last)
    (blocks : between.blocks =
      new.entry.dataExtent :: new.entry.nodeExtent htPairSize :: heap.blocks)
    (laid : Laid between htPairSize (pairs.map Pair.entry ++ [new.entry]))
    (unchanged : ∀ block ∈ heap.blocks, ∀ address, block.Contains address →
      between.memory address = heap.memory address) :
    Linked heap (between.store (linkAfter between.memory last.entry.node new.entry.node)) ht pairs
      new last.entry.node := by
  have inBucketLast := List.mem_of_getLast? ends
  have isLast := List.mem_of_mem_filter inBucketLast
  have isNew : new.entry ∈ pairs.map Pair.entry ++ [new.entry] :=
    List.mem_append_right _ List.mem_cons_self
  have isEntry : last.entry ∈ pairs.map Pair.entry ++ [new.entry] :=
    List.mem_append_left _ (entry_mem isLast)
  have lastFits := laid.node_fits isEntry
  have newFits := laid.node_fits isNew
  have apart := between.apart
  rw [blocks, List.pairwise_cons, List.pairwise_cons] at apart
  have linked : ∀ block ∈ heap.blocks, ∀ address, block.Contains address →
      (address < last.entry.node ∨ last.entry.node + 4 ≤ address) →
      linkAfter between.memory last.entry.node new.entry.node address = heap.memory address := by
    intro block member address contained outsideLast
    unfold htPairSize at lastFits newFits
    rw [linkAfter_frame (by omega) (by omega) outsideLast
      (Laid.outside_next wide (apart.2.1 block member) contained)]
    exact unchanged block member address contained
  -- Before the link every list is as it was.
  have oldChain {index : ℕ} (bound : index < ht.size) :
      Chain (listNext between.memory) 0 (nodeAt heap.memory ht index)
        ((bucket ht pairs index).map fun pair => pair.entry.node) :=
    buckets.chain_congr bound fun pair isPair address above below =>
      unchanged _ (buckets.laid.node_mem (entry_mem isPair)) address (head_contains above below)
  obtain ⟨finalLaid, -, -, others⟩ := laid.linkAfter wide isEntry isNew
    (laid.ne_new wide (entry_mem isLast))
  refine ⟨.inr ⟨last, isLast, rfl⟩, blocks, linked, buckets.concat blocks finalLaid ?_⟩
  intro index bound
  have slots : nodeAt (linkAfter between.memory last.entry.node new.entry.node) ht index =
      nodeAt heap.memory ht index := by
    refine buckets.nodeAt_congr bound fun address contained => ?_
    refine linked _ buckets.array address contained ?_
    exact Laid.outside_next wide (buckets.apart last isLast _ List.mem_cons_self).symm contained
  rw [Heap.store_memory, slots, bucket_append]
  split
  · rename_i here
    rw [here] at ends
    have linkedChain := oldChain bound
    rw [nodes_eq] at linkedChain
    rw [nodes_eq, List.map_append, List.map_singleton]
    refine laid.chain_concat wide linkedChain ?_ (by rw [List.getLast?_map, ends, Option.map_some])
    intro entry member
    obtain ⟨pair, inBucket, rfl⟩ := List.mem_map.mp member
    exact entry_mem (List.mem_of_mem_filter inBucket)
  · rename_i elsewhere
    refine (oldChain bound).congr fun place member => ?_
    obtain ⟨pair, inBucket, rfl⟩ := List.mem_map.mp member
    have isPair := List.mem_of_mem_filter inBucket
    refine others pair.entry (List.mem_append_left _ (entry_mem isPair)) ?_
      (laid.ne_new wide (entry_mem isPair))
    -- Two lists have no pair in common, since the hashes differ.
    intro same
    have hashed := (List.mem_filter.mp inBucket).2
    have lastHashed := (List.mem_filter.mp inBucketLast).2
    rw [decide_eq_true_eq] at hashed lastHashed
    rw [buckets.eq_of_entry isPair isLast same] at hashed
    exact elsewhere (lastHashed.symm.trans hashed)

/-- A further pair of a list: its node comes after the last one. -/
theorem Buckets.linkLast (buckets : Buckets heap ht pairs)
    (nonempty : nodeAt heap.memory ht (ht.hash key ht.size) ≠ 0)
    (requested : mmuMmap heap ⟨node, htPairSize⟩ = some between)
    (fresh : between.Fresh ⟨tmp, data.length⟩) :
    ∃ after link, listInsertBackNoalloc (between.store (setNext between.memory node 0))
        (nodeAt (setNext between.memory node 0) ht (ht.hash key ht.size)) data node tmp =
          some (node, after) ∧
      Linked heap after ht pairs ⟨key, ⟨node, tmp, data⟩⟩ link := by
  obtain ⟨first, cleared⟩ := buckets.clear requested
  obtain ⟨⟨-, apart⟩, -, blocks⟩ := mmuMmap_spec requested
  have bound := buckets.hash key
  have slot : nodeAt (setNext between.memory node 0) ht (ht.hash key ht.size) ≠ 0 := by
    rw [buckets.nodeAt_congr bound (cleared _ buckets.array)]
    exact nonempty
  obtain ⟨last, ends, tail⟩ := first.exists_last bound slot
  have isLast := List.mem_of_mem_filter (List.mem_of_getLast? ends)
  have lastNonnull : last.entry.node ≠ 0 :=
    (heap.inside _ (buckets.laid.node_mem (entry_mem isLast))).1
  obtain ⟨created, called⟩ := @listCreateNoalloc_returns
    (between.store (setNext between.memory node 0)) data tmp fresh node
  have nodeBlock : ⟨node, htPairSize⟩ ∈ between.blocks := by
    rw [blocks]
    exact List.mem_cons_self
  obtain ⟨laid, -, createdBlocks, frame⟩ := first.laid.create wide nodeBlock
    (fun entry member extent isExtent =>
      apart extent (buckets.laid.blocks entry member extent isExtent)) called
  have allBlocks : created.blocks = ⟨tmp, data.length⟩ :: ⟨node, htPairSize⟩ :: heap.blocks := by
    rw [createdBlocks, Heap.store_blocks, blocks]
  have unchanged : ∀ block ∈ heap.blocks, ∀ address, block.Contains address →
      created.memory address = heap.memory address := by
    intro block member address contained
    have kept : block ∈ between.blocks := by
      rw [blocks]
      exact List.mem_cons_of_mem _ member
    rw [frame block kept (apart block member) address contained]
    exact cleared block member address contained
  refine ⟨created.store (linkAfter created.memory last.entry.node node), last.entry.node, ?_,
    @Buckets.relink _ _ _ _ ⟨key, ⟨node, tmp, data⟩⟩ _ buckets ends allBlocks laid unchanged⟩
  rw [Heap.store_memory] at tail
  rw [listInsertBackNoalloc, tail, Option.bind_some, listInsertAfterNoalloc,
    if_neg lastNonnull, called, Option.map_some]

/-- The first pair of a list, from the calls to its node in the array. -/
theorem Buckets.placeFirst (buckets : Buckets heap ht pairs)
    (empty : nodeAt heap.memory ht (ht.hash key ht.size) = 0)
    (requested : mmuMmap heap ⟨node, htPairSize⟩ = some between)
    (fresh : between.Fresh ⟨tmp, data.length⟩) :
    nodeAt (storeWord between.memory (nodeSlot ht (ht.hash key ht.size)) node) ht
        (ht.hash key ht.size) = node ∧
      ∃ after link, listCreateNoalloc
          (between.store (storeWord between.memory (nodeSlot ht (ht.hash key ht.size)) node))
          data node tmp = some after ∧
        nodeAt after.memory ht (ht.hash key ht.size) = node ∧
        Linked heap after ht pairs ⟨key, ⟨node, tmp, data⟩⟩ link := by
  obtain ⟨⟨⟨-, word, -⟩, -⟩, -, -⟩ := mmuMmap_spec requested
  have slot := buckets.nodeAt_storeWord (buckets.hash key) (buckets.hash key) word between.memory
  rw [if_pos rfl] at slot
  obtain ⟨after, called⟩ := @listCreateNoalloc_returns (between.store
    (storeWord between.memory (nodeSlot ht (ht.hash key ht.size)) node)) data tmp fresh node
  have linked := buckets.linkFirst empty requested called
  refine ⟨slot, after, _, called, ?_, linked⟩
  have chain := linked.buckets.chain _ (buckets.hash key)
  rw [bucket_append, if_pos rfl, buckets.bucket_nil (buckets.hash key) empty] at chain
  exact chain.uncons.1

end Link

/-- **Inserting** links a pair, and then stores its key. -/
theorem Buckets.insert {heap between : Heap} {ht : Hashtable} {pairs : List Pair}
    {key data : List Byte} {node tmp : ℕ} (buckets : Buckets heap ht pairs)
    (requested : mmuMmap heap ⟨node, htPairSize⟩ = some between)
    (fresh : between.Fresh ⟨tmp, data.length⟩) :
    ∃ after link, hashtableInsert heap ht key data node tmp =
        some (after.store (Utils.storeKey after.memory node key)) ∧
      Linked heap after ht pairs ⟨key, ⟨node, tmp, data⟩⟩ link := by
  by_cases empty : nodeAt heap.memory ht (ht.hash key ht.size) = 0
  · obtain ⟨slot, after, link, called, again, linked⟩ := buckets.placeFirst empty requested fresh
    refine ⟨after, link, ?_, linked⟩
    simp only [hashtableInsert, if_pos empty, requested, Option.bind_some, Heap.store_memory, slot,
      called, Option.map_some, again]
  · obtain ⟨after, link, called, linked⟩ := buckets.linkLast empty requested fresh
    refine ⟨after, link, ?_, linked⟩
    simp only [hashtableInsert, if_neg empty, requested, Option.bind_some, Heap.store_memory,
      called, Option.map_some]

/-- What an insertion that returns has done. -/
theorem Buckets.inserted {heap final : Heap} {ht : Hashtable} {pairs : List Pair}
    {key data : List Byte} {node tmp : ℕ} (buckets : Buckets heap ht pairs)
    (called : hashtableInsert heap ht key data node tmp = some final) :
    ∃ after link, final = after.store (Utils.storeKey after.memory node key) ∧
      Linked heap after ht pairs ⟨key, ⟨node, tmp, data⟩⟩ link := by
  have wasFresh : ∃ between, mmuMmap heap ⟨node, htPairSize⟩ = some between ∧
      between.Fresh ⟨tmp, data.length⟩ := by
    unfold hashtableInsert at called
    dsimp only at called
    by_cases empty : nodeAt heap.memory ht (ht.hash key ht.size) = 0
    · rw [if_pos empty] at called
      obtain ⟨between, requested, called⟩ := Option.bind_eq_some_iff.mp called
      obtain ⟨created, create, -⟩ := Option.map_eq_some_iff.mp called
      obtain ⟨copied, copy, -⟩ := Option.map_eq_some_iff.mp create
      exact ⟨between, requested, (mmuMmap_spec copy).1⟩
    · rw [if_neg empty] at called
      obtain ⟨between, requested, called⟩ := Option.bind_eq_some_iff.mp called
      obtain ⟨⟨_, created⟩, placed, -⟩ := Option.map_eq_some_iff.mp called
      obtain ⟨first, cleared⟩ := buckets.clear requested
      have slot : nodeAt (setNext between.memory node 0) ht (ht.hash key ht.size) ≠ 0 := by
        rw [buckets.nodeAt_congr (buckets.hash key) (cleared _ buckets.array)]
        exact empty
      obtain ⟨last, ends, tail⟩ := first.exists_last (buckets.hash key) slot
      have isLast := List.mem_of_mem_filter (List.mem_of_getLast? ends)
      have nonnull : last.entry.node ≠ 0 :=
        (heap.inside _ (buckets.laid.node_mem (Buckets.entry_mem isLast))).1
      rw [Heap.store_memory] at tail placed
      rw [listInsertBackNoalloc, tail, Option.bind_some, listInsertAfterNoalloc,
        if_neg nonnull] at placed
      obtain ⟨linked, create, -⟩ := Option.map_eq_some_iff.mp placed
      obtain ⟨copied, copy, -⟩ := Option.map_eq_some_iff.mp create
      exact ⟨between, requested, (mmuMmap_spec copy).1⟩
  obtain ⟨between, requested, fresh⟩ := wasFresh
  obtain ⟨after, link, returned, linked⟩ := @Buckets.insert _ _ _ _ key _ _ _ buckets requested
    fresh
  exact ⟨after, link, Option.some.inj (called.symm.trans returned), linked⟩

/-- **Inserting** appends a pair, and writes nothing outside the table. -/
theorem Tabled.insert {heap : Heap} {ht : Hashtable} {pairs : List Pair} {key data : List Byte}
    {node tmp : ℕ} (tabled : Tabled heap ht pairs) (isKey : KeyString key)
    (freshNode : heap.Fresh ⟨node, htPairSize⟩) (freshCopy : heap.Fresh ⟨tmp, data.length⟩)
    (apart : Extent.Apart ⟨tmp, data.length⟩ ⟨node, htPairSize⟩) :
    ∃ after, hashtableInsert heap ht key data node tmp = some after ∧
      Tabled after ht (pairs ++ [⟨key, ⟨node, tmp, data⟩⟩]) ∧
      after.blocks = ⟨tmp, data.length⟩ :: ⟨node, htPairSize⟩ :: heap.blocks ∧
      ∀ block ∈ heap.blocks, block.Apart ht.arrayExtent →
        (∀ pair ∈ pairs, block.Apart (pair.entry.nodeExtent htPairSize)) →
        ∀ address, block.Contains address → after.memory address = heap.memory address := by
  obtain ⟨between, requested⟩ := mmuMmap_fresh freshNode
  obtain ⟨-, -, blocks⟩ := mmuMmap_spec requested
  have fresh : between.Fresh ⟨tmp, data.length⟩ := by
    refine ⟨freshCopy.1, ?_⟩
    rw [blocks]
    exact List.forall_mem_cons.mpr ⟨apart, freshCopy.2⟩
  obtain ⟨after, link, called, linked⟩ := tabled.buckets.insert requested fresh
  exact ⟨_, called, linked.tabled tabled isKey, linked.blocks,
    fun block member notArray notNode address => linked.frame member notArray notNode⟩

end CatchOS.Utils
