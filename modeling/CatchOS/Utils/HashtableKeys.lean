import CatchOS.Utils.HashtableLookup

/-!
# Keys of any length

A pair has 64 bytes for its key. `hashtable_insert` copies what fits, and a key of 64 bytes or
more is stored without its final zero. `hashtable_get` compares with `_strcmp`, which goes on
until a byte differs or both strings end.

A key that was stored whole ends inside its 64 bytes, so every comparison with it ends there.
The bytes of a longer key all agree with what was stored of it, and the comparison goes on to
the byte behind the array. `lookupsWork_iff` says that the lookups in a table stay inside the
keys, and find every key that was inserted, if and only if all of them are shorter than 64
bytes.
-/

set_option autoImplicit false

namespace CatchOS.Utils

open CatchOS.Lib CatchOS.Mmu

/-! ## The calls -/

/-- A call of `hashtable_insert` or of `hashtable_get`. -/
inductive Call where
  | insert (insertion : Insertion)
  | get (key : List Byte) (dataSize : ℕ)

def Call.key : Call → List Byte
  | .insert insertion => insertion.key
  | .get key _ => key

/-- The heap after a call; a lookup does not change it. -/
def hashtableCall (ht : Hashtable) (heap : Heap) : Call → Option Heap
  | .insert insertion =>
      hashtableInsert heap ht insertion.key insertion.data insertion.node insertion.tmp
  | .get key dataSize => (hashtableGet heap ht key dataSize).map fun _ => heap

/-- The calls one after another. -/
def hashtableCalls (ht : Hashtable) (heap : Heap) (calls : List Call) : Option Heap :=
  calls.foldlM (hashtableCall ht) heap

/-- The pairs that the calls insert. -/
def insertedPairs (calls : List Call) : List Pair :=
  calls.flatMap fun call =>
    match call with
    | .insert insertion => [insertion.pair]
    | .get _ _ => []

/-! ## The bytes that are compared -/

/-- The bytes of stored keys that the loop of `hashtable_get` compares, each with its node. -/
def comparedLoop (memory : Memory) (key : List Byte) : ℕ → ℕ → List (ℕ × ℕ)
  | 0, _ => []
  | turns + 1, real =>
      if real = 0 then []
      else
        ((strcmpProgram (keyPlace real) key).reads memory).map (Prod.mk real) ++
          if strcmp memory (keyPlace real) key = 0 then []
          else comparedLoop memory key turns (listNext memory real)

/-- Those of a call of `hashtable_get`. -/
def hashtableCompared (heap : Heap) (ht : Hashtable) (key : List Byte) : List (ℕ × ℕ) :=
  comparedLoop heap.memory key (heap.blocks.length + 1)
    (nodeAt heap.memory ht (ht.hash key ht.size))

/-- The array `key` of a node. -/
def keyExtent (node : ℕ) : Extent := ⟨keyPlace node, htMaxKeyLen⟩

/-- Whatever string is looked up, the bytes that are compared lie in the arrays of their nodes,
and the given keys are found. -/
structure LookupsWork (heap : Heap) (ht : Hashtable) (keys : List (List Byte)) : Prop where
  inside : ∀ key : List Byte, (∀ c ∈ key, c ≠ 0) → ∀ compared ∈ hashtableCompared heap ht key,
    (keyExtent compared.1).Contains compared.2
  found : ∀ key ∈ keys, ∀ dataSize, ∃ data, hashtableGet heap ht key dataSize = some (some data)

/-! ## Comparing with a stored key -/

section Compare

variable {memory : Memory} {cs : ℕ} {string key : List Byte}

theorem reads_strcmp_cons (c : Byte) :
    (strcmpProgram cs (c :: key)).reads memory =
      offset cs 0 :: if memory (offset cs 0) ≠ c then []
        else (strcmpProgram (offset cs 1) key).reads memory := by
  rw [strcmpProgram, Probe.reads_ask_bind, Probe.reads_ite, Probe.reads_pure]

/-- A comparison does not go behind the final zero. -/
theorem reads_strcmp_of_string (holds : HoldsString memory cs string) (nonzero : ∀ c ∈ key, c ≠ 0) :
    ∀ address ∈ (strcmpProgram cs key).reads memory,
      ∃ i ≤ string.length, address = offset cs i := by
  induction key generalizing cs string with
  | nil =>
      intro address member
      exact ⟨0, Nat.zero_le _, List.mem_singleton.mp member⟩
  | cons c key ih =>
      obtain ⟨notZero, later⟩ := List.forall_mem_cons.mp nonzero
      rw [reads_strcmp_cons]
      refine List.forall_mem_cons.mpr ⟨⟨0, Nat.zero_le _, rfl⟩, ?_⟩
      split
      · exact fun _ member => absurd member List.not_mem_nil
      case isFalse same =>
        have equal := not_not.mp same
        cases string with
        | nil => exact absurd (equal.symm.trans (HoldsString.nil_iff.mp holds)) notZero
        | cons d string =>
            intro address member
            obtain ⟨i, bound, rfl⟩ := ih (HoldsString.cons_iff.mp holds).2 later address member
            refine ⟨i + 1, Nat.succ_le_succ bound, ?_⟩
            rw [offset_offset, Nat.add_comm]

/-- As long as the bytes agree, the comparison goes on. -/
theorem mem_reads_strcmp {n : ℕ} (same : ∀ i < n, memory (offset cs i) = key.getD i 0)
    (bound : n ≤ key.length) : offset cs n ∈ (strcmpProgram cs key).reads memory := by
  induction n generalizing cs key with
  | zero =>
      cases key with
      | nil => exact List.mem_cons_self
      | cons c key =>
          rw [reads_strcmp_cons]
          exact List.mem_cons_self
  | succ n ih =>
      cases key with
      | nil => cases bound
      | cons c key =>
          have first : memory (offset cs 0) = c := same 0 (Nat.zero_lt_succ _)
          have rest : ∀ i < n, memory (offset (offset cs 1) i) = key.getD i 0 := by
            intro i small
            rw [offset_offset, Nat.add_comm]
            exact same (i + 1) (Nat.succ_lt_succ small)
          have later := ih rest (Nat.le_of_succ_le_succ bound)
          rw [offset_offset, Nat.add_comm] at later
          rw [reads_strcmp_cons, if_neg (not_not.mpr first)]
          exact List.mem_cons_of_mem _ later

/-- The bytes of an equal string. -/
theorem bytes_of_strcmp_eq_zero (equal : strcmp memory cs key = 0) :
    ∀ i < key.length, memory (offset cs i) = key.getD i 0 := by
  induction key generalizing cs with
  | nil => exact fun _ bound => absurd bound (Nat.not_lt_zero _)
  | cons c key ih =>
      rw [strcmp] at equal
      split at equal
      · split at equal <;> cases equal
      case isFalse same =>
        intro i bound
        cases i with
        | zero => exact not_not.mp same
        | succ i =>
            have later := ih equal i (Nat.lt_of_succ_lt_succ bound)
            rwa [offset_offset, Nat.add_comm] at later

/-- A string that is there byte by byte. -/
theorem stringAt_of_bytes
    (same : ∀ i ≤ string.length, memory (offset cs i) = string.getD i 0) :
    StringAt memory cs string := by
  induction string generalizing cs with
  | nil => exact stringAt_nil.mpr (same 0 le_rfl)
  | cons c string ih =>
      refine stringAt_cons.mpr ⟨same 0 (Nat.zero_le _), ih fun i bound => ?_⟩
      rw [offset_offset, Nat.add_comm]
      exact same (i + 1) (Nat.succ_le_succ bound)

end Compare

/-! ## The walk along a list -/

section Walk

variable {memory : Memory} {key : List Byte} {start turns : ℕ} {nodes : List ℕ}

/-- The bytes that are compared belong to the nodes of the list. -/
theorem of_mem_comparedLoop (chain : Chain (listNext memory) 0 start nodes) :
    ∀ compared ∈ comparedLoop memory key turns start, compared.1 ∈ nodes ∧
      compared.2 ∈ (strcmpProgram (keyPlace compared.1) key).reads memory := by
  induction chain generalizing turns with
  | nil =>
      intro compared member
      cases turns <;> cases member
  | @cons node rest different _ ih =>
      intro compared member
      cases turns with
      | zero => cases member
      | succ turns =>
          rw [comparedLoop, if_neg different, List.mem_append] at member
          rcases member with here | later
          · obtain ⟨address, read, rfl⟩ := List.mem_map.mp here
            exact ⟨List.mem_cons_self, read⟩
          · split at later
            · cases later
            · obtain ⟨isNode, read⟩ := ih compared later
              exact ⟨List.mem_cons_of_mem _ isNode, read⟩

/-- If the bytes of a node agree with all that was stored of a key, some comparison on the way
to that node, or with it, goes as far. -/
theorem exists_mem_comparedLoop {own n : ℕ} (chain : Chain (listNext memory) 0 start nodes)
    (enough : nodes.length ≤ turns) (member : own ∈ nodes)
    (same : ∀ i < n, memory (offset (keyPlace own) i) = key.getD i 0) (bound : n ≤ key.length) :
    ∃ node, (node, offset (keyPlace node) n) ∈ comparedLoop memory key turns start := by
  induction chain generalizing turns with
  | nil => cases member
  | @cons node rest different _ ih =>
      cases turns with
      | zero => cases enough
      | succ turns =>
          -- The comparison with this node, if its bytes agree with the key.
          have reaches (agree : ∀ i < n, memory (offset (keyPlace node) i) = key.getD i 0) :
              (node, offset (keyPlace node) n) ∈ comparedLoop memory key (turns + 1) node := by
            rw [comparedLoop, if_neg different]
            exact List.mem_append_left _
              (List.mem_map_of_mem (mem_reads_strcmp agree bound))
          by_cases equal : strcmp memory (keyPlace node) key = 0
          · refine ⟨node, reaches fun i small => ?_⟩
            exact bytes_of_strcmp_eq_zero equal i (Nat.lt_of_lt_of_le small bound)
          · rcases List.mem_cons.mp member with rfl | later
            · exact ⟨own, reaches same⟩
            · obtain ⟨found, compared⟩ := ih (Nat.le_of_succ_le_succ enough) later
              refine ⟨found, ?_⟩
              rw [comparedLoop, if_neg different, if_neg equal]
              exact List.mem_append_right _ compared

end Walk

/-! ## What is stored of a key -/

theorem getD_readBytes {memory : Memory} {address len i : ℕ} (bound : i < len) :
    (readBytes memory address len).getD i 0 = memory (offset address i) := by
  rw [List.getD_eq_getElem?_getD, List.getElem?_eq_getElem (by rwa [length_readBytes]),
    Option.getD_some]
  simp only [readBytes, List.getElem_map, List.getElem_range]

/-- The bytes of a stored key: as many as fit, and zeros. -/
theorem storeKey_byte (memory : Memory) (node : ℕ) (key : List Byte) {i : ℕ}
    (bound : i < htMaxKeyLen) :
    storeKey memory node key (offset (keyPlace node) i) = key.getD i 0 := by
  have small : i < 64 := bound
  have length : (key.take htMaxKeyLen).length = min 64 key.length := List.length_take
  rw [storeKey]
  by_cases copied : i < key.length
  · have byte := @getD_readBytes (writeBytes (memset memory (keyPlace node) 0 htMaxKeyLen)
      (keyPlace node) (key.take htMaxKeyLen)) (keyPlace node) (key.take htMaxKeyLen).length i
      (by omega)
    rw [← byte, readBytes_writeBytes (by omega), List.getD_eq_getElem?_getD, List.getElem?_take,
      if_pos bound, List.getD_eq_getElem?_getD]
  · rw [writeBytes_frame, memset_inside bound, List.getD_eq_getElem?_getD,
      List.getElem?_eq_none (Nat.not_lt.mp copied), Option.getD_none]
    intro j inside
    rw [ne_eq, offset_inj (by omega) (by omega)]
    omega

/-- A table whose nodes have of each key what fits. -/
structure KeyTable (heap : Heap) (ht : Hashtable) (pairs : List Pair) : Prop where
  buckets : Buckets heap ht pairs
  stored : ∀ pair ∈ pairs, ∀ i < htMaxKeyLen,
    heap.memory (offset (keyPlace pair.entry.node) i) = pair.key.getD i 0

namespace KeyTable

variable {heap after : Heap} {ht : Hashtable} {pairs : List Pair} {key : List Byte}

theorem nil (empty : Buckets heap ht []) : KeyTable heap ht [] :=
  ⟨empty, fun _ member => absurd member List.not_mem_nil⟩

/-- The keys do not wrap. -/
theorem place (table : KeyTable heap ht pairs) {pair : Pair} (member : pair ∈ pairs) {i : ℕ}
    (bound : i < htMaxKeyLen) :
    offset (keyPlace pair.entry.node) i = pair.entry.node + 8 + i ∧
      pair.entry.node + 8 + i < pair.entry.node + htPairSize := by
  have fits := table.buckets.laid.node_fits (Buckets.entry_mem member)
  unfold htPairSize htMaxKeyLen at *
  rw [keyPlace, offset_offset, offset_eq (by omega)]
  omega

/-- Inserting appends a pair, whatever the length of the key. -/
theorem insert {data : List Byte} {node tmp : ℕ} (table : KeyTable heap ht pairs)
    (called : hashtableInsert heap ht key data node tmp = some after) :
    KeyTable after ht (pairs ++ [⟨key, ⟨node, tmp, data⟩⟩]) := by
  obtain ⟨between, link, rfl, linked⟩ := table.buckets.inserted called
  refine ⟨linked.buckets.storeKey Linked.new_mem key, List.forall_mem_append.mpr ⟨?_, ?_⟩⟩
  · intro pair member i bound
    obtain ⟨place, inside⟩ := table.place member bound
    rw [← table.stored pair member i bound, place]
    exact linked.key_frame table.buckets member (Nat.le_add_right _ _) inside
  · intro pair isNew i bound
    rw [List.mem_singleton.mp isNew]
    exact storeKey_byte _ _ _ bound

/-- A call keeps the table; an insertion adds its pair. -/
theorem call {call : Call} (table : KeyTable heap ht pairs)
    (called : hashtableCall ht heap call = some after) :
    KeyTable after ht (pairs ++ insertedPairs [call]) := by
  cases call with
  | insert insertion => exact table.insert called
  | get key dataSize =>
      obtain ⟨-, -, rfl⟩ := Option.map_eq_some_iff.mp called
      rwa [insertedPairs, List.flatMap_singleton, List.append_nil]

/-- **After any calls** the table has the pairs that were inserted. -/
theorem calls {calls : List Call} (table : KeyTable heap ht pairs)
    (called : hashtableCalls ht heap calls = some after) :
    KeyTable after ht (pairs ++ insertedPairs calls) := by
  induction calls generalizing heap pairs with
  | nil =>
      obtain rfl := Option.some.inj called
      rwa [insertedPairs, List.flatMap_nil, List.append_nil]
  | cons call calls ih =>
      rw [hashtableCalls, List.foldlM_cons] at called
      obtain ⟨between, first, rest⟩ := Option.bind_eq_some_iff.mp called
      have all := ih (table.call first) rest
      rwa [List.append_assoc, insertedPairs, insertedPairs, ← List.flatMap_append,
        List.singleton_append] at all

/-- With short keys all of the keys are there as strings. -/
theorem tabled (table : KeyTable heap ht pairs)
    (nonzero : ∀ pair ∈ pairs, ∀ c ∈ pair.key, c ≠ 0)
    (short : ∀ pair ∈ pairs, pair.key.length < htMaxKeyLen) : Tabled heap ht pairs := by
  refine ⟨table.buckets, fun pair member => ⟨⟨short pair member, nonzero pair member⟩, ?_⟩⟩
  apply stringAt_of_bytes
  intro i bound
  exact table.stored pair member i (Nat.lt_of_le_of_lt bound (short pair member))

end KeyTable

/-! ## Short keys and long keys -/

section Lengths

variable {heap : Heap} {ht : Hashtable} {pairs : List Pair}

theorem lookupsWork_of_short (tabled : Tabled heap ht pairs) :
    LookupsWork heap ht (pairs.map Pair.key) := by
  constructor
  · intro key nonzero compared member
    have chain := tabled.buckets.chain _ (tabled.buckets.hash key)
    obtain ⟨isNode, read⟩ := of_mem_comparedLoop chain compared member
    obtain ⟨pair, inBucket, same⟩ := List.mem_map.mp isNode
    have isPair := List.mem_of_mem_filter inBucket
    obtain ⟨isKey, held⟩ := tabled.keyed pair isPair
    have fits := tabled.buckets.laid.node_fits (Buckets.entry_mem isPair)
    have short := isKey.short
    rw [← same] at read ⊢
    obtain ⟨i, bound, place⟩ := reads_strcmp_of_string ⟨held, isKey.nonzero⟩ nonzero _ read
    unfold htPairSize at fits
    rw [place, keyExtent]
    rw [keyPlace, offset_eq (by omega), offset_eq (by omega)]
    exact Extent.contains_mk (by omega) (by omega)
  · intro key member dataSize
    obtain ⟨pair, isPair, rfl⟩ := List.mem_map.mp member
    rw [tabled.get_read (tabled.keyed pair isPair).1]
    cases first : pairs.find? fun other => other.key = pair.key with
    | some found => exact ⟨_, rfl⟩
    | none =>
        have different := List.find?_eq_none.mp first pair isPair
        exact absurd (decide_eq_true rfl) different

/-- The byte behind the array `key` is not in it. -/
theorem behind_keyExtent (node : ℕ) :
    ¬(keyExtent node).Contains (offset (keyPlace node) htMaxKeyLen) := by
  have word := offset_lt node 8
  rintro ⟨above, below⟩
  rw [keyExtent, offset, htMaxKeyLen, keyPlace] at above below
  dsimp only at above below
  omega

/-- A lookup of a key that was not stored whole compares a byte behind the array. -/
theorem not_lookupsWork_of_long (table : KeyTable heap ht pairs) {pair : Pair}
    (member : pair ∈ pairs) (nonzero : ∀ c ∈ pair.key, c ≠ 0)
    (long : htMaxKeyLen ≤ pair.key.length) {keys : List (List Byte)} :
    ¬LookupsWork heap ht keys := by
  intro work
  have index := table.buckets.hash pair.key
  have chain := table.buckets.chain _ index
  have count := table.buckets.length_le index
  have own : pair.entry.node ∈
      (bucket ht pairs (ht.hash pair.key ht.size)).map fun pair => pair.entry.node :=
    List.mem_map_of_mem (List.mem_filter.mpr ⟨member, decide_eq_true rfl⟩)
  have enough : ((bucket ht pairs (ht.hash pair.key ht.size)).map fun pair =>
      pair.entry.node).length ≤ heap.blocks.length + 1 := by
    rw [List.length_map]
    exact Nat.le_succ_of_le count
  obtain ⟨node, compared⟩ :=
    exists_mem_comparedLoop chain enough own (table.stored pair member) long
  exact behind_keyExtent node (work.inside pair.key nonzero _ compared)

end Lengths

/-- The keys that the calls insert. -/
def insertedKeys (calls : List Call) : List (List Byte) := (insertedPairs calls).map Pair.key

theorem exists_call_of_mem {calls : List Call} {pair : Pair} (member : pair ∈ insertedPairs calls) :
    ∃ call ∈ calls, call.key = pair.key := by
  obtain ⟨call, isCall, inserted⟩ := List.mem_flatMap.mp member
  refine ⟨call, isCall, ?_⟩
  cases call with
  | insert insertion =>
      rw [List.mem_singleton.mp inserted]
      rfl
  | get key dataSize => cases inserted

/-- **Keys of any length**: after any calls for strings on an empty table, the lookups work if
and only if every key that was inserted fits into the array with its final zero. The calls get
their memory: `called` holds only when every `mmu_mmap` of the insertions returns a block, for a key
whose request failed was not inserted. -/
theorem lookupsWork_iff {start after : Heap} {ht : Hashtable} {calls : List Call}
    (empty : Buckets start ht []) (strings : ∀ call ∈ calls, ∀ c ∈ call.key, c ≠ 0)
    (called : hashtableCalls ht start calls = some after) :
    LookupsWork after ht (insertedKeys calls) ↔
      ∀ key ∈ insertedKeys calls, key.length < htMaxKeyLen := by
  have table := (KeyTable.nil empty).calls called
  rw [List.nil_append] at table
  have nonzero : ∀ pair ∈ insertedPairs calls, ∀ c ∈ pair.key, c ≠ 0 := by
    intro pair member
    obtain ⟨call, isCall, same⟩ := exists_call_of_mem member
    rw [← same]
    exact strings call isCall
  rw [insertedKeys, List.forall_mem_map]
  constructor
  · intro work pair member
    by_contra long
    exact not_lookupsWork_of_long table member (nonzero pair member) (Nat.not_lt.mp long) work
  · intro short
    exact lookupsWork_of_short (table.tabled nonzero short)

/-! ## One key in a table with one slot -/

/-- A heap without blocks. -/
def bareHeap : Heap := ⟨fun _ => 0, [], .nil, inside_nil⟩

/-- A string of letters. -/
def letters (length : ℕ) : List Byte := List.replicate length 65

theorem letters_nonzero (length : ℕ) : ∀ c ∈ letters length, c ≠ 0 := by
  intro c member
  rw [List.eq_of_mem_replicate member]
  decide

/-- The insertion of a key. -/
def insertLetters (length : ℕ) : List Call := [.insert ⟨letters length, [1], 0x100, 0x200⟩]

theorem insertLetters_returns (length : ℕ) : ∃ start ht after,
    hashtableInit bareHeap none 1 16 = some (start, ht) ∧ Buckets start ht [] ∧
      hashtableCalls ht start (insertLetters length) = some after := by
  have supply : bareHeap.Supply [⟨16, 4⟩, ⟨0x100, htPairSize⟩, ⟨0x200, 1⟩] := by decide
  obtain ⟨start, created, tabled, blocks, -⟩ :=
    @Tabled.init bareHeap none 1 16 (supply.1 _ List.mem_cons_self) (hashFnv_lt Nat.one_pos)
  have left : start.Supply [⟨0x100, htPairSize⟩, ⟨0x200, 1⟩] := supply.next blocks
  obtain ⟨between, requested⟩ := mmuMmap_fresh (left.1 _ List.mem_cons_self)
  have fresh : between.Supply [⟨0x200, 1⟩] := left.next (mmuMmap_spec requested).2.2
  obtain ⟨linked, link, called, -⟩ := @Buckets.insert _ _ _ _ (letters length) [1] _ _
    tabled.buckets requested (fresh.1 _ List.mem_cons_self)
  refine ⟨start, _, linked.store (storeKey linked.memory 0x100 (letters length)), created,
    tabled.buckets, ?_⟩
  rw [insertLetters, hashtableCalls, List.foldlM_cons, hashtableCall, called]
  rfl

/-- The longest key that fits. -/
theorem lookupsWork_longest : ∃ start ht after,
    hashtableInit bareHeap none 1 16 = some (start, ht) ∧
      hashtableCalls ht start (insertLetters 63) = some after ∧
      LookupsWork after ht [letters 63] := by
  obtain ⟨start, ht, after, created, empty, called⟩ := insertLetters_returns 63
  refine ⟨start, ht, after, created, called, (lookupsWork_iff empty ?_ called).mpr ?_⟩
  · exact List.forall_mem_singleton.mpr (letters_nonzero 63)
  · exact List.forall_mem_singleton.mpr (show (letters 63).length < htMaxKeyLen by decide)

/-- A key of 64 bytes is stored without its final zero. -/
theorem not_lookupsWork_unterminated : ∃ start ht after,
    hashtableInit bareHeap none 1 16 = some (start, ht) ∧
      hashtableCalls ht start (insertLetters 64) = some after ∧
      ¬LookupsWork after ht [letters 64] := by
  obtain ⟨start, ht, after, created, empty, called⟩ := insertLetters_returns 64
  refine ⟨start, ht, after, created, called, ?_⟩
  have table := (KeyTable.nil empty).calls called
  exact not_lookupsWork_of_long table List.mem_cons_self (letters_nonzero 64) (by decide)

end CatchOS.Utils
