import CatchOS.Lib.Chain
import CatchOS.Mmu.Mmap

/-!
# Linked lists

The functions of `list.c`, on the bytes of the memory. A `struct list_head` is two
words, `next` and `data`; `data` points to a block of its own that holds a copy of
the caller's bytes. A struct that starts with a `list_head` is wider, so the width
of a node is a parameter of the lemmas.

`Laid` says how entries lie in the heap: every node and every copy is a block, the
blocks are apart, and the `data` word of a node points to its copy. A call that
makes a node adds an entry (`Laid.create`), and a store to a `next` word keeps all
entries (`Laid.setNext`). Which nodes are linked is told by `Chain` of `listNext`.
-/

set_option autoImplicit false

namespace CatchOS.Utils

open CatchOS.Lib CatchOS.Mmu

/-! ## The functions -/

/-- `node->next`. -/
def listNext (memory : Memory) (node : ℕ) : ℕ := loadWord memory node

/-- `node->data`. -/
def listData (memory : Memory) (node : ℕ) : ℕ := loadWord memory (offset node 4)

def setNext (memory : Memory) (node next : ℕ) : Memory := storeWord memory node next

def setData (memory : Memory) (node data : ℕ) : Memory := storeWord memory (offset node 4) data

/-- The bytes at `data` are copied to the block at `tmp`. -/
def listCreateNoalloc (heap : Heap) (data : List Byte) (newnode tmp : ℕ) : Option Heap :=
  (mmuMmap heap ⟨tmp, data.length⟩).map fun heap =>
    let memory := writeBytes heap.memory tmp data
    let memory := setData memory newnode tmp
    heap.store (setNext memory newnode 0)

/-- The node is a block too; what follows is as in `list_create_noalloc`. -/
def listCreate (heap : Heap) (data : List Byte) (node tmp : ℕ) : Option Heap :=
  (mmuMmap heap ⟨node, 8⟩).bind fun heap => listCreateNoalloc heap data node tmp

/-- The last statements of the functions that insert after a node. -/
def linkAfter (memory : Memory) (node newnode : ℕ) : Memory :=
  let memory := setNext memory newnode (listNext memory node)
  setNext memory node newnode

/-- The new node, or `NULL` when there is nothing to insert after. -/
def listInsertAfter (heap : Heap) (node : ℕ) (data : List Byte) (newnode tmp : ℕ) :
    Option (ℕ × Heap) :=
  if node = 0 then
    some (0, heap)
  else
    (listCreate heap data newnode tmp).map fun heap =>
      (newnode, heap.store (linkAfter heap.memory node newnode))

def listInsertAfterNoalloc (heap : Heap) (node : ℕ) (data : List Byte) (newnode tmp : ℕ) :
    Option (ℕ × Heap) :=
  if node = 0 then
    some (0, heap)
  else
    (listCreateNoalloc heap data newnode tmp).map fun heap =>
      (newnode, heap.store (linkAfter heap.memory node newnode))

/-- The loop of `list_get_tail`, with a bound on its turns. -/
def listGetTailLoop (memory : Memory) : ℕ → ℕ → ℕ → Option ℕ
  | 0, _, _ => none
  | turns + 1, node, head =>
      if node = 0 then some head else listGetTailLoop memory turns (listNext memory node) node

/-- A list has no more nodes than there are blocks. -/
def listGetTail (heap : Heap) (list : ℕ) : Option ℕ :=
  listGetTailLoop heap.memory (heap.blocks.length + 1) list 0

def listInsertBackNoalloc (heap : Heap) (node : ℕ) (data : List Byte) (newnode tmp : ℕ) :
    Option (ℕ × Heap) :=
  (listGetTail heap node).bind fun tail => listInsertAfterNoalloc heap tail data newnode tmp

/-- The result, and the heap afterwards. The loop looks for the node before `node`;
without one nothing is removed. -/
def listRemove (heap : Heap) (list node : ℕ) : Option (ℤ × Heap) :=
  let last (list : ℕ) : Bool :=
    listNext heap.memory list = 0 || listNext heap.memory list = node
  (follow (listNext heap.memory) last (heap.blocks.length + 1) list).map fun list =>
    if listNext heap.memory list = 0 then
      (-1, heap)
    else
      let heap := heap.store (setNext heap.memory list (listNext heap.memory node))
      (0, mmuMunmap (mmuMunmap heap (listData heap.memory node)) node)

/-! ## How entries lie in the heap -/

/-- A node, the block it points to, and the bytes that were copied there. -/
structure Entry where
  node : ℕ
  data : ℕ
  value : List Byte

namespace Entry

def nodeExtent (entry : Entry) (width : ℕ) : Extent := ⟨entry.node, width⟩

def dataExtent (entry : Entry) : Extent := ⟨entry.data, entry.value.length⟩

def extents (width : ℕ) (entry : Entry) : List Extent := [entry.nodeExtent width, entry.dataExtent]

/-- The node points to its copy. -/
structure StoredIn (entry : Entry) (memory : Memory) : Prop where
  data : listData memory entry.node = entry.data
  value : readBytes memory entry.data entry.value.length = entry.value

end Entry

/-- The entries lie in the heap, in blocks that are apart. -/
structure Laid (heap : Heap) (width : ℕ) (entries : List Entry) : Prop where
  blocks : ∀ entry ∈ entries, ∀ extent ∈ entry.extents width, extent ∈ heap.blocks
  apart : (entries.flatMap (Entry.extents width)).Pairwise Extent.Apart
  stored : ∀ entry ∈ entries, entry.StoredIn heap.memory

namespace Laid

variable {heap after : Heap} {width : ℕ} {entries : List Entry} {entry other : Entry}

theorem nil (heap : Heap) (width : ℕ) : Laid heap width [] := ⟨nofun, .nil, nofun⟩

theorem node_mem (laid : Laid heap width entries) (member : entry ∈ entries) :
    entry.nodeExtent width ∈ heap.blocks :=
  laid.blocks entry member _ List.mem_cons_self

theorem data_mem (laid : Laid heap width entries) (member : entry ∈ entries) :
    entry.dataExtent ∈ heap.blocks :=
  laid.blocks entry member _ (List.mem_cons_of_mem _ List.mem_cons_self)

theorem node_fits (laid : Laid heap width entries) (member : entry ∈ entries) :
    entry.node + width ≤ 2 ^ 32 :=
  (heap.inside _ (laid.node_mem member)).2.2

theorem data_fits (laid : Laid heap width entries) (member : entry ∈ entries) :
    entry.data + entry.value.length ≤ 2 ^ 32 :=
  (heap.inside _ (laid.data_mem member)).2.2

/-- The blocks of two entries are apart. -/
theorem apart_of_ne (laid : Laid heap width entries) (member : entry ∈ entries)
    (otherMember : other ∈ entries) (different : entry ≠ other) :
    ∀ extent ∈ entry.extents width, ∀ extent' ∈ other.extents width, extent.Apart extent' := by
  have pairs := (List.pairwise_flatMap.mp laid.apart).2
  have : Std.Symm fun first second : Entry => ∀ extent ∈ first.extents width,
      ∀ extent' ∈ second.extents width, extent.Apart extent' :=
    ⟨fun _ _ apart extent here extent' there => (apart extent' there extent here).symm⟩
  exact pairs.forall member otherMember different

/-- The node and the copy of an entry are apart. -/
theorem apart_self (laid : Laid heap width entries) (member : entry ∈ entries) :
    (entry.nodeExtent width).Apart entry.dataExtent := by
  have pairs := (List.pairwise_flatMap.mp laid.apart).1 entry member
  exact (List.pairwise_cons.mp pairs).1 _ List.mem_cons_self

/-- Every copy is apart from every node. -/
theorem node_apart_data (laid : Laid heap width entries) (member : entry ∈ entries)
    (otherMember : other ∈ entries) : (entry.nodeExtent width).Apart other.dataExtent := by
  by_cases same : entry = other
  · rw [← same]
    exact laid.apart_self member
  · exact laid.apart_of_ne member otherMember same _ List.mem_cons_self _
      (List.mem_cons_of_mem _ List.mem_cons_self)

/-- The nodes of two entries are apart. -/
theorem node_apart_node (laid : Laid heap width entries) (member : entry ∈ entries)
    (otherMember : other ∈ entries) (different : entry ≠ other) :
    (entry.nodeExtent width).Apart (other.nodeExtent width) :=
  laid.apart_of_ne member otherMember different _ List.mem_cons_self _ List.mem_cons_self

/-- A list of entries has no more nodes than the heap has blocks. -/
theorem length_le (laid : Laid heap width entries) (nodup : (entries.map Entry.node).Nodup) :
    entries.length ≤ heap.blocks.length := by
  have distinct : (entries.map fun entry => entry.nodeExtent width).Nodup := by
    rw [List.Nodup, List.pairwise_map] at nodup ⊢
    exact nodup.imp fun different same => different (congrArg Extent.start same)
  have inBlocks : (entries.map fun entry => entry.nodeExtent width) ⊆ heap.blocks := by
    intro extent member
    obtain ⟨entry, isEntry, rfl⟩ := List.mem_map.mp member
    exact laid.node_mem isEntry
  have bound := (distinct.subperm inBlocks).length_le
  rwa [List.length_map] at bound

/-- The nodes fit into the address space together. -/
theorem mul_length_le (laid : Laid heap width entries) : width * entries.length ≤ 2 ^ 32 := by
  have total := sum_size_le laid.apart fun extent member => by
    obtain ⟨entry, isEntry, isExtent⟩ := List.mem_flatMap.mp member
    exact (heap.inside extent (laid.blocks entry isEntry extent isExtent)).2.2
  refine Nat.le_trans ?_ total
  clear laid total
  induction entries with
  | nil => exact Nat.zero_le _
  | cons entry entries ih =>
      rw [List.flatMap_cons, List.map_append, List.sum_append_nat, List.length_cons, Nat.mul_succ]
      simp only [Entry.extents, Entry.nodeExtent, List.map_cons, List.sum_cons]
      omega

/-- The entries after the first one. -/
theorem of_cons (laid : Laid heap width (entry :: entries)) : Laid heap width entries := by
  have rest := laid.apart
  rw [List.flatMap_cons] at rest
  exact ⟨fun other member => laid.blocks other (List.mem_cons_of_mem _ member),
    (List.pairwise_append.mp rest).2.1,
    fun other member => laid.stored other (List.mem_cons_of_mem _ member)⟩

/-- The order of the entries does not matter. -/
theorem perm {others : List Entry} (laid : Laid heap width entries) (same : entries.Perm others) :
    Laid heap width others :=
  ⟨fun entry member => laid.blocks entry (same.mem_iff.mpr member),
    (same.flatMap_right _).pairwise laid.apart Extent.Apart.symm,
    fun entry member => laid.stored entry (same.mem_iff.mpr member)⟩

/-- Entries do not depend on the `next` words, nor on the bytes of other blocks. -/
theorem of_memory (laid : Laid heap width entries) (wide : 8 ≤ width)
    (blocks : ∀ block ∈ heap.blocks, block ∈ after.blocks)
    (nodes : ∀ entry ∈ entries, ∀ address, entry.node + 4 ≤ address → address < entry.node + 8 →
      after.memory address = heap.memory address)
    (copies : ∀ entry ∈ entries, ∀ address, entry.dataExtent.Contains address →
      after.memory address = heap.memory address) : Laid after width entries := by
  refine ⟨fun entry member extent isExtent => blocks _ (laid.blocks entry member extent isExtent),
    laid.apart, ?_⟩
  intro entry member
  have nodeFits := laid.node_fits member
  have dataFits := laid.data_fits member
  obtain ⟨points, value⟩ := laid.stored entry member
  refine ⟨?_, ?_⟩
  · rw [← points]
    apply loadWord_congr
    intro i bound
    rw [offset_offset, offset_eq (by omega)]
    exact nodes entry member _ (by omega) (by omega)
  · refine Eq.trans (readBytes_congr ?_) value
    intro i bound
    rw [offset_eq (by omega)]
    exact copies entry member _ (Extent.contains_mk (by omega) (by omega))

/-! ## A store to a `next` word -/

theorem setNext_frame {memory : Memory} {node next address : ℕ} (fits : node + 4 ≤ 2 ^ 32)
    (outside : address < node ∨ node + 4 ≤ address) :
    setNext memory node next address = memory address := by
  apply storeWord_frame
  intro i bound
  rw [offset_eq (by omega)]
  omega

/-- A byte of another block is outside the `next` word of a node. -/
theorem outside_next {node address : ℕ} {extent : Extent} (wide : 8 ≤ width)
    (apart : Extent.Apart ⟨node, width⟩ extent) (contained : extent.Contains address) :
    address < node ∨ node + 4 ≤ address := by
  have outside := apart.outside contained
  omega

/-- Linking a node keeps all entries. -/
theorem setNext (laid : Laid heap width entries) (wide : 8 ≤ width) (member : entry ∈ entries)
    (next : ℕ) : Laid (heap.store (Utils.setNext heap.memory entry.node next)) width entries := by
  have fits := laid.node_fits member
  refine laid.of_memory wide (fun _ => id) ?_ ?_
  · intro other otherMember address above below
    apply setNext_frame (by omega)
    by_cases same : entry = other
    · rw [same]
      exact .inr above
    · have inNode : (other.nodeExtent width).Contains address :=
        Extent.contains_mk (by omega) (by omega)
      exact outside_next wide (laid.node_apart_node member otherMember same) inNode
  · intro other otherMember address contained
    exact setNext_frame (by omega) (outside_next wide (laid.node_apart_data member otherMember)
      contained)

theorem listNext_setNext_self {memory : Memory} {node next : ℕ} (word : next < 2 ^ 32) :
    listNext (Utils.setNext memory node next) node = next :=
  loadWord_storeWord word

/-- Linking a node leaves the `next` words of the other nodes. -/
theorem listNext_setNext_of_ne (laid : Laid heap width entries) (wide : 8 ≤ width)
    (member : entry ∈ entries) (otherMember : other ∈ entries) (different : entry ≠ other)
    (next : ℕ) : listNext (Utils.setNext heap.memory entry.node next) other.node =
      listNext heap.memory other.node := by
  have fits := laid.node_fits member
  have otherFits := laid.node_fits otherMember
  apply loadWord_congr
  intro i bound
  rw [offset_eq (by omega)]
  refine setNext_frame (by omega) (outside_next wide
    (laid.node_apart_node member otherMember different) ?_)
  exact Extent.contains_mk (by omega) (by omega)

/-! ## A new node -/

section Create

variable {memory : Memory} {newnode tmp : ℕ} {data : List Byte}

/-- The memory after the last statements of `list_create_noalloc`. -/
def created (memory : Memory) (data : List Byte) (newnode tmp : ℕ) : Memory :=
  Utils.setNext (setData (writeBytes memory tmp data) newnode tmp) newnode 0

/-- A new node writes its own two words and its copy. -/
theorem created_frame {address : ℕ} (fits : newnode + 8 ≤ 2 ^ 32)
    (dataFits : tmp + data.length ≤ 2 ^ 32)
    (outsideNode : address < newnode ∨ newnode + 8 ≤ address)
    (outsideData : address < tmp ∨ tmp + data.length ≤ address) :
    created memory data newnode tmp address = memory address := by
  have copied : writeBytes memory tmp data address = memory address := by
    apply writeBytes_frame
    intro i bound
    rw [offset_eq (by omega)]
    omega
  have pointed : setData (writeBytes memory tmp data) newnode tmp address =
      writeBytes memory tmp data address := by
    apply storeWord_frame
    intro i bound
    rw [offset_offset, offset_eq (by omega)]
    omega
  rw [created, setNext_frame (by omega) (by omega), pointed, copied]

theorem created_next : listNext (created memory data newnode tmp) newnode = 0 :=
  loadWord_storeWord (by decide)

/-- The new node points to its copy. -/
theorem created_stored (fits : newnode + 8 ≤ 2 ^ 32) (word : tmp < 2 ^ 32)
    (dataFits : tmp + data.length ≤ 2 ^ 32)
    (apart : Extent.Apart ⟨tmp, data.length⟩ ⟨newnode, 8⟩) :
    Entry.StoredIn ⟨newnode, tmp, data⟩ (created memory data newnode tmp) := by
  have place : offset newnode 4 = newnode + 4 := offset_eq (by omega)
  refine ⟨?_, ?_⟩
  · rw [listData, created, Utils.setNext, setData, place,
      loadWord_storeWord_of_apart (by omega) (by omega) (by omega), loadWord_storeWord word]
  · have copied := @readBytes_writeBytes memory tmp data (by omega)
    refine Eq.trans (readBytes_congr ?_) copied
    intro i (bound : i < data.length)
    have outside := apart (tmp + i) (Extent.contains_mk (by omega) (by omega))
    simp only [Extent.Contains] at outside
    rw [offset_eq (show tmp + i < 2 ^ 32 by omega), created,
      setNext_frame (by omega) (by omega)]
    apply storeWord_frame
    intro j small
    rw [place, offset_eq (by omega)]
    omega

end Create

/-- What `list_create_noalloc` leaves, for a node that already is a block. -/
theorem create (laid : Laid heap width entries) (wide : 8 ≤ width) {newnode tmp : ℕ}
    {data : List Byte} (block : ⟨newnode, width⟩ ∈ heap.blocks)
    (separate : ∀ entry ∈ entries, ∀ extent ∈ entry.extents width,
      Extent.Apart ⟨newnode, width⟩ extent)
    (called : listCreateNoalloc heap data newnode tmp = some after) :
    Laid after width (entries ++ [⟨newnode, tmp, data⟩]) ∧
      listNext after.memory newnode = 0 ∧
      after.blocks = ⟨tmp, data.length⟩ :: heap.blocks ∧
      ∀ other ∈ heap.blocks, Extent.Apart ⟨newnode, width⟩ other →
        ∀ address, other.Contains address → after.memory address = heap.memory address := by
  obtain ⟨between, requested, rfl⟩ := Option.map_eq_some_iff.mp called
  obtain ⟨⟨⟨-, word, dataFits⟩, fresh⟩, memory, blocks⟩ := mmuMmap_spec requested
  simp only at word dataFits
  have nodeFits : newnode + width ≤ 2 ^ 32 := (heap.inside _ block).2.2
  have narrow : Extent.Inside ⟨newnode, 8⟩ ⟨newnode, width⟩ :=
    Extent.inside_of_le (Nat.le_refl _) (by simp only; omega)
  have frame : ∀ other ∈ heap.blocks, Extent.Apart ⟨newnode, width⟩ other →
      ∀ address, other.Contains address →
        created between.memory data newnode tmp address = heap.memory address := by
    intro other member apart address contained
    have outsideNode : ¬Extent.Contains ⟨newnode, 8⟩ address :=
      fun inside => apart address (narrow address inside) contained
    have outsideData : ¬Extent.Contains ⟨tmp, data.length⟩ address :=
      fun inside => fresh other member address inside contained
    simp only [Extent.Contains] at outsideNode outsideData
    rw [created_frame (by omega) dataFits (by omega) (by omega), memory]
  have kept : Laid (between.store (created between.memory data newnode tmp)) width entries := by
    refine laid.of_memory wide (fun other => ?_) ?_ ?_
    · rw [Heap.store_blocks, blocks]
      exact List.mem_cons_of_mem _
    · intro entry member address above below
      refine frame _ (laid.node_mem member) (separate entry member _ List.mem_cons_self) _ ?_
      exact Extent.contains_mk (by omega) (by omega)
    · intro entry member address contained
      exact frame _ (laid.data_mem member)
        (separate entry member _ (List.mem_cons_of_mem _ List.mem_cons_self)) _ contained
  refine ⟨⟨?_, ?_, ?_⟩, created_next, blocks, frame⟩
  · refine List.forall_mem_append.mpr ⟨kept.blocks, ?_⟩
    simp only [List.mem_singleton, forall_eq, Entry.extents, List.forall_mem_cons,
      Heap.store_blocks, blocks]
    exact ⟨List.mem_cons_of_mem _ block, List.mem_cons_self⟩
  · rw [List.flatMap_append, List.pairwise_append]
    refine ⟨laid.apart, ?_, ?_⟩
    · simp only [List.flatMap_singleton, Entry.extents, List.pairwise_pair]
      exact (fresh _ block).symm
    · intro extent old
      obtain ⟨entry, member, isExtent⟩ := List.mem_flatMap.mp old
      simp only [List.flatMap_singleton, Entry.extents, List.forall_mem_cons]
      exact ⟨(separate entry member extent isExtent).symm,
        (fresh extent (laid.blocks entry member extent isExtent)).symm, nofun⟩
  · refine List.forall_mem_append.mpr ⟨kept.stored, ?_⟩
    simp only [List.mem_singleton, forall_eq]
    exact created_stored (by omega) word dataFits
      ((narrow.apart (fresh _ block).symm).symm)

/-- What a fresh node leaves: one more entry, and every block as it was. -/
theorem create_fresh {between : Heap} (laid : Laid heap width entries) (wide : 8 ≤ width)
    {newnode tmp : ℕ} {data : List Byte}
    (requested : mmuMmap heap ⟨newnode, width⟩ = some between)
    (called : listCreateNoalloc between data newnode tmp = some after) :
    Laid after width (entries ++ [⟨newnode, tmp, data⟩]) ∧
      listNext after.memory newnode = 0 ∧
      after.blocks = ⟨tmp, data.length⟩ :: ⟨newnode, width⟩ :: heap.blocks ∧
      ∀ block ∈ heap.blocks, ∀ address, block.Contains address →
        after.memory address = heap.memory address := by
  obtain ⟨⟨-, fresh⟩, memory, blocks⟩ := mmuMmap_spec requested
  have old : ∀ block ∈ heap.blocks, block ∈ between.blocks := by
    intro block member
    rw [blocks]
    exact List.mem_cons_of_mem _ member
  have kept : Laid between width entries :=
    laid.of_memory wide old (fun _ _ _ _ _ => congrFun memory _)
      (fun _ _ _ _ => congrFun memory _)
  have block : ⟨newnode, width⟩ ∈ between.blocks := by
    rw [blocks]
    exact List.mem_cons_self
  obtain ⟨more, next, afterBlocks, frame⟩ := kept.create wide block
    (fun entry member extent isExtent => fresh _ (laid.blocks entry member extent isExtent)) called
  refine ⟨more, next, by rw [afterBlocks, blocks], ?_⟩
  intro other member address contained
  rw [frame other (old other member) (fresh other member) address contained, memory]

/-- A chain of entries is the same in a memory with the same blocks. -/
theorem chain_frame {linked : List Entry} {start : ℕ} (laid : Laid heap width entries)
    (wide : 8 ≤ width) (inside : ∀ entry ∈ linked, entry ∈ entries)
    (same : ∀ block ∈ heap.blocks, ∀ address, block.Contains address →
      after.memory address = heap.memory address)
    (chain : Chain (listNext heap.memory) 0 start (linked.map Entry.node)) :
    Chain (listNext after.memory) 0 start (linked.map Entry.node) := by
  refine chain.congr ?_
  intro node member
  obtain ⟨entry, isLinked, rfl⟩ := List.mem_map.mp member
  have fits := laid.node_fits (inside entry isLinked)
  apply loadWord_congr
  intro i bound
  rw [offset_eq (by omega)]
  refine same _ (laid.node_mem (inside entry isLinked)) _ ?_
  exact Extent.contains_mk (by omega) (by omega)

/-- An entry that comes after others is none of them. -/
theorem ne_new {new : Entry} (laid : Laid heap width (entries ++ [new])) (wide : 8 ≤ width)
    (member : entry ∈ entries) : entry ≠ new := by
  intro same
  have pairs := (List.pairwise_append.mp (List.pairwise_flatMap.mp laid.apart).2).2.2
  have apart := pairs entry member new List.mem_cons_self _ List.mem_cons_self _ List.mem_cons_self
  have first : new.node < new.node + width := by omega
  rw [same] at apart
  exact apart new.node ⟨Nat.le_refl _, first⟩ ⟨Nat.le_refl _, first⟩

/-- What `list_insert_after` does to the `next` words. -/
theorem linkAfter (laid : Laid heap width entries) (wide : 8 ≤ width) {new : Entry}
    (member : entry ∈ entries) (newMember : new ∈ entries) (different : entry ≠ new) :
    Laid (heap.store (Utils.linkAfter heap.memory entry.node new.node)) width entries ∧
      listNext (Utils.linkAfter heap.memory entry.node new.node) entry.node = new.node ∧
      listNext (Utils.linkAfter heap.memory entry.node new.node) new.node =
        listNext heap.memory entry.node ∧
      ∀ other ∈ entries, other ≠ entry → other ≠ new →
        listNext (Utils.linkAfter heap.memory entry.node new.node) other.node =
          listNext heap.memory other.node := by
  have word : new.node < 2 ^ 32 := by
    have fits := laid.node_fits newMember
    omega
  have pointed := laid.setNext wide newMember (listNext heap.memory entry.node)
  refine ⟨pointed.setNext wide member new.node, listNext_setNext_self word, ?_, ?_⟩
  · have kept := pointed.listNext_setNext_of_ne wide member newMember different new.node
    exact kept.trans (listNext_setNext_self (loadWord_lt _ _))
  · intro other otherMember notEntry notNew
    have kept := pointed.listNext_setNext_of_ne wide member otherMember notEntry.symm new.node
    exact kept.trans (laid.listNext_setNext_of_ne wide newMember otherMember notNew.symm _)

/-- **A new last node.** When the entries `linked` form a chain and the last of them is
linked to a new entry that leads nowhere, the chain has one more node. -/
theorem chain_concat {new : Entry} {linked : List Entry} {start : ℕ}
    (laid : Laid heap width (entries ++ [new])) (wide : 8 ≤ width)
    (chain : Chain (listNext heap.memory) 0 start (linked.map Entry.node))
    (inside : ∀ entry ∈ linked, entry ∈ entries) (ends : linked.getLast? = some entry) :
    Chain (listNext (Utils.linkAfter heap.memory entry.node new.node)) 0 start
      ((linked ++ [new]).map Entry.node) := by
  have old {other : Entry} (isLinked : other ∈ linked) : other ∈ entries ++ [new] :=
    List.mem_append_left _ (inside other isLinked)
  have isLinked := List.mem_of_getLast? ends
  have newMember : new ∈ entries ++ [new] := List.mem_append_right _ List.mem_cons_self
  have nonnull : new.node ≠ 0 := (heap.inside _ (laid.node_mem newMember)).1
  obtain ⟨-, linkedTo, stop, others⟩ :=
    laid.linkAfter wide (old isLinked) newMember (laid.ne_new wide (inside _ isLinked))
  have nodeEnds : (linked.map Entry.node).getLast? = some entry.node := by
    rw [List.getLast?_map, ends, Option.map_some]
  rw [List.map_append, List.map_singleton]
  refine chain.concat nodeEnds ?_ linkedTo nonnull (stop.trans (chain.next_getLast nodeEnds))
  intro node member notLast
  obtain ⟨other, otherLinked, rfl⟩ := List.mem_map.mp member
  refine others other (old otherLinked) ?_ (laid.ne_new wide (inside other otherLinked))
  intro same
  exact notLast (congrArg Entry.node same)

end Laid

/-! ## Removing the first node from itself -/

/-- With the first node of a list as the node to remove, the loop of `list_remove`
goes to the end, since no node leads to the first one: nothing is removed. -/
theorem listRemove_start {heap : Heap} {start : ℕ} {nodes : List ℕ}
    (chain : Chain (listNext heap.memory) 0 start nodes) (nonempty : nodes ≠ [])
    (enough : nodes.length ≤ heap.blocks.length + 1) :
    listRemove heap start start = some (-1, heap) := by
  have ends : nodes.getLast? = some (nodes.getLast nonempty) :=
    List.getLast?_eq_some_getLast nonempty
  unfold listRemove
  generalize found : nodes.find? (fun list =>
    listNext heap.memory list = 0 || listNext heap.memory list = start) = first
  cases first with
  | none =>
      have failed := List.find?_eq_none.mp found _ (List.mem_of_getLast? ends)
      simp [chain.next_getLast ends] at failed
  | some last =>
      have passed := List.find?_some found
      have back := chain.next_ne_start (List.mem_of_find?_eq_some found)
      simp only [Bool.or_eq_true, decide_eq_true_eq, back, or_false] at passed
      simp only [chain.follow_found found enough, Option.map_some, if_pos passed]

end CatchOS.Utils
