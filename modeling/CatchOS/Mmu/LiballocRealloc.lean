import CatchOS.Mmu.LiballocBlocks

/-!
# Blocks with contents

What `realloc` and `calloc` do to the heap and to the bytes of the blocks. A block that gets
smaller stays where it is, and only the size in its header changes (`HeapOf.shrink`). One that
gets larger is copied to a new block before it is given back, words first and then the bytes
that are left (`liballocMemcpy_eq`).

Neither function looks at the answer of its `malloc`: when there is no block, `calloc` clears the
bytes from the address 0 on, and `realloc` copies the old bytes to there, where the kernel is. So
both are described for requests that get a block (`Gives`).
-/

set_option autoImplicit false

namespace CatchOS.Mmu

open CatchOS CatchOS.Lib

universe u

namespace Liballoc

/-! ## Copies -/

section Memcpy

variable {memory : Memory} {dst src : ℕ}

theorem copyWords_eq {words : ℕ} (fits : dst + 4 * words ≤ 2 ^ 32)
    (srcFits : src + 4 * words ≤ 2 ^ 32)
    (apart : dst + 4 * words ≤ src ∨ src + 4 * words ≤ dst) :
    copyWords words memory dst src = writeBytes memory dst (readBytes memory src (4 * words)) := by
  induction words generalizing memory dst src with
  | zero => rfl
  | succ words ih =>
      have length := length_readBytes memory src 4
      rw [copyWords, Nat.mul_succ, Nat.add_comm (4 * words), readBytes_add, writeBytes_append,
        length,
        storeWord_loadWord]
      cases words with
      | zero => rfl
      | succ words =>
          rw [offset_eq (by omega), offset_eq (by omega), ih (by omega) (by omega) (by omega),
            readBytes_writeBytes_of_apart (by rw [length]; omega) (by omega)
              (by rw [length]; omega)]

theorem copyBytes_eq {bytes : ℕ} (fits : dst + bytes ≤ 2 ^ 32) (srcFits : src + bytes ≤ 2 ^ 32)
    (apart : dst + bytes ≤ src ∨ src + bytes ≤ dst) :
    copyBytes bytes memory dst src = writeBytes memory dst (readBytes memory src bytes) := by
  induction bytes generalizing memory dst src with
  | zero => rfl
  | succ bytes ih =>
      rw [copyBytes, readBytes_succ, writeBytes]
      cases bytes with
      | zero => rfl
      | succ bytes =>
          rw [offset_eq (show dst + 1 < 2 ^ 32 by omega),
            offset_eq (show src + 1 < 2 ^ 32 by omega),
            ih (by omega) (by omega) (by omega)]
          refine congrArg _ (readBytes_congr fun i bound => Function.update_of_ne ?_ _ _)
          rw [offset_eq (by omega), offset_eq (by omega)]
          omega

/-- **`liballoc_memcpy`** of blocks that are apart. -/
theorem liballocMemcpy_eq {n : ℕ} (fits : dst + n < 2 ^ 32) (srcFits : src + n < 2 ^ 32)
    (apart : dst + n ≤ src ∨ src + n ≤ dst) :
    liballocMemcpy memory dst src n = writeBytes memory dst (readBytes memory src n) := by
  have whole : 4 * (n / 4) + n % 4 = n := Nat.div_add_mod n 4
  have length := length_readBytes memory src (4 * (n / 4))
  have split : readBytes memory src n = readBytes memory src (4 * (n / 4)) ++
      readBytes memory (offset src (4 * (n / 4))) (n % 4) := by
    rw [← readBytes_add, whole]
  rw [split, writeBytes_append, length]
  unfold liballocMemcpy
  simp only
  rw [copyWords_eq (by omega) (by omega) (by omega), offset_eq (by omega), offset_eq (by omega),
    copyBytes_eq (by omega) (by omega) (by omega),
    readBytes_writeBytes_of_apart (by rw [length]; omega) (by omega) (by rw [length]; omega)]

end Memcpy

variable {Source : Type u} {source : PageSource Source} {state : Liballoc Source}
  {major : Major} {minor : Minor} {before after : List Minor} {blocks : List Extent}
  {block : Extent} {size : ℕ}

/-! ## Smaller blocks -/

/-- The minor with another size for its owner. -/
def shrunk (minor : Minor) (size : ℕ) : Minor := { minor with reqSize := size }

theorem laid_shrink (laid : major.Laid) (split : major.minors = before ++ [minor] ++ after)
    (smaller : size ≤ minor.reqSize) :
    (major.withMinors (before ++ [shrunk minor size] ++ after)).Laid where
  nonnull := laid.nonnull
  row := by
    have row := laid.row
    rw [split] at row
    simp only [Major.withMinors_minors, List.map_append] at row ⊢
    exact row
  roomy := by
    intro other member
    have roomy : ∀ other ∈ before ++ [minor] ++ after, other.Roomy := split ▸ laid.roomy
    rcases List.mem_append.mp member with inFront | behind
    · rcases List.mem_append.mp inFront with inBefore | here
      · exact roomy other (List.mem_append_left _ (List.mem_append_left _ inBefore))
      · have room := roomy minor (by simp)
        rw [List.mem_singleton.mp here]
        simp only [Minor.Roomy, shrunk] at room ⊢
        omega
    · exact roomy other (List.mem_append_right _ behind)
  fits := laid.fits

/-- Storing the size of a smaller block replaces its minor. -/
theorem shrink_spliced {memory : Memory} {place place' : ℕ}
    (stored : MajorStored memory place major place') (laid : major.Laid)
    (split : major.minors = before ++ [minor] ++ after) (smaller : size ≤ minor.reqSize) :
    Spliced memory (setMinor memory minor.start .reqSize size) major before [minor]
      [shrunk minor size] after := by
  have member : minor ∈ major.minors := by simp [split]
  have bounds := laid.bounds member
  have pointer := minor.pointer_bounds
  have minors := stored.minors
  rw [split, List.append_assoc, linked_append, List.singleton_append] at minors
  obtain ⟨inBefore, here, inAfter⟩ := minors
  have usage : (major.withMinors (before ++ [shrunk minor size] ++ after)).usage = major.usage := by
    simp only [Major.usage, Major.withMinors_minors, split, List.map_append, List.map_cons,
      List.map_nil]
    rfl
  have apart {other : Minor} (isOther : other ∈ before ++ after) :
      other.start + 24 ≤ 2 ^ 32 ∧
        (other.start + 24 ≤ minor.start ∨ minor.start + 24 ≤ other.start) := by
    have inMajor : other ∈ major.minors := by
      rw [split, List.append_assoc]
      rcases List.mem_append.mp isOther with front | back
      · exact List.mem_append_left _ front
      · exact List.mem_append_right _ (List.mem_cons_of_mem _ back)
    have otherBounds := laid.bounds inMajor
    refine ⟨by omega, ?_⟩
    rcases laid.across split isOther (List.mem_singleton_self minor) with order | order
    all_goals
      unfold Minor.Before at order
      omega
  refine ⟨?_, ⟨⟨?_, ?_⟩, trivial⟩, ?_, ?_, ?_⟩
  · have kept : @record MajorField _ (setMinor memory minor.start .reqSize size) major.start =
        record memory major.start := major_setMinor (by omega) (by omega) (.inl bounds.1)
    rw [kept, stored.header, usage]
    funext field
    cases field with
    | first =>
        rw [Function.update_of_ne (by decide), Function.update_self, majorHeader, split]
        simp only [List.append_assoc, firstOf_append]
        rfl
    | usage =>
        rw [Function.update_self]
        rfl
    | _ => rfl
  · have changed : record (setMinor memory minor.start .reqSize size) minor.start =
        Function.update (record memory minor.start) MinorField.reqSize size :=
      record_setMinor (by omega) (by omega)
    refine Eq.trans changed ?_
    rw [here.header]
    funext field
    cases field <;> rfl
  · refine Eq.trans (setMinor_frame (by omega) ?_) here.distance
    have same : (shrunk minor size).pointer = minor.pointer := rfl
    simp only [InHeader, alignInfo, same]
    omega
  · intro other last
    have isOther := List.mem_of_mem_getLast? last
    obtain ⟨fits, order⟩ := apart (List.mem_append_left after isOther)
    have kept : @record MinorField _ (setMinor memory minor.start .reqSize size) other.start =
        record memory other.start := minor_setMinor fits (by omega) order
    rw [kept]
    refine (Function.update_eq_self_iff.mpr ?_).symm
    obtain ⟨rest, rfl⟩ := List.getLast?_eq_some_iff.mp last
    rw [linked_append] at inBefore
    exact (congrFun inBefore.2.1.header .next).symm
  · intro other first
    have isOther := List.mem_of_mem_head? first
    obtain ⟨fits, order⟩ := apart (List.mem_append_right before isOther)
    have kept : @record MinorField _ (setMinor memory minor.start .reqSize size) other.start =
        record memory other.start := minor_setMinor fits (by omega) order
    rw [kept]
    refine (Function.update_eq_self_iff.mpr ?_).symm
    obtain ⟨rest, rfl⟩ := List.head?_eq_some_iff.mp first
    exact (congrFun inAfter.1.header .prev).symm
  · intro address _ _ _ outside
    refine setMinor_frame (by omega) fun inHeader => ?_
    refine outside minor List.mem_cons_self ?_
    simp only [InHeader, Extent.Contains, Minor.head, minorHeaderSize, alignInfo] at *
    omega

/-- A request does not get `NULL`. -/
def Gives (hooks : Hooks Source) (state : Liballoc Source) (size : ℕ) : Prop :=
  ∀ after, Liballoc.malloc hooks state size ≠ some (0, after)

namespace HeapOf

/-- The header of a block, as `free` and `realloc` find it. -/
theorem header (heap : HeapOf source state blocks) (member : block ∈ blocks) :
    minorAt state.memory (headerOf state.memory block.start) .magic = liballocMagic ∧
      minorAt state.memory (headerOf state.memory block.start) .reqSize = block.size := by
  obtain ⟨majors, stored, -, perm⟩ := heap
  obtain ⟨front, major, back, before, minor, after, rfl, split, rfl⟩ :=
    exists_minor (perm.subset member)
  have here := stored.storedMinor split
  have found : headerOf state.memory minor.block.start = minor.start :=
    headerOf_stored here (minor_fits (stored.laid major HeapStored.mem_middle) split)
  rw [found]
  exact ⟨congrFun here.header .magic, congrFun here.header .reqSize⟩

/-- **A block gets smaller** at its place. -/
theorem shrink (heap : HeapOf source state (block :: blocks)) (smaller : size ≤ block.size) :
    HeapOf source
        { state with
          memory := setMinor state.memory (headerOf state.memory block.start) .reqSize size }
        (⟨block.start, size⟩ :: blocks) ∧
      SameOn (block :: blocks) state.memory
        (setMinor state.memory (headerOf state.memory block.start) .reqSize size) := by
  obtain ⟨majors, stored, inUse, perm⟩ := heap
  obtain ⟨front, major, back, before, minor, after, rfl, split, rfl⟩ :=
    exists_minor (perm.subset List.mem_cons_self)
  have laid := stored.laid major HeapStored.mem_middle
  have member : minor ∈ major.minors := by simp [split]
  have bounds := laid.bounds member
  have found : headerOf state.memory minor.block.start = minor.start :=
    headerOf_stored (stored.storedMinor split) (minor_fits laid split)
  have same : major.withMinors (before ++ [minor] ++ after) = major := by rw [← split]; rfl
  have spliced := shrink_spliced stored.stored laid split smaller
  have laid' : (major.withMinors (before ++ [shrunk minor size] ++ after)).Laid :=
    laid_shrink laid split smaller
  have changed := stored.respliced split laid' spliced
  have total :
      bytesInUse (front ++ [major.withMinors (before ++ [shrunk minor size] ++ after)] ++ back) =
      state.inuse := by
    rw [stored.inuse]
    simp only [bytesInUse_append, bytesInUse_singleton, Major.withMinors_minors, split,
      List.map_append, List.map_cons, List.map_nil]
    rfl
  rw [total] at changed
  rw [found]
  refine ⟨⟨_, changed, ?_, ?_⟩, fun address kept => ?_⟩
  · intro other isOther
    rw [List.append_assoc] at isOther
    rcases List.mem_append.mp isOther with inFront | behind
    · exact inUse other (HeapStored.mem_beside (List.mem_append_left _ inFront))
    · rcases List.mem_cons.mp behind with rfl | inBack
      · simp
      · exact inUse other (HeapStored.mem_beside (List.mem_append_right _ inBack))
  · have taken := heapBlocks_perm front back major before [minor] after
    have added := heapBlocks_perm front back major before [shrunk minor size] after
    rw [same] at taken
    exact ((perm.trans taken).cons_inv.cons _).trans added.symm
  · have notHeader := stored.not_header HeapStored.mem_middle (kept.subset perm.subset)
    refine setMinor_frame (by omega) fun inHeader => notHeader (.inr ⟨minor, member, ?_⟩)
    simp only [InHeader, Extent.Contains, Minor.head, minorHeaderSize, alignInfo] at *
    omega

/-- The owner of a block fills it from its start on. -/
theorem fill (heap : HeapOf source state (block :: blocks)) {bytes : List Byte}
    (short : bytes.length ≤ block.size) :
    HeapOf source { state with memory := writeBytes state.memory block.start bytes }
        (block :: blocks) ∧
      SameOn blocks state.memory (writeBytes state.memory block.start bytes) ∧
      readBytes (writeBytes state.memory block.start bytes) block.start bytes.length = bytes := by
  have bounds := heap.bounds List.mem_cons_self
  obtain ⟨written, same⟩ := @HeapOf.write _ _ _ _ _ heap block.start bytes (Nat.le_refl _)
    (by omega)
  exact ⟨written, same, readBytes_writeBytes (by omega)⟩

/-- **A block moves**: its bytes are copied to a block that is as large, and it is given back. -/
theorem move {new : Extent} {after : Liballoc Source}
    (heap : HeapOf source state (new :: block :: blocks)) (larger : block.size ≤ new.size)
    (freed : Liballoc.free source.toHooks
      { state with memory := liballocMemcpy state.memory new.start block.start block.size }
      block.start = after) :
    HeapOf source after (new :: blocks) ∧ SameOn blocks state.memory after.memory ∧
      readBytes after.memory new.start block.size =
        readBytes state.memory block.start block.size := by
  have bounds := heap.bounds (List.mem_cons_of_mem _ List.mem_cons_self)
  obtain ⟨-, -, fits⟩ := heap.bounds List.mem_cons_self
  have apart := Extent.apart_iff.mp
    ((List.pairwise_cons.mp heap.apart).1 block List.mem_cons_self)
  have copied : liballocMemcpy state.memory new.start block.start block.size =
      writeBytes state.memory new.start (readBytes state.memory block.start block.size) :=
    liballocMemcpy_eq (by omega) (by omega) (by omega)
  have length := length_readBytes state.memory block.start block.size
  obtain ⟨written, unwritten, read⟩ := heap.fill (length.trans_le larger)
  rw [length] at read
  obtain ⟨kept, same⟩ := (written.perm (List.Perm.swap _ _ _)).free
  rw [← copied, freed] at kept same
  rw [← copied] at unwritten read
  refine ⟨kept, ?_, ?_⟩
  · exact (unwritten.subset (List.subset_cons_self _ _)).trans
      (same.subset (List.subset_cons_self _ _))
  · exact (same.sameBlocks.readBytes List.mem_cons_self fits larger).trans read

/-- **`realloc`** of a block returns one of the new size with the old bytes, or, for the size zero,
gives the block back and returns `NULL`. -/
theorem realloc (heap : HeapOf source state (block :: blocks)) (small : size + 80 < 2 ^ 32)
    (given : block.size < size → Gives source.toHooks state size) :
    ∃ ret after, Liballoc.realloc source.toHooks state block.start size = some (ret, after) ∧
      SameOn blocks state.memory after.memory ∧
      ((ret = 0 ∧ size = 0 ∧ HeapOf source after blocks) ∨
      (ret ≠ 0 ∧ HeapOf source after (⟨ret, size⟩ :: blocks) ∧
        readBytes after.memory ret (min block.size size) =
          readBytes state.memory block.start (min block.size size))) := by
  have bounds := heap.bounds List.mem_cons_self
  have nonnull : ¬block.start = 0 := by omega
  obtain ⟨magic, reqSize⟩ := heap.header List.mem_cons_self
  have shrink (smaller : size ≤ block.size) := heap.shrink smaller
  obtain ⟨found, place⟩ : ∃ found, headerOf state.memory block.start = found := ⟨_, rfl⟩
  have place' : wordSub (unalign state.memory block.start) minorHeaderSize = found := place
  rw [place] at magic reqSize shrink
  unfold Liballoc.realloc
  by_cases none' : size = 0
  · obtain ⟨freed, same⟩ := heap.free
    rw [if_pos none']
    exact ⟨_, _, rfl, same, .inl ⟨rfl, none', freed⟩⟩
  rw [if_neg none', if_neg nonnull]
  simp only [place', magic, reqSize, ne_eq, not_true_eq_false, if_false]
  by_cases smaller : size ≤ block.size
  · obtain ⟨shrunk, same⟩ := shrink smaller
    rw [if_pos smaller]
    refine ⟨_, _, rfl, same.subset (List.subset_cons_self _ _), .inr ⟨nonnull, shrunk, ?_⟩⟩
    exact same.sameBlocks.readBytes List.mem_cons_self bounds.2.2 (Nat.min_le_left _ _)
  rw [if_neg smaller]
  obtain ⟨ret, next, called, outcome⟩ := heap.malloc small
  simp only [called, Option.map_some]
  rcases outcome with ⟨rfl, -, -⟩ | ⟨fresh, heap', same⟩
  · exact absurd called (given (Nat.lt_of_not_le smaller) next)
  have larger : block.size ≤ size := Nat.le_of_not_le smaller
  obtain ⟨moved, unmoved, read⟩ := heap'.move larger rfl
  have whole : min block.size size = block.size := Nat.min_eq_left larger
  rw [whole]
  refine ⟨_, _, rfl, ?_, .inr ⟨fresh, moved, read.trans ?_⟩⟩
  · exact (same.subset (List.subset_cons_self _ _)).trans unmoved
  · exact same.sameBlocks.readBytes List.mem_cons_self bounds.2.2 (Nat.le_refl _)

/-- **`calloc`** returns a block of zeros. -/
theorem calloc (heap : HeapOf source state blocks) {nobj : ℕ} (small : nobj * size + 80 < 2 ^ 32)
    (given : Gives source.toHooks state (nobj * size)) :
    ∃ ret after, Liballoc.calloc source.toHooks state nobj size = some (ret, after) ∧
      ret ≠ 0 ∧ HeapOf source after (⟨ret, nobj * size⟩ :: blocks) ∧
        SameOn blocks state.memory after.memory ∧
        readBytes after.memory ret (nobj * size) = List.replicate (nobj * size) (0 : Byte) := by
  have word : nobj * size % 2 ^ 32 = nobj * size := Nat.mod_eq_of_lt (by omega)
  have length : (List.replicate (nobj * size) (0 : Byte)).length = nobj * size :=
    List.length_replicate
  obtain ⟨ret, next, called, outcome⟩ := heap.malloc small
  unfold Liballoc.calloc
  simp only [word, called, Option.map_some, memset_eq_writeBytes]
  rcases outcome with ⟨rfl, -, -⟩ | ⟨nonnull, heap', same⟩
  · exact absurd called (given next)
  obtain ⟨written, unwritten, read⟩ := heap'.fill (Nat.le_of_eq length)
  rw [length] at read
  exact ⟨_, _, rfl, nonnull, written, same.trans unwritten, read⟩

end HeapOf

end Liballoc

end CatchOS.Mmu
