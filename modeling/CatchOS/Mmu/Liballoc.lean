import CatchOS.Machine.Record

/-!
# The heap of the kernel

The functions of `liballoc.c`, on the bytes of the memory. The heap consists of majors, which
are runs of pages that were requested with `liballoc_alloc`, and a major of minors, which are
the blocks in it. Both start with a header, and the headers are linked in both directions: the
majors in the order in which they were requested, the minors of a major in the order of their
addresses. What `malloc` returns is a place behind the header of a minor, at a multiple of 16.

The two hooks that request pages and give them back are arguments of the functions; what they
change of their own is the `source` in the state. A loop has a bound on its turns, and runs out
of them with `none`.
-/

set_option autoImplicit false

namespace CatchOS.Mmu

open CatchOS

universe u

/-! ## Headers -/

/-- The members of `struct liballoc_major`. -/
inductive MajorField where
  | prev
  | next
  | pages
  | size
  | usage
  | first
  deriving DecidableEq

def MajorField.index : MajorField → ℕ
  | .prev => 0
  | .next => 1
  | .pages => 2
  | .size => 3
  | .usage => 4
  | .first => 5

theorem MajorField.index_lt (field : MajorField) : field.index < 6 := by
  cases field <;> decide

theorem MajorField.index_injective : Function.Injective MajorField.index := by
  intro field other same
  cases field <;> cases other <;> first | rfl | cases same

instance : WordFields MajorField where
  index := MajorField.index
  count := 6
  index_lt := MajorField.index_lt
  index_injective := MajorField.index_injective

/-- The members of `struct liballoc_minor`. -/
inductive MinorField where
  | prev
  | next
  | block
  | magic
  | size
  | reqSize
  deriving DecidableEq

def MinorField.index : MinorField → ℕ
  | .prev => 0
  | .next => 1
  | .block => 2
  | .magic => 3
  | .size => 4
  | .reqSize => 5

theorem MinorField.index_lt (field : MinorField) : field.index < 6 := by
  cases field <;> decide

theorem MinorField.index_injective : Function.Injective MinorField.index := by
  intro field other same
  cases field <;> cases other <;> first | rfl | cases same

instance : WordFields MinorField where
  index := MinorField.index
  count := 6
  index_lt := MinorField.index_lt
  index_injective := MinorField.index_injective

/-- A member of the major at an address. -/
abbrev majorAt (memory : Memory) (maj : ℕ) (field : MajorField) : ℕ := record memory maj field

abbrev setMajor (memory : Memory) (maj : ℕ) (field : MajorField) (value : ℕ) : Memory :=
  setField memory maj field value

/-- A member of the minor at an address. -/
abbrev minorAt (memory : Memory) (min : ℕ) (field : MinorField) : ℕ := record memory min field

abbrev setMinor (memory : Memory) (min : ℕ) (field : MinorField) (value : ℕ) : Memory :=
  setField memory min field value

/-- `sizeof(struct liballoc_major)`. -/
def majorHeaderSize : ℕ := 24

/-- `sizeof(struct liballoc_minor)`. -/
def minorHeaderSize : ℕ := 24

def liballocMagic : ℕ := 0x0001c0de

def liballocDead : ℕ := 0xdeaddead

/-- `ALIGNMENT`. -/
def alignment : ℕ := 16

/-- `ALIGN_INFO`. -/
def alignInfo : ℕ := 16

/-! ## The state -/

/-- The hooks that request pages and give them back. -/
structure Hooks (Source : Type u) where
  liballocAlloc : Source → ℕ → Option (ℕ × Source)
  liballocFree : Source → ℕ → ℕ → Source

/-- The memory, the globals of `liballoc.c`, and what the hooks work on. -/
structure Liballoc (Source : Type u) where
  memory : Memory
  memRoot : ℕ
  bestBet : ℕ
  allocated : ℕ
  inuse : ℕ
  warningCount : ℕ
  errorCount : ℕ
  possibleOverruns : ℕ
  source : Source

/-- The globals before the first call. -/
def Liballoc.initial {Source : Type u} (memory : Memory) (source : Source) : Liballoc Source :=
  ⟨memory, 0, 0, 0, 0, 0, 0, 0, source⟩

/-- A difference in 32 bits. -/
def wordSub (value less : ℕ) : ℕ := (value + (2 ^ 32 - less % 2 ^ 32)) % 2 ^ 32

theorem wordSub_eq {value less : ℕ} (word : value < 2 ^ 32) (le : less ≤ value) :
    wordSub value less = value - less := by
  unfold wordSub
  omega

theorem wordSub_lt (value less : ℕ) : wordSub value less < 2 ^ 32 := Nat.mod_lt _ (by decide)

/-! ## Alignment -/

/-- `ALIGN`: the pointer moves to the first multiple of 16 that leaves 16 bytes of room, and the
byte 16 before it says how far it moved. -/
def align (memory : Memory) (ptr : ℕ) : ℕ × Memory :=
  let ptr := offset ptr alignInfo
  let diff := ptr % alignment
  let diff := if diff ≠ 0 then alignment - diff else diff
  let ptr := if diff ≠ 0 then offset ptr diff else ptr
  (ptr, Function.update memory (wordSub ptr alignInfo) (BitVec.ofNat 8 (diff + alignInfo)))

/-- `UNALIGN`. A byte from 128 on is negative as a `char`, and then as large as an address. -/
def unalign (memory : Memory) (ptr : ℕ) : ℕ :=
  let diff := (memory (wordSub ptr alignInfo)).toNat
  if diff < alignment + alignInfo then wordSub ptr diff else ptr

namespace Liballoc

variable {Source : Type u} (hooks : Hooks Source)

/-! ## Requesting pages -/

def pageSize : ℕ := 4096

/-- `l_pageCount`. -/
def pageCount : ℕ := 16

/-- The pages for a block of the given size, at least 16 of them. -/
def newPages (size : ℕ) : ℕ :=
  let st := offset (offset size majorHeaderSize) minorHeaderSize
  let st := if st % pageSize = 0 then st / pageSize else st / pageSize + 1
  if st < pageCount then pageCount else st

def allocateNewPage (state : Liballoc Source) (size : ℕ) : Option (ℕ × Liballoc Source) :=
  let st := newPages size
  match hooks.liballocAlloc state.source st with
  | none => none
  | some (maj, source) =>
      let state := { state with source := source }
      if maj = 0 then
        some (0, { state with warningCount := state.warningCount + 1 })
      else
        let memory := setMajor state.memory maj .prev 0
        let memory := setMajor memory maj .next 0
        let memory := setMajor memory maj .pages st
        let memory := setMajor memory maj .size (st * pageSize % 2 ^ 32)
        let memory := setMajor memory maj .usage majorHeaderSize
        let memory := setMajor memory maj .first 0
        let allocated := (state.allocated + majorAt memory maj .size) % 2 ^ 64
        some (maj, { state with memory := memory, allocated := allocated })

/-! ## Placing a block in a major -/

/-- How every case ends: the block is accounted for, and its place behind the header is
returned. -/
def handOut (state : Liballoc Source) (maj min size : ℕ) : ℕ × Liballoc Source :=
  let usage := offset (majorAt state.memory maj .usage) (size + minorHeaderSize)
  let memory := setMajor state.memory maj .usage usage
  let (p, memory) := align memory (offset min minorHeaderSize)
  (p, { state with memory := memory, inuse := (state.inuse + size) % 2 ^ 64 })

/-- It is a brand new block. -/
def case2 (state : Liballoc Source) (maj reqSize size : ℕ) : ℕ × Liballoc Source :=
  let memory := setMajor state.memory maj .first (offset maj majorHeaderSize)
  let first := majorAt memory maj .first
  let memory := setMinor memory first .magic liballocMagic
  let memory := setMinor memory first .prev 0
  let memory := setMinor memory first .next 0
  let memory := setMinor memory first .block maj
  let memory := setMinor memory first .size size
  let memory := setMinor memory first .reqSize reqSize
  handOut { state with memory := memory } maj first size

/-- Enough space at the start of the block. -/
def case3 (state : Liballoc Source) (maj reqSize size : ℕ) : ℕ × Liballoc Source :=
  let first := majorAt state.memory maj .first
  let memory := setMinor state.memory first .prev (offset maj majorHeaderSize)
  let memory := setMinor memory (minorAt memory first .prev) .next first
  let memory := setMajor memory maj .first (minorAt memory first .prev)
  let first := majorAt memory maj .first
  let memory := setMinor memory first .magic liballocMagic
  let memory := setMinor memory first .prev 0
  let memory := setMinor memory first .block maj
  let memory := setMinor memory first .size size
  let memory := setMinor memory first .reqSize reqSize
  handOut { state with memory := memory } maj first size

/-- Space behind the last minor. -/
def case41 (state : Liballoc Source) (maj min reqSize size : ℕ) : ℕ × Liballoc Source :=
  let behind := offset (offset min minorHeaderSize) (minorAt state.memory min .size)
  let memory := setMinor state.memory min .next behind
  let memory := setMinor memory (minorAt memory min .next) .prev min
  let min := minorAt memory min .next
  let memory := setMinor memory min .next 0
  let memory := setMinor memory min .magic liballocMagic
  let memory := setMinor memory min .block maj
  let memory := setMinor memory min .size size
  let memory := setMinor memory min .reqSize reqSize
  handOut { state with memory := memory } maj min size

/-- Space between two minors. -/
def case42 (state : Liballoc Source) (maj min reqSize size : ℕ) : ℕ × Liballoc Source :=
  let newMin := offset (offset min minorHeaderSize) (minorAt state.memory min .size)
  let memory := setMinor state.memory newMin .magic liballocMagic
  let memory := setMinor memory newMin .next (minorAt memory min .next)
  let memory := setMinor memory newMin .prev min
  let memory := setMinor memory newMin .size size
  let memory := setMinor memory newMin .reqSize reqSize
  let memory := setMinor memory newMin .block maj
  let memory := setMinor memory (minorAt memory min .next) .prev newMin
  let memory := setMinor memory min .next newMin
  handOut { state with memory := memory } maj newMin size

/-- The space from the end of a minor to the given address. -/
def spaceBehind (memory : Memory) (min limit : ℕ) : ℕ :=
  wordSub (wordSub (wordSub limit min) minorHeaderSize) (minorAt memory min .size)

/-- The loop over the minors. It finds no place when it comes to `NULL`. -/
def case4 (state : Liballoc Source) (maj reqSize size : ℕ) :
    ℕ → ℕ → Option (Option (ℕ × Liballoc Source))
  | 0, _ => none
  | turns + 1, min =>
      if min = 0 then
        some none
      else
        let next := minorAt state.memory min .next
        if next = 0 then
          let limit := offset maj (majorAt state.memory maj .size)
          if offset size minorHeaderSize ≤ spaceBehind state.memory min limit then
            some (some (case41 state maj min reqSize size))
          else
            case4 state maj reqSize size turns next
        else
          if offset size minorHeaderSize ≤ spaceBehind state.memory min next then
            some (some (case42 state maj min reqSize size))
          else
            case4 state maj reqSize size turns next

/-- The cases 2 to 4, in one major. -/
def placeIn (state : Liballoc Source) (maj reqSize size : ℕ) :
    Option (Option (ℕ × Liballoc Source)) :=
  let first := majorAt state.memory maj .first
  if first = 0 then
    some (some (case2 state maj reqSize size))
  else
    let diff := wordSub (wordSub first maj) majorHeaderSize
    if offset size minorHeaderSize ≤ diff then
      some (some (case3 state maj reqSize size))
    else
      case4 state maj reqSize size (2 ^ 32) first

/-! ## The loop over the majors -/

/-- Where a turn goes on: with another major in the next turn, where `NULL` ends the loop, or
with the cases that follow. -/
inductive Turn where
  | hop (maj : ℕ) (startedBet : Bool)
  | stay (maj : ℕ)

/-- A new major is linked behind the last one. The first component is the new one, or `NULL`. -/
def appendMajor (state : Liballoc Source) (maj size : ℕ) : Option (ℕ × Liballoc Source) :=
  match allocateNewPage hooks state size with
  | none => none
  | some (new, state) =>
      let memory := setMajor state.memory maj .next new
      let next := majorAt memory maj .next
      if next = 0 then
        some (0, { state with memory := memory })
      else
        some (next, { state with memory := setMajor memory next .prev maj })

/-- There may not be enough space in this major. -/
def case1 (state : Liballoc Source) (maj size diff : ℕ) (startedBet : Bool) :
    Option (Turn × Liballoc Source) :=
  if diff < offset size minorHeaderSize then
    let next := majorAt state.memory maj .next
    if next ≠ 0 then
      some (.hop next startedBet, state)
    else if startedBet then
      some (.hop state.memRoot false, state)
    else
      match appendMajor hooks state maj size with
      | none => none
      | some (new, state) =>
          if new = 0 then some (.hop 0 startedBet, state) else some (.stay new, state)
  else
    some (.stay maj, state)

/-- The major has no place for the block; on with the next one. -/
def case5 (state : Liballoc Source) (maj size : ℕ) (startedBet : Bool) :
    Option ((ℕ × Bool) × Liballoc Source) :=
  let next := majorAt state.memory maj .next
  if next = 0 then
    if startedBet then
      some ((state.memRoot, false), state)
    else
      match appendMajor hooks state maj size with
      | none => none
      | some (new, state) => some ((new, startedBet), state)
  else
    some ((next, startedBet), state)

/-- A major with more memory than the best bet is the best bet. -/
def remember (state : Liballoc Source) (maj diff bestSize : ℕ) : Liballoc Source :=
  if bestSize < diff then { state with bestBet := maj } else state

def mallocLoop (reqSize size : ℕ) :
    ℕ → Liballoc Source → ℕ → Bool → ℕ → Option (ℕ × Liballoc Source)
  | 0, _, _, _, _ => none
  | turns + 1, state, maj, startedBet, bestSize =>
      if maj = 0 then
        some (0, state)
      else
        let diff := wordSub (majorAt state.memory maj .size) (majorAt state.memory maj .usage)
        let state := remember state maj diff bestSize
        let bestSize := if bestSize < diff then diff else bestSize
        match case1 hooks state maj size diff startedBet with
        | none => none
        | some (.hop maj startedBet, state) =>
            mallocLoop reqSize size turns state maj startedBet bestSize
        | some (.stay maj, state) =>
            match placeIn state maj reqSize size with
            | none => none
            | some (some result) => some result
            | some none =>
                match case5 hooks state maj size startedBet with
                | none => none
                | some ((maj, startedBet), state) =>
                    mallocLoop reqSize size turns state maj startedBet bestSize

/-- The search starts at the best bet when that has room. -/
def mallocSearch (state : Liballoc Source) (reqSize size : ℕ) : Option (ℕ × Liballoc Source) :=
  let bet := state.bestBet
  let bestSize :=
    if bet ≠ 0 then wordSub (majorAt state.memory bet .size) (majorAt state.memory bet .usage)
    else 0
  if bet ≠ 0 ∧ offset size minorHeaderSize < bestSize then
    mallocLoop hooks reqSize size (2 ^ 32) state bet true bestSize
  else
    mallocLoop hooks reqSize size (2 ^ 32) state state.memRoot false bestSize

/-- `malloc` once the size is known. The first call requests the first major. -/
def mallocSized (state : Liballoc Source) (reqSize size : ℕ) : Option (ℕ × Liballoc Source) :=
  if state.memRoot = 0 then
    match allocateNewPage hooks state size with
    | none => none
    | some (root, state) =>
        let state := { state with memRoot := root }
        if state.memRoot = 0 then some (0, state) else mallocSearch hooks state reqSize size
  else
    mallocSearch hooks state reqSize size

/-- The size includes the room for the alignment; a size of zero is a request for one byte. -/
def malloc (state : Liballoc Source) (reqSize : ℕ) : Option (ℕ × Liballoc Source) :=
  let size := offset reqSize (alignment + alignInfo)
  if size = 0 then
    let state := { state with warningCount := state.warningCount + 1 }
    mallocSized hooks state 1 (offset 1 (alignment + alignInfo))
  else
    mallocSized hooks state reqSize size

/-! ## Giving blocks back -/

/-- A header that is none: the error is counted, and whether it looks like an overrun. -/
def badMagic (state : Liballoc Source) (magic : ℕ) : Liballoc Source :=
  let state := { state with errorCount := state.errorCount + 1 }
  if magic &&& 0xFFFFFF = liballocMagic &&& 0xFFFFFF ∨ magic &&& 0xFFFF = liballocMagic &&& 0xFFFF ∨
      magic &&& 0xFF = liballocMagic &&& 0xFF then
    { state with possibleOverruns := state.possibleOverruns + 1 }
  else
    state

/-- The minor is taken out of the list of its major. -/
def unlinkMinor (memory : Memory) (maj min : ℕ) : Memory :=
  let usage := wordSub (majorAt memory maj .usage) (minorAt memory min .size + minorHeaderSize)
  let memory := setMajor memory maj .usage usage
  let memory := setMinor memory min .magic liballocDead
  let memory :=
    if minorAt memory min .next ≠ 0 then
      setMinor memory (minorAt memory min .next) .prev (minorAt memory min .prev)
    else memory
  let memory :=
    if minorAt memory min .prev ≠ 0 then
      setMinor memory (minorAt memory min .prev) .next (minorAt memory min .next)
    else memory
  if minorAt memory min .prev = 0 then
    setMajor memory maj .first (minorAt memory min .next)
  else memory

/-- The major is unused: it is taken out of the list, and its pages are given back. -/
def releaseMajor (state : Liballoc Source) (maj : ℕ) : Liballoc Source :=
  let memRoot := if state.memRoot = maj then majorAt state.memory maj .next else state.memRoot
  let bestBet := if state.bestBet = maj then 0 else state.bestBet
  let memory := state.memory
  let memory :=
    if majorAt memory maj .prev ≠ 0 then
      setMajor memory (majorAt memory maj .prev) .next (majorAt memory maj .next)
    else memory
  let memory :=
    if majorAt memory maj .next ≠ 0 then
      setMajor memory (majorAt memory maj .next) .prev (majorAt memory maj .prev)
    else memory
  let allocated := (state.allocated + (2 ^ 64 - majorAt memory maj .size)) % 2 ^ 64
  { state with
    memory := memory
    memRoot := memRoot
    bestBet := bestBet
    allocated := allocated
    source := hooks.liballocFree state.source maj (majorAt memory maj .pages) }

/-- The space that is left in a major, as an `int`. -/
def spaceLeft (memory : Memory) (maj : ℕ) : ℤ :=
  int32 (wordSub (majorAt memory maj .size) (majorAt memory maj .usage))

/-- The major is the best bet from now on when it has more space than that. -/
def betOn (state : Liballoc Source) (maj : ℕ) : Liballoc Source :=
  if state.bestBet ≠ 0 ∧ spaceLeft state.memory state.bestBet < spaceLeft state.memory maj then
    { state with bestBet := maj }
  else
    state

/-- `free` of a block whose header is one. -/
def freeMinor (state : Liballoc Source) (min : ℕ) : Liballoc Source :=
  let maj := minorAt state.memory min .block
  let inuse := (state.inuse + (2 ^ 64 - minorAt state.memory min .size)) % 2 ^ 64
  let state := { state with inuse := inuse, memory := unlinkMinor state.memory maj min }
  if majorAt state.memory maj .first = 0 then releaseMajor hooks state maj else betOn state maj

def free (state : Liballoc Source) (ptr : ℕ) : Liballoc Source :=
  if ptr = 0 then
    { state with warningCount := state.warningCount + 1 }
  else
    let min := wordSub (unalign state.memory ptr) minorHeaderSize
    let magic := minorAt state.memory min .magic
    if magic ≠ liballocMagic then badMagic state magic else freeMinor hooks state min

/-! ## Requests with contents -/

/-- The first loop of `liballoc_memcpy`: whole words. -/
def copyWords : ℕ → Memory → ℕ → ℕ → Memory
  | 0, memory, _, _ => memory
  | words + 1, memory, dst, src =>
      copyWords words (storeWord memory dst (loadWord memory src)) (offset dst 4) (offset src 4)

/-- The second loop: the bytes that are left. -/
def copyBytes : ℕ → Memory → ℕ → ℕ → Memory
  | 0, memory, _, _ => memory
  | bytes + 1, memory, dst, src =>
      copyBytes bytes (Function.update memory (offset dst 0) (memory (offset src 0)))
        (offset dst 1) (offset src 1)

def liballocMemcpy (memory : Memory) (s1 s2 n : ℕ) : Memory :=
  let memory := copyWords (n / 4) memory s1 s2
  copyBytes (n % 4) memory (offset s1 (4 * (n / 4))) (offset s2 (4 * (n / 4)))

/-- The product is an `int`, and it is cleared also when there is no block. -/
def calloc (state : Liballoc Source) (nobj size : ℕ) : Option (ℕ × Liballoc Source) :=
  let realSize := nobj * size % 2 ^ 32
  (malloc hooks state realSize).map fun (p, state) =>
    (p, { state with memory := memset state.memory p 0 realSize })

def realloc (state : Liballoc Source) (p size : ℕ) : Option (ℕ × Liballoc Source) :=
  if size = 0 then
    some (0, free hooks state p)
  else if p = 0 then
    malloc hooks state size
  else
    let min := wordSub (unalign state.memory p) minorHeaderSize
    let magic := minorAt state.memory min .magic
    if magic ≠ liballocMagic then
      some (0, badMagic state magic)
    else
      let realSize := minorAt state.memory min .reqSize
      if size ≤ realSize then
        some (p, { state with memory := setMinor state.memory min .reqSize size })
      else
        (malloc hooks state size).map fun (ptr, state) =>
          let memory := liballocMemcpy state.memory ptr p realSize
          (ptr, free hooks { state with memory := memory } p)

end Liballoc

end CatchOS.Mmu
