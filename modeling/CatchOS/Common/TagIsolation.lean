import CatchOS.Common.MultibootInfo

/-!
# One tag, one field

Each kind of tag has fields of its own in `_mbinfo`, and a later tag of a kind replaces
what an earlier one left. The modules are an exception: they are appended, in an array of
two. `Isolated` says what `_mbinfo` should then hold, and that the walk over the tags
writes nothing else.

A list of tags is taken as `TagList`: from tag to tag it leads to an end tag, and the
entries of each memory map fill their tag. The walk over such a list returns
(`TagList.returns`). What it records is followed tag by tag (`Recorded`): up to two
modules it is what each kind of tag says, and a third module is copied over `rsdp` and
`acpi_ver` and past the end of `_mbinfo`. So the fields are isolated from each other
exactly when there are at most two modules: `isolated_iff_modules`.
-/

set_option autoImplicit false

namespace CatchOS.Common

open CatchOS.Lib

/-! ## Lists of tags -/

/-- The entries of a memory map fill the tag, and there is memory behind it for the next
tag. -/
structure MmapFilled (memory : Memory) (tag : ℕ) : Prop where
  header : 16 ≤ tagSize memory tag
  inside : tag + tagSize memory tag < 2 ^ 32
  entrySize : 0 < field memory tag 8
  filled : (tagSize memory tag - 16) % field memory tag 8 = 0

/-- The tags from the given one up to an end tag. -/
inductive TagList (memory : Memory) : ℕ → List ℕ → Prop where
  | nil {tag : ℕ} : tagType memory tag = tagTypeEnd → TagList memory tag []
  | cons {tag : ℕ} {tags : List ℕ} : tagType memory tag ≠ tagTypeEnd →
      (tagType memory tag = tagTypeMmap → MmapFilled memory tag) →
      TagList memory (nextTag memory tag) tags → TagList memory tag (tag :: tags)

/-- The walk over a memory map ends after its last entry. -/
theorem mmapEntries_returns {memory : Memory} {tag turns left : ℕ} {mmap : ℕ}
    (inside : tag + tagSize memory tag < 2 ^ 32)
    (entries : mmap + left * field memory tag 8 = tag + tagSize memory tag)
    (enough : left < turns) : (mmapEntries memory tag turns mmap).isSome := by
  induction turns generalizing left mmap with
  | zero => cases enough
  | succ turns ih =>
      rw [mmapEntries]
      split
      case isFalse => rfl
      case isTrue before =>
        rw [Option.isSome_map]
        rw [offset_eq inside] at before
        cases left with
        | zero => omega
        | succ left =>
            rw [Nat.succ_mul] at entries
            have next : offset mmap (field memory tag 8) = mmap + field memory tag 8 :=
              offset_eq (by omega)
            rw [next]
            exact @ih left _ (by omega) (by omega)

theorem MmapFilled.returns {memory : Memory} {tag turns : ℕ} (filled : MmapFilled memory tag)
    (enough : 2 ^ 32 ≤ turns) : (mmapEntries memory tag turns (offset tag 16)).isSome := by
  have word : tagSize memory tag < 2 ^ 32 := loadWord_lt _ _
  have header := filled.header
  have inside := filled.inside
  have entries := Nat.div_add_mod' (tagSize memory tag - 16) (field memory tag 8)
  rw [filled.filled, Nat.add_zero] at entries
  have few := Nat.div_le_self (tagSize memory tag - 16) (field memory tag 8)
  rw [offset_eq (by omega)]
  exact @mmapEntries_returns _ _ _ ((tagSize memory tag - 16) / field memory tag 8) _ inside
    (by omega) (by omega)

/-! ## What the tags say -/

/-- The tags that pass a test on their type. -/
def ofKind (memory : Memory) (kind : ℕ → Bool) (tags : List ℕ) : List ℕ :=
  tags.filter fun tag => kind (tagType memory tag)

def isModule : ℕ → Bool := fun type => type = tagTypeModule

def isMeminfo : ℕ → Bool := fun type => type = tagTypeBasicMeminfo

def isFramebuffer : ℕ → Bool := fun type => type = tagTypeFramebuffer

def isAcpi : ℕ → Bool := fun type => type = tagTypeAcpiOld || type = tagTypeAcpiNew

/-- What the last tag of a kind says, or what the field was at first. -/
def lastValue {Value : Type} (memory : Memory) (kind : ℕ → Bool) (value : ℕ → Value)
    (initial : Value) (tags : List ℕ) : Value :=
  (ofKind memory kind tags).getLast?.elim initial value

def meminfoValue (memory : Memory) (tag : ℕ) : ℕ × ℕ := (field memory tag 8, field memory tag 12)

def framebufferValue (memory : Memory) (tag : ℕ) : List Byte :=
  (List.range 40).map fun i => memory (offset tag i)

/-- The address of the descriptor, which is behind the header of the tag, and the
version. -/
def acpiValue (memory : Memory) (tag : ℕ) : ℕ × ℤ :=
  (offset tag 8, if tagType memory tag = tagTypeAcpiOld then 1 else 2)

/-- The module at a place of `mods`: the first two modules, in their order. -/
def moduleAt (memory : Memory) (tags : List ℕ) (i : ℕ) : ModuleTag :=
  (ofKind memory isModule tags)[i]?.elim ⟨0, 0, 0, 0⟩ (moduleTag memory)

/-- **Each field holds what its own kind of tag says**, and nothing is written outside
`_mbinfo`. -/
structure Isolated (memory : Memory) (tags : List ℕ) (info : MultibootInfo) : Prop where
  meminfo : (info.physMemLower, info.physMemUpper) =
    lastValue memory isMeminfo (meminfoValue memory) (0, 0) tags
  framebuffer : info.tagfb =
    lastValue memory isFramebuffer (framebufferValue memory) (List.replicate 40 0#8) tags
  acpi : (info.rsdp, info.acpiVer) = lastValue memory isAcpi (acpiValue memory) (0, 0) tags
  modules : ∀ i : Fin 2, info.mods i = moduleAt memory tags i
  within : info.overrun = 0

theorem ofKind_concat (memory : Memory) (kind : ℕ → Bool) (tags : List ℕ) (tag : ℕ) :
    ofKind memory kind (tags ++ [tag]) =
      if kind (tagType memory tag) then ofKind memory kind tags ++ [tag]
      else ofKind memory kind tags := by
  rw [ofKind, List.filter_append, List.filter_singleton]
  cases kind (tagType memory tag) with
  | false => exact List.append_nil _
  | true => rfl

theorem lastValue_concat {Value : Type} {memory : Memory} {kind : ℕ → Bool} {value : ℕ → Value}
    {initial : Value} {tags : List ℕ} {tag : ℕ} :
    lastValue memory kind value initial (tags ++ [tag]) =
      if kind (tagType memory tag) then value tag
      else lastValue memory kind value initial tags := by
  rw [lastValue, ofKind_concat]
  split
  · rw [List.getLast?_concat, Option.elim_some]
  · rfl

/-! ## What the walk records -/

/-- `_mbinfo` after some of the tags. Only up to two modules `rsdp` and `acpi_ver` are
what the ACPI tags say; from the third one on there are bytes past the end. -/
structure Recorded (memory : Memory) (tags : List ℕ) (info : MultibootInfo) : Prop where
  meminfo : (info.physMemLower, info.physMemUpper) =
    lastValue memory isMeminfo (meminfoValue memory) (0, 0) tags
  framebuffer : info.tagfb =
    lastValue memory isFramebuffer (framebufferValue memory) (List.replicate 40 0#8) tags
  modules : ∀ i : Fin 2, info.mods i = moduleAt memory tags i
  modcount : info.modcount = (ofKind memory isModule tags).length
  acpi : info.modcount ≤ 2 →
    (info.rsdp, info.acpiVer) = lastValue memory isAcpi (acpiValue memory) (0, 0) tags
  within : info.modcount ≤ 2 → info.overrun = 0
  past : 2 < info.modcount → 0 < info.overrun

namespace Recorded

variable {memory : Memory} {tags : List ℕ} {tag : ℕ} {info next : MultibootInfo}

theorem start (memory : Memory) : Recorded memory [] mbinfo :=
  ⟨rfl, rfl, fun _ => rfl, rfl, fun _ => rfl, fun _ => rfl, nofun⟩

/-- A tag that is no module leaves the modules. -/
theorem moduleAt_other (other : isModule (tagType memory tag) = false) :
    ofKind memory isModule (tags ++ [tag]) = ofKind memory isModule tags := by
  rw [ofKind_concat, other]
  rfl

/-- A tag that is no module: three fields are as its kind says, and nothing else changes. -/
theorem other (recorded : Recorded memory tags info)
    (notModule : isModule (tagType memory tag) = false)
    (meminfo : (next.physMemLower, next.physMemUpper) =
      if isMeminfo (tagType memory tag) then meminfoValue memory tag
      else (info.physMemLower, info.physMemUpper))
    (framebuffer : next.tagfb =
      if isFramebuffer (tagType memory tag) then framebufferValue memory tag else info.tagfb)
    (acpi : (next.rsdp, next.acpiVer) =
      if isAcpi (tagType memory tag) then acpiValue memory tag else (info.rsdp, info.acpiVer))
    (rest : next.mods = info.mods ∧ next.modcount = info.modcount ∧ next.overrun = info.overrun) :
    Recorded memory (tags ++ [tag]) next := by
  obtain ⟨mods, modcount, overrun⟩ := rest
  refine ⟨?_, ?_, ?_, ?_, ?_, ?_, ?_⟩
  · rw [meminfo, lastValue_concat, recorded.meminfo]
  · rw [framebuffer, lastValue_concat, recorded.framebuffer]
  · intro i
    rw [mods, recorded.modules, moduleAt, moduleAt, moduleAt_other notModule]
  · rw [modcount, recorded.modcount, moduleAt_other notModule]
  · intro few
    rw [acpi, lastValue_concat, recorded.acpi (modcount ▸ few)]
  · intro few
    rw [overrun, recorded.within (modcount ▸ few)]
  · intro many
    rw [overrun]
    exact recorded.past (modcount ▸ many)

section Module

variable (isType : tagType memory tag = tagTypeModule)
include isType

theorem ofKind_module : ofKind memory isModule (tags ++ [tag]) =
    ofKind memory isModule tags ++ [tag] := by
  rw [ofKind_concat, isType]
  rfl

/-- A new module has the place behind the others. -/
theorem moduleAt_module (i : ℕ) : moduleAt memory (tags ++ [tag]) i =
    if i = (ofKind memory isModule tags).length then moduleTag memory tag
    else moduleAt memory tags i := by
  rw [moduleAt, ofKind_module isType, List.getElem?_append]
  rcases Nat.lt_trichotomy i (ofKind memory isModule tags).length with before | rfl | behind
  · rw [if_pos before, if_neg before.ne, moduleAt]
  · rw [if_neg (Nat.lt_irrefl _), if_pos rfl, Nat.sub_self]
    rfl
  · rw [if_neg (Nat.lt_asymm behind), if_neg behind.ne', moduleAt,
      List.getElem?_eq_none (Nat.le_of_lt behind), List.getElem?_eq_none]
    rw [List.length_singleton]
    omega

/-- A module is of no other kind. -/
theorem lastValue_module {Value : Type} {kind : ℕ → Bool} {value : ℕ → Value} {initial : Value}
    (other : kind tagTypeModule = false) :
    lastValue memory kind value initial (tags ++ [tag]) =
      lastValue memory kind value initial tags := by
  rw [lastValue_concat, isType, other]
  rfl

theorem modcount_module (recorded : Recorded memory tags info) :
    info.modcount + 1 = (ofKind memory isModule (tags ++ [tag])).length := by
  rw [ofKind_module isType, List.length_append, List.length_singleton, recorded.modcount]

/-- The first two modules are appended to `mods`. -/
theorem module_fits (recorded : Recorded memory tags info) (fits : info.modcount + 1 ≤ 2) :
    Recorded memory (tags ++ [tag]) (info.addModule (moduleTag memory tag)) := by
  simp only [MultibootInfo.addModule, dif_pos fits, Nat.add_sub_cancel]
  refine ⟨?_, ?_, ?_, modcount_module isType recorded, ?_, ?_, ?_⟩
  · rw [lastValue_module isType rfl, recorded.meminfo]
  · rw [lastValue_module isType rfl, recorded.framebuffer]
  · intro i
    dsimp only
    rw [Function.update_apply, moduleAt_module isType, ← recorded.modules, ← recorded.modcount]
    exact if_congr Fin.ext_iff rfl rfl
  · intro _
    rw [lastValue_module isType rfl, recorded.acpi (by omega)]
  · intro _
    exact recorded.within (by omega)
  · intro many
    simp only at many
    omega

/-- Later modules are not in `mods`, and some of their bytes are past the end. -/
theorem module_past (recorded : Recorded memory tags info) (past : ¬info.modcount + 1 ≤ 2)
    (meminfo : (next.physMemLower, next.physMemUpper) = (info.physMemLower, info.physMemUpper))
    (rest : next.tagfb = info.tagfb ∧ next.mods = info.mods ∧ next.modcount = info.modcount + 1)
    (overrun : 0 < next.overrun) : Recorded memory (tags ++ [tag]) next := by
  obtain ⟨tagfb, mods, modcount⟩ := rest
  refine ⟨?_, ?_, ?_, ?_, ?_, ?_, fun _ => overrun⟩
  · rw [meminfo, lastValue_module isType rfl, recorded.meminfo]
  · rw [tagfb, lastValue_module isType rfl, recorded.framebuffer]
  · intro i
    have behind : (i : ℕ) ≠ (ofKind memory isModule tags).length := by
      have small := i.isLt
      rw [← recorded.modcount]
      omega
    rw [mods, moduleAt_module isType, if_neg behind, recorded.modules]
  · rw [modcount]
    exact modcount_module isType recorded
  · intro few
    omega
  · intro few
    omega

theorem module (recorded : Recorded memory tags info) :
    Recorded memory (tags ++ [tag]) (info.addModule (moduleTag memory tag)) := by
  by_cases fits : info.modcount + 1 ≤ 2
  · exact recorded.module_fits isType fits
  · by_cases third : info.modcount + 1 = 3
    · simp only [MultibootInfo.addModule, dif_neg fits, if_pos third]
      exact recorded.module_past isType fits rfl ⟨rfl, rfl, rfl⟩ (Nat.succ_pos _)
    · simp only [MultibootInfo.addModule, dif_neg fits, if_neg third]
      exact recorded.module_past isType fits rfl ⟨rfl, rfl, rfl⟩ (Nat.succ_pos _)

end Module

/-- One turn of the walk. -/
theorem visit (recorded : Recorded memory tags info) {turns : ℕ}
    (visited : info.visit memory turns tag = some next) : Recorded memory (tags ++ [tag]) next := by
  unfold MultibootInfo.visit at visited
  by_cases isType : tagType memory tag = tagTypeModule
  · rw [if_pos isType, Option.some.injEq] at visited
    subst visited
    exact recorded.module isType
  have notModule : isModule (tagType memory tag) = false := decide_eq_false isType
  rw [if_neg isType] at visited
  by_cases isType : tagType memory tag = tagTypeBasicMeminfo
  · rw [if_pos isType, Option.some.injEq] at visited
    subst visited
    exact recorded.other notModule (by rw [isType]; rfl) (by rw [isType]; rfl)
      (by rw [isType]; rfl) ⟨rfl, rfl, rfl⟩
  have notMeminfo : isMeminfo (tagType memory tag) = false := decide_eq_false isType
  rw [if_neg isType] at visited
  by_cases isType : tagType memory tag = tagTypeMmap
  · rw [if_pos isType] at visited
    obtain ⟨entries, -, rfl⟩ := Option.map_eq_some_iff.mp visited
    exact recorded.other notModule (by rw [isType]; rfl) (by rw [isType]; rfl)
      (by rw [isType]; rfl) ⟨rfl, rfl, rfl⟩
  rw [if_neg isType] at visited
  by_cases isType : tagType memory tag = tagTypeFramebuffer
  · rw [if_pos isType, Option.some.injEq] at visited
    subst visited
    exact recorded.other notModule (by rw [isType]; rfl) (by rw [isType]; rfl)
      (by rw [isType]; rfl) ⟨rfl, rfl, rfl⟩
  have notFramebuffer : isFramebuffer (tagType memory tag) = false := decide_eq_false isType
  rw [if_neg isType] at visited
  by_cases old : tagType memory tag = tagTypeAcpiOld
  · rw [if_pos old, Option.some.injEq] at visited
    subst visited
    exact recorded.other notModule (by rw [old]; rfl) (by rw [old]; rfl)
      (by rw [acpiValue, old]; rfl) ⟨rfl, rfl, rfl⟩
  rw [if_neg old] at visited
  by_cases new : tagType memory tag = tagTypeAcpiNew
  · rw [if_pos new, Option.some.injEq] at visited
    subst visited
    exact recorded.other notModule (by rw [new]; rfl) (by rw [new]; rfl)
      (by rw [acpiValue, new]; rfl) ⟨rfl, rfl, rfl⟩
  have notAcpi : isAcpi (tagType memory tag) = false := by
    rw [isAcpi, decide_eq_false old, decide_eq_false new, Bool.or_false]
  rw [if_neg new, Option.some.injEq] at visited
  subst visited
  exact recorded.other notModule (by rw [notMeminfo]; rfl) (by rw [notFramebuffer]; rfl)
    (by rw [notAcpi]; rfl) ⟨rfl, rfl, rfl⟩

/-- The whole walk. -/
theorem foldlM {turns : ℕ} {rest : List ℕ} (recorded : Recorded memory tags info)
    (walked : rest.foldlM (MultibootInfo.visit memory turns) info = some next) :
    Recorded memory (tags ++ rest) next := by
  induction rest generalizing tags info with
  | nil =>
      obtain rfl := Option.some.inj walked
      rwa [List.append_nil]
  | cons tag rest ih =>
      rw [List.foldlM_cons] at walked
      obtain ⟨between, visited, walked⟩ := Option.bind_eq_some_iff.mp walked
      have all := ih (recorded.visit visited) walked
      rwa [List.append_assoc, List.singleton_append] at all

/-- The fields are isolated as long as all modules have a place in `mods`. -/
theorem isolated_iff (recorded : Recorded memory tags info) :
    Isolated memory tags info ↔ (ofKind memory isModule tags).length ≤ 2 := by
  rw [← recorded.modcount]
  constructor
  · intro isolated
    by_contra many
    exact absurd isolated.within (recorded.past (Nat.lt_of_not_le many)).ne'
  · intro few
    exact ⟨recorded.meminfo, recorded.framebuffer, recorded.acpi few, recorded.modules,
      recorded.within few⟩

end Recorded

/-! ## The walk returns -/

/-- Only a memory map can keep the walk at a tag. -/
theorem visit_isSome_iff {memory : Memory} {tag turns : ℕ} (info : MultibootInfo) :
    (info.visit memory turns tag).isSome ↔ (tagType memory tag = tagTypeMmap →
      (mmapEntries memory tag turns (offset tag 16)).isSome) := by
  unfold MultibootInfo.visit
  split_ifs with isModule isMeminfo isMmap isFramebuffer isOld isNew
  case pos =>
    refine iff_of_true rfl fun isMmap => ?_
    rw [isModule] at isMmap
    exact absurd isMmap (by decide)
  case pos =>
    refine iff_of_true rfl fun isMmap => ?_
    rw [isMeminfo] at isMmap
    exact absurd isMmap (by decide)
  case pos =>
    rw [Option.isSome_map]
    exact ⟨fun ends _ => ends, fun ends => ends isMmap⟩
  all_goals exact iff_of_true rfl fun isMmap' => absurd isMmap' isMmap

namespace TagList

variable {memory : Memory} {tag : ℕ} {tags : List ℕ}

theorem tags_eq (list : TagList memory tag tags) {turns : ℕ} (enough : tags.length < turns) :
    multibootTags memory turns tag = some tags := by
  induction list generalizing turns with
  | nil isEnd =>
      obtain ⟨left, rfl⟩ := Nat.exists_eq_add_of_lt enough
      rw [multibootTags, if_pos isEnd]
  | cons notEnd _ _ ih =>
      cases turns with
      | zero => cases enough
      | succ turns =>
          rw [multibootTags, if_neg notEnd, ih (Nat.lt_of_succ_lt_succ enough), Option.map_some]

theorem visit_returns (info : MultibootInfo) {turns : ℕ} (enough : 2 ^ 32 ≤ turns)
    (filled : tagType memory tag = tagTypeMmap → MmapFilled memory tag) :
    ∃ next, info.visit memory turns tag = some next := by
  rw [← Option.isSome_iff_exists, visit_isSome_iff]
  exact fun isMmap => (filled isMmap).returns enough

/-- The walk over a list of tags records all of them. -/
theorem walk_returns (list : TagList memory tag tags) (info : MultibootInfo) {turns : ℕ}
    (enough : 2 ^ 32 ≤ turns) :
    ∃ next, tags.foldlM (MultibootInfo.visit memory turns) info = some next := by
  induction list generalizing info with
  | nil => exact ⟨info, rfl⟩
  | cons _ filled _ ih =>
      obtain ⟨between, visited⟩ := visit_returns info enough filled
      obtain ⟨next, walked⟩ := ih between
      exact ⟨next, by rw [List.foldlM_cons, visited]; exact walked⟩

theorem returns {mb2 : ℕ} (list : TagList memory (offset mb2 8) tags) {turns : ℕ}
    (enough : tags.length + 2 ^ 32 ≤ turns) :
    ∃ info, multibootInfoInit memory turns mb2 = some info ∧ Recorded memory tags info := by
  obtain ⟨info, walked⟩ := list.walk_returns mbinfo (Nat.le_of_add_left_le enough)
  refine ⟨info, ?_, (Recorded.start memory).foldlM walked⟩
  rw [multibootInfoInit, list.tags_eq (by omega)]
  exact walked

end TagList

/-- **Boot information is isolated up to two modules.** For every list of tags that ends
with an end tag, `multiboot_info_init` returns; every field of `_mbinfo` then holds what the
last tag of its own kind says, `mods` the first two modules, and nothing else is written, if
and only if there are at most two modules. -/
theorem isolated_iff_modules {memory : Memory} {mb2 : ℕ} {tags : List ℕ}
    (list : TagList memory (offset mb2 8) tags) :
    ∃ enough, ∀ turns ≥ enough, ∃ info, multibootInfoInit memory turns mb2 = some info ∧
      (Isolated memory tags info ↔ (ofKind memory isModule tags).length ≤ 2) := by
  refine ⟨tags.length + 2 ^ 32, fun turns enough => ?_⟩
  obtain ⟨info, called, recorded⟩ := list.returns enough
  exact ⟨info, called, recorded.isolated_iff⟩

/-! ## Two lists of tags -/

/-- The words of a list of tags, from address 8 on. -/
def tagWords (words : List ℕ) : Memory := fun address =>
  BitVec.ofNat 8 (words.getD ((address - 8) / 4) 0 / 2 ^ (8 * (address % 4)))

/-- A tag that is no memory map. -/
theorem TagList.other {memory : Memory} {tag : ℕ} {tags : List ℕ}
    (notEnd : tagType memory tag ≠ tagTypeEnd) (notMmap : tagType memory tag ≠ tagTypeMmap)
    (list : TagList memory (nextTag memory tag) tags) : TagList memory tag (tag :: tags) :=
  .cons notEnd (fun isMmap => absurd isMmap notMmap) list

/-- Two modules, with an ACPI tag between them. -/
def twoModules : Memory :=
  tagWords [3, 16, 0x100000, 0x100800, 14, 28, 0, 0, 0, 0, 0, 0, 3, 16, 0x200000, 0x200800, 0, 8]

theorem tagList_twoModules : TagList twoModules 8 [8, 24, 56] := by
  refine .other (by decide) (by decide) (.other (by decide) (by decide)
    (.other (by decide) (by decide) ?_))
  exact .nil (by decide)

/-- With two modules the fields are those of their tags, the ACPI tag included. -/
theorem isolated_two_modules : ∃ enough, ∀ turns ≥ enough,
    ∃ info, multibootInfoInit twoModules turns 0 = some info ∧
      Isolated twoModules [8, 24, 56] info := by
  obtain ⟨enough, returns⟩ := @isolated_iff_modules _ 0 _ tagList_twoModules
  refine ⟨enough, fun turns many => ?_⟩
  obtain ⟨info, called, isolated⟩ := returns turns many
  exact ⟨info, called, isolated.mpr (by decide)⟩

/-- An ACPI tag and three modules. -/
def threeModules : Memory :=
  tagWords [14, 28, 0, 0, 0, 0, 0, 0, 3, 16, 0x100000, 0x100800, 3, 16, 0x200000, 0x200800,
    3, 16, 0x300000, 0x300800, 0, 8]

theorem tagList_threeModules : TagList threeModules 8 [8, 40, 56, 72] := by
  refine .other (by decide) (by decide) (.other (by decide) (by decide)
    (.other (by decide) (by decide) (.other (by decide) (by decide) ?_)))
  exact .nil (by decide)

/-- The third module replaces the address and the version of the ACPI tag with its own type
and size, and eight bytes are written past the end of `_mbinfo`. -/
theorem third_module_not_isolated :
    (multibootInfoInit threeModules 5 0).map
        (fun info => (info.rsdp, info.acpiVer, info.overrun)) = some (3, 16, 8) ∧
      ¬∃ enough, ∀ turns ≥ enough, ∃ info, multibootInfoInit threeModules turns 0 = some info ∧
        Isolated threeModules [8, 40, 56, 72] info := by
  refine ⟨by decide +kernel, ?_⟩
  rintro ⟨enough, claimed⟩
  obtain ⟨info, called, isolated⟩ := claimed (enough + (4 + 2 ^ 32)) (Nat.le_add_right _ _)
  obtain ⟨recordedInfo, returned, recorded⟩ :=
    @TagList.returns _ _ 0 tagList_threeModules (enough + (4 + 2 ^ 32)) (Nat.le_add_left _ _)
  rw [called, Option.some.injEq] at returned
  subst returned
  exact absurd (recorded.isolated_iff.mp isolated) (by decide)

end CatchOS.Common
