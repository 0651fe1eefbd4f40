import CatchOS.Lib.Extent
import CatchOS.Machine.Memory

/-!
# Boot information

`multiboot_info.c`: the boot loader leaves a list of tags in memory, and
`multiboot_info_init` walks over it and keeps what the kernel needs in `_mbinfo`.
The walk follows the sizes that the tags give, so it ends only on some memories; the
model has a bound on its turns, and no result when the bound is reached.

The loader also says in the tags which memory it uses: the modules it has loaded,
and the ranges of the memory map that are not available (`protectedRanges`).
-/

set_option autoImplicit false

namespace CatchOS.Common

open CatchOS.Lib

/-! ## Tags in memory -/

def tagTypeEnd : ℕ := 0

def tagTypeModule : ℕ := 3

def tagTypeBasicMeminfo : ℕ := 4

def tagTypeMmap : ℕ := 6

def tagTypeFramebuffer : ℕ := 8

def tagTypeAcpiOld : ℕ := 14

def tagTypeAcpiNew : ℕ := 15

/-- `MULTIBOOT_MEMORY_AVAILABLE`. -/
def memoryAvailable : ℕ := 1

/-- The word at an offset of a tag. -/
def field (memory : Memory) (tag bytes : ℕ) : ℕ := loadWord memory (offset tag bytes)

def tagType (memory : Memory) (tag : ℕ) : ℕ := field memory tag 0

def tagSize (memory : Memory) (tag : ℕ) : ℕ := field memory tag 4

/-- The size is rounded up to eight, in 32 bits. -/
def nextTag (memory : Memory) (tag : ℕ) : ℕ :=
  offset tag (offset (tagSize memory tag) 7 / 8 * 8)

/-- The tags from the given one up to the end tag. -/
def multibootTags (memory : Memory) : ℕ → ℕ → Option (List ℕ)
  | 0, _ => none
  | turns + 1, tag =>
      if tagType memory tag = tagTypeEnd then
        some []
      else
        (multibootTags memory turns (nextTag memory tag)).map (tag :: ·)

/-- The entries of a memory map, from the given one on. -/
def mmapEntries (memory : Memory) (tag : ℕ) : ℕ → ℕ → Option (List ℕ)
  | 0, _ => none
  | turns + 1, mmap =>
      if mmap < offset tag (tagSize memory tag) then
        (mmapEntries memory tag turns (offset mmap (field memory tag 8))).map (mmap :: ·)
      else
        some []

/-! ## `_mbinfo` -/

/-- `struct multiboot_tag_module`, without the command line behind it. -/
structure ModuleTag where
  type : ℕ
  size : ℕ
  modStart : ℕ
  modEnd : ℕ
  deriving DecidableEq

def moduleTag (memory : Memory) (tag : ℕ) : ModuleTag :=
  ⟨tagType memory tag, tagSize memory tag, field memory tag 8, field memory tag 12⟩

/-- `struct multiboot_info`, the static `modcount`, and the number of bytes that were
written past the end of `_mbinfo`. -/
structure MultibootInfo where
  physMemLower : ℕ
  physMemUpper : ℕ
  tagfb : List Byte
  mods : Fin 2 → ModuleTag
  rsdp : ℕ
  acpiVer : ℤ
  modcount : ℕ
  overrun : ℕ

def mbinfo : MultibootInfo where
  physMemLower := 0
  physMemUpper := 0
  tagfb := List.replicate 40 0#8
  mods := fun _ => ⟨0, 0, 0, 0⟩
  rsdp := 0
  acpiVer := 0
  modcount := 0
  overrun := 0

/-- `mods` has two entries. The copy of a third module covers `rsdp` and `acpi_ver`,
which stand behind `mods`, and eight bytes past the end; further ones are all past the
end. -/
def MultibootInfo.addModule (info : MultibootInfo) (tag : ModuleTag) : MultibootInfo :=
  let info := { info with modcount := info.modcount + 1 }
  if h : info.modcount ≤ 2 then
    { info with mods := Function.update info.mods ⟨info.modcount - 1, by omega⟩ tag }
  else if info.modcount = 3 then
    { info with rsdp := tag.type, acpiVer := int32 tag.size, overrun := 8 }
  else
    { info with overrun := info.overrun + 16 }

/-- One turn of the loop of `multiboot_info_init`. The memory map is walked over too,
to log it; other tags are only logged or passed over. -/
def MultibootInfo.visit (memory : Memory) (turns : ℕ) (info : MultibootInfo) (tag : ℕ) :
    Option MultibootInfo :=
  if tagType memory tag = tagTypeModule then
    some (info.addModule (moduleTag memory tag))
  else if tagType memory tag = tagTypeBasicMeminfo then
    some { info with physMemLower := field memory tag 8, physMemUpper := field memory tag 12 }
  else if tagType memory tag = tagTypeMmap then
    (mmapEntries memory tag turns (offset tag 16)).map fun _ => info
  else if tagType memory tag = tagTypeFramebuffer then
    some { info with tagfb := (List.range 40).map fun i => memory (offset tag i) }
  else if tagType memory tag = tagTypeAcpiOld then
    some { info with rsdp := offset tag 8, acpiVer := 1 }
  else if tagType memory tag = tagTypeAcpiNew then
    some { info with rsdp := offset tag 8, acpiVer := 2 }
  else
    some info

/-- `_mbinfo` after the walk, when the walk ends within the given number of turns. -/
def multibootInfoInit (memory : Memory) (turns mb2 : ℕ) : Option MultibootInfo :=
  match multibootTags memory turns (offset mb2 8) with
  | none => none
  | some tags => tags.foldlM (MultibootInfo.visit memory turns) mbinfo

/-! ## Memory that is in use -/

/-- An information structure in memory that `multiboot_info_init` gets through. -/
structure BootInformation where
  memory : Memory
  mb2 : ℕ
  turns : ℕ
  info : MultibootInfo
  parsed : multibootInfoInit memory turns mb2 = some info

namespace BootInformation

variable (boot : BootInformation)

def tags : List ℕ := (multibootTags boot.memory boot.turns (offset boot.mb2 8)).getD []

/-- The modules that the loader has put in memory. -/
def moduleRanges : List Extent :=
  (boot.tags.filter fun tag => tagType boot.memory tag = tagTypeModule).map fun tag =>
    let mod := moduleTag boot.memory tag
    ⟨mod.modStart, mod.modEnd - mod.modStart⟩

/-- The `uint64_t` at an offset of an entry of the memory map. -/
def entryField (mmap bytes : ℕ) : ℕ :=
  field boot.memory mmap bytes + 2 ^ 32 * field boot.memory mmap (bytes + 4)

/-- The ranges of one memory map that are marked as not available. -/
def unavailableIn (tag : ℕ) : List Extent :=
  let entries := (mmapEntries boot.memory tag boot.turns (offset tag 16)).getD []
  (entries.filter fun mmap => field boot.memory mmap 16 ≠ memoryAvailable).map fun mmap =>
    ⟨boot.entryField mmap 0, boot.entryField mmap 8⟩

def unavailableRanges : List Extent :=
  (boot.tags.filter fun tag => tagType boot.memory tag = tagTypeMmap).flatMap boot.unavailableIn

/-- The memory that nothing of the kernel may use as its own. -/
def protectedRanges : List Extent := boot.moduleRanges ++ boot.unavailableRanges

end BootInformation

end CatchOS.Common
