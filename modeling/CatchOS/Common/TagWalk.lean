import CatchOS.Common.TagIsolation
import CatchOS.Lib.Orbit

/-!
# Whether the walk over the tags ends

`multiboot_info_init` goes from tag to tag by the sizes that the tags give, until it comes to
an end tag, and never looks at the total size of the information. A tag of size zero, or one
whose size wraps, leads back; a wrong size leads out of the buffer.

Inside a memory map the walk goes from entry to entry by a size that the tag gives too, in
32-bit arithmetic. It ends if it comes to an address that is not before the end of the tag
(`mmapEnds_iff`), which for a size of zero is the case only if there are no entries.

So the walk ends and stays in the buffer exactly if the sizes lead to an end tag, with all
tags on the way in the buffer and every memory map such that its own walk ends
(`walkSafe_iff`).
-/

set_option autoImplicit false

namespace CatchOS.Common

open CatchOS.Lib

/-! ## The walk over a memory map -/

section Mmap

variable {memory : Memory} {tag mmap : ℕ}

/-- The walk over the entries comes to an end. -/
def MmapReturns (memory : Memory) (tag : ℕ) : Prop :=
  ∃ turns, (mmapEntries memory tag turns (offset tag 16)).isSome

/-- **The last address** that the walk can come to is not before the end of the tag. -/
def MmapEnds (memory : Memory) (tag : ℕ) : Prop :=
  offset tag (tagSize memory tag) ≤
    lastOfClass (2 ^ 32) (Nat.gcd (field memory tag 8) (2 ^ 32)) (offset tag 16)

instance (memory : Memory) (tag : ℕ) : Decidable (MmapEnds memory tag) :=
  inferInstanceAs (Decidable (_ ≤ _))

/-- More turns change nothing. -/
theorem mmapEntries_more {turns : ℕ} (returns : (mmapEntries memory tag turns mmap).isSome)
    {more : ℕ} (enough : turns ≤ more) : (mmapEntries memory tag more mmap).isSome := by
  induction turns generalizing mmap more with
  | zero => cases returns
  | succ turns ih =>
      cases more with
      | zero => omega
      | succ more =>
          rw [mmapEntries] at returns ⊢
          split at returns
          case isTrue before =>
            rw [Option.isSome_map] at returns
            rw [if_pos before, Option.isSome_map]
            exact ih returns (Nat.le_of_succ_le_succ enough)
          case isFalse notBefore =>
            rw [if_neg notBefore]
            rfl

/-- The walk ends if some address that it comes to is not before the end of the tag. -/
theorem mmapEntries_isSome_iff (word : mmap < 2 ^ 32) :
    (∃ turns, (mmapEntries memory tag turns mmap).isSome) ↔
      ∃ n, offset tag (tagSize memory tag) ≤ (mmap + n * field memory tag 8) % 2 ^ 32 := by
  have next (mmap n : ℕ) : (offset mmap (field memory tag 8) + n * field memory tag 8) % 2 ^ 32 =
      (mmap + (n + 1) * field memory tag 8) % 2 ^ 32 := by
    have both := offset_offset mmap (field memory tag 8) (n * field memory tag 8)
    rw [Nat.add_comm (field memory tag 8), ← Nat.succ_mul] at both
    exact both
  constructor
  · rintro ⟨turns, returns⟩
    induction turns generalizing mmap with
    | zero => cases returns
    | succ turns ih =>
        rw [mmapEntries] at returns
        split at returns
        case isFalse notBefore =>
          refine ⟨0, ?_⟩
          rw [Nat.zero_mul, Nat.add_zero, Nat.mod_eq_of_lt word]
          exact Nat.le_of_not_lt notBefore
        case isTrue before =>
          rw [Option.isSome_map] at returns
          obtain ⟨n, reaches⟩ := ih (offset_lt _ _) returns
          exact ⟨n + 1, next mmap n ▸ reaches⟩
  · rintro ⟨n, reaches⟩
    induction n generalizing mmap with
    | zero =>
        rw [Nat.zero_mul, Nat.add_zero, Nat.mod_eq_of_lt word] at reaches
        refine ⟨1, ?_⟩
        rw [mmapEntries, if_neg (Nat.not_lt_of_le reaches)]
        rfl
    | succ n ih =>
        obtain ⟨turns, returns⟩ := ih (offset_lt _ _) ((next mmap n).symm ▸ reaches)
        refine ⟨turns + 1, ?_⟩
        rw [mmapEntries]
        split
        · rwa [Option.isSome_map]
        · rfl

theorem mmapEnds_iff : MmapReturns memory tag ↔ MmapEnds memory tag := by
  rw [MmapReturns, mmapEntries_isSome_iff (offset_lt _ _), exists_reaches_iff _ (offset_lt _ _)]
  rfl

end Mmap

/-! ## The walk over the tags -/

/-- `total_size`, the first word of the information. -/
def totalSize (memory : Memory) (mb2 : ℕ) : ℕ := loadWord memory mb2

/-- How many bytes a tag is behind the start of the information. -/
def tagOffset (mb2 tag : ℕ) : ℕ := (tag + (2 ^ 32 - mb2 % 2 ^ 32)) % 2 ^ 32

/-- The tags whose header is read: from a tag the walk goes on when it is not the end tag, and
the walk over its memory map has ended. -/
inductive HeaderRead (memory : Memory) (mb2 : ℕ) : ℕ → Prop where
  | first : HeaderRead memory mb2 (offset mb2 8)
  | next {tag : ℕ} : HeaderRead memory mb2 tag → tagType memory tag ≠ tagTypeEnd →
      (tagType memory tag = tagTypeMmap → MmapReturns memory tag) →
      HeaderRead memory mb2 (nextTag memory tag)

/-- **`multiboot_info_init` returns, and reads no header outside of the buffer.** -/
def WalkSafe (memory : Memory) (mb2 : ℕ) : Prop :=
  (∃ turns info, multibootInfoInit memory turns mb2 = some info) ∧
  ∀ tag, HeaderRead memory mb2 tag → tagOffset mb2 tag < totalSize memory mb2

/-- From a tag on the sizes lead to an end tag, through tags that are in the buffer and memory
maps that end. -/
inductive LeadsToEnd (memory : Memory) (mb2 : ℕ) : ℕ → Prop where
  | stop {tag : ℕ} : tagOffset mb2 tag < totalSize memory mb2 →
      tagType memory tag = tagTypeEnd → LeadsToEnd memory mb2 tag
  | next {tag : ℕ} : tagOffset mb2 tag < totalSize memory mb2 →
      tagType memory tag ≠ tagTypeEnd →
      (tagType memory tag = tagTypeMmap → MmapEnds memory tag) →
      LeadsToEnd memory mb2 (nextTag memory tag) → LeadsToEnd memory mb2 tag

section Walk

variable {memory : Memory} {mb2 tag turns : ℕ} {tags : List ℕ}

/-- A walk that has returned has got through all of its memory maps. -/
theorem foldlM_visit_mmap {info after : MultibootInfo}
    (walked : tags.foldlM (MultibootInfo.visit memory turns) info = some after) :
    ∀ tag ∈ tags, tagType memory tag = tagTypeMmap → MmapReturns memory tag := by
  induction tags generalizing info with
  | nil => exact List.forall_mem_nil _
  | cons tag tags ih =>
      rw [List.foldlM_cons] at walked
      obtain ⟨between, visited, rest⟩ := Option.bind_eq_some_iff.mp walked
      rw [List.forall_mem_cons]
      refine ⟨fun isMmap => ⟨turns, ?_⟩, ih rest⟩
      exact (visit_isSome_iff info).mp (Option.isSome_of_eq_some visited) isMmap

/-- A walk that returns after reading only headers in the buffer. -/
theorem LeadsToEnd.of_tags (inBuffer : ∀ tag, HeaderRead memory mb2 tag →
      tagOffset mb2 tag < totalSize memory mb2)
    (read : HeaderRead memory mb2 tag) (walked : multibootTags memory turns tag = some tags)
    (mmaps : ∀ tag ∈ tags, tagType memory tag = tagTypeMmap → MmapReturns memory tag) :
    LeadsToEnd memory mb2 tag := by
  induction turns generalizing tag tags with
  | zero => cases walked
  | succ turns ih =>
      rw [multibootTags] at walked
      split at walked
      case isTrue isEnd => exact .stop (inBuffer tag read) isEnd
      case isFalse notEnd =>
        obtain ⟨rest, restWalked, rfl⟩ := Option.map_eq_some_iff.mp walked
        rw [List.forall_mem_cons] at mmaps
        refine .next (inBuffer tag read) notEnd (fun isMmap => mmapEnds_iff.mp (mmaps.1 isMmap)) ?_
        exact ih (.next read notEnd mmaps.1) restWalked mmaps.2

/-- All headers that are read lead to the end. -/
theorem LeadsToEnd.headerRead (leads : LeadsToEnd memory mb2 (offset mb2 8))
    (read : HeaderRead memory mb2 tag) : LeadsToEnd memory mb2 tag := by
  induction read with
  | first => exact leads
  | next _ notEnd _ ih =>
      cases ih with
      | stop _ isEnd => exact absurd isEnd notEnd
      | next _ _ _ further => exact further

theorem LeadsToEnd.inBuffer (leads : LeadsToEnd memory mb2 tag) :
    tagOffset mb2 tag < totalSize memory mb2 := by
  cases leads with
  | stop inside _ => exact inside
  | next inside _ _ _ => exact inside

/-- From some number of turns on the walk returns, whatever was recorded before. -/
theorem LeadsToEnd.returns (leads : LeadsToEnd memory mb2 tag) :
    ∃ enough, ∀ turns ≥ enough, ∃ tags, multibootTags memory turns tag = some tags ∧
      ∀ tag ∈ tags, tagType memory tag = tagTypeMmap →
        (mmapEntries memory tag turns (offset tag 16)).isSome := by
  induction leads with
  | stop _ isEnd =>
      refine ⟨1, fun turns enough => ⟨[], ?_, List.forall_mem_nil _⟩⟩
      obtain ⟨left, rfl⟩ := Nat.exists_eq_add_of_le' enough
      rw [multibootTags, if_pos isEnd]
  | @next tag _ notEnd ends _ ih =>
      obtain ⟨enough, later⟩ := ih
      obtain ⟨inMmap, mmap⟩ : ∃ inMmap, tagType memory tag = tagTypeMmap →
          (mmapEntries memory tag inMmap (offset tag 16)).isSome := by
        by_cases isMmap : tagType memory tag = tagTypeMmap
        · obtain ⟨inMmap, returns⟩ := mmapEnds_iff.mpr (ends isMmap)
          exact ⟨inMmap, fun _ => returns⟩
        · exact ⟨0, fun isMmap' => absurd isMmap' isMmap⟩
      refine ⟨enough + inMmap + 1, fun turns many => ?_⟩
      obtain ⟨left, rfl⟩ := Nat.exists_eq_add_of_le' (Nat.le_trans (Nat.le_add_left 1 _) many)
      obtain ⟨tags, walked, mmaps⟩ := later left (by omega)
      refine ⟨tag :: tags, ?_, ?_⟩
      · rw [multibootTags, if_neg notEnd, walked, Option.map_some]
      · rw [List.forall_mem_cons]
        refine ⟨fun isMmap => mmapEntries_more (mmap isMmap) (by omega), ?_⟩
        exact fun other member isMmap =>
          mmapEntries_more (mmaps other member isMmap) (Nat.le_succ left)

/-- Tags whose memory maps end are all recorded. -/
theorem foldlM_visit_returns (mmaps : ∀ tag ∈ tags, tagType memory tag = tagTypeMmap →
      (mmapEntries memory tag turns (offset tag 16)).isSome) (info : MultibootInfo) :
    ∃ after, tags.foldlM (MultibootInfo.visit memory turns) info = some after := by
  induction tags generalizing info with
  | nil => exact ⟨info, rfl⟩
  | cons tag tags ih =>
      rw [List.forall_mem_cons] at mmaps
      obtain ⟨between, visited⟩ :=
        Option.isSome_iff_exists.mp ((visit_isSome_iff info).mpr mmaps.1)
      obtain ⟨after, walked⟩ := ih mmaps.2 between
      exact ⟨after, by rw [List.foldlM_cons, visited]; exact walked⟩

end Walk

/-- **The walk is safe exactly if the sizes lead to an end tag** through tags in the buffer and
memory maps that end. -/
theorem walkSafe_iff (memory : Memory) (mb2 : ℕ) :
    WalkSafe memory mb2 ↔ LeadsToEnd memory mb2 (offset mb2 8) := by
  constructor
  · rintro ⟨⟨turns, info, called⟩, inBuffer⟩
    unfold multibootInfoInit at called
    split at called
    case h_1 => cases called
    case h_2 tags walked =>
      exact .of_tags inBuffer .first walked (foldlM_visit_mmap called)
  · intro leads
    refine ⟨?_, fun tag read => (leads.headerRead read).inBuffer⟩
    obtain ⟨enough, returns⟩ := leads.returns
    obtain ⟨tags, walked, mmaps⟩ := returns enough (Nat.le_refl enough)
    obtain ⟨info, recorded⟩ := foldlM_visit_returns mmaps mbinfo
    refine ⟨enough, info, ?_⟩
    rw [multibootInfoInit, walked]
    exact recorded

/-! ## A tag of size zero -/

/-- The walk does not leave a tag that leads to itself. -/
theorem LeadsToEnd.not_loop {memory : Memory} {mb2 tag : ℕ}
    (leads : LeadsToEnd memory mb2 tag) (loops : nextTag memory tag = tag) :
    tagType memory tag = tagTypeEnd := by
  induction leads with
  | stop _ isEnd => exact isEnd
  | next _ _ _ _ ih =>
      have isEnd := ih (by rw [loops, loops])
      rwa [loops] at isEnd

/-- Information of 24 bytes at `0x10000`, with a command line of size zero. -/
def sizeZeroMemory : Memory := fun address =>
  if address = 0x10000 then 24 else if address = 0x10008 then 1 else 0

theorem size_zero_not_walkSafe : ¬WalkSafe sizeZeroMemory 0x10000 := by
  intro safe
  have isEnd := ((walkSafe_iff _ _).mp safe).not_loop (by decide +kernel)
  revert isEnd
  decide +kernel

end CatchOS.Common
