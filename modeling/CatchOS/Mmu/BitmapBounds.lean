import CatchOS.Mmu.PageframeSearch

/-!
# The bytes of the bitmap that the allocator touches

The page-frame bitmap has `total / 8` bytes, rounded down. The functions of
`pageframe_alloc.c` are given here once more, each with the indices of the bytes it
reads or writes; `result` is what the function of `PageframeAlloc` computes (the
lemmas `..._result`), and `bytes` are the indices, in the order of the accesses.

An index is out of bounds in three ways: `pageframe_alloc_init` sets the bits of 2048
pages whatever the total is; first fit scans up to the total, which need not be a
multiple of eight; and `pageframe_set_page_from_addr` takes any address. The guard
`InBounds` says of a call that none of the three happens, and a run stays inside the
bitmap exactly when all its calls meet it (`bitmap_in_bounds`).
-/

set_option autoImplicit false

namespace CatchOS.Mmu

open CatchOS.Lib CatchOS.Utils

/-! ## The functions with their accesses -/

/-- What a function returns, and the indices of the bytes of the bitmap it accesses. -/
structure Logged (Result : Type) where
  result : Result
  bytes : List ℕ

/-- The byte that a bit operation accesses; a `NULL` bitmap is left alone. -/
def Pageframe.byteOf (frames : Pageframe) (pageNo : ℕ) : List ℕ :=
  if frames.pageframeBitmap = 0 then [] else [pageNo / 8]

def setPagesLog (frames : Pageframe) (pageStart pages : ℕ) : Logged Pageframe where
  result := frames.setPages pageStart pages
  bytes := (List.range' pageStart ((pageStart + pages) % 2 ^ 32 - pageStart)).flatMap frames.byteOf

/-- The outer loop of `pageframe_alloc_bestfit`, over the indices that are left. -/
def bestfitPageLog (frames : Pageframe) (pages : ℕ) : List ℕ → Logged (Option ℕ)
  | [] => ⟨none, []⟩
  | i :: rest =>
      let skipped := bestfitPageLog frames pages rest
      if frames.byte i = 0xff#8 then
        ⟨skipped.result, i :: skipped.bytes⟩
      else if 0 ≤ bestFitPos (frames.byte i) pages then
        ⟨some (i * 8 + (bestFitPos (frames.byte i) pages).toNat), [i]⟩
      else
        ⟨skipped.result, i :: skipped.bytes⟩

def firstfitSkipLog (frames : Pageframe) : ℕ → ℕ → ℕ → Logged ℕ
  | 0, _, pageNo => ⟨pageNo, []⟩
  | bytes + 1, i, pageNo =>
      if frames.byte i = 0xff#8 then
        let rest := firstfitSkipLog frames bytes (i + 1) (pageNo + 8)
        ⟨rest.result, i :: rest.bytes⟩
      else
        ⟨pageNo, [i]⟩

def firstfitScanLog (frames : Pageframe) (pages : ℕ) : ℕ → ℕ → ℕ → ℕ → Logged (Option ℕ)
  | 0, _, _, _ => ⟨none, []⟩
  | bits + 1, i, pageNo, curLen =>
      if frames.getPage i = 0 then
        if curLen + 1 = pages then
          ⟨some pageNo, frames.byteOf i⟩
        else
          let rest := firstfitScanLog frames pages bits (i + 1) pageNo (curLen + 1)
          ⟨rest.result, frames.byteOf i ++ rest.bytes⟩
      else
        let rest := firstfitScanLog frames pages bits (i + 1) (pageNo + curLen + 1) 0
        ⟨rest.result, frames.byteOf i ++ rest.bytes⟩

def firstfitPageLog (frames : Pageframe) (pages : ℕ) : Logged (Option ℕ) :=
  let skip := firstfitSkipLog frames (frames.pagesTotalPhys / 8) 0 0
  let scan := firstfitScanLog frames pages (frames.pagesTotalPhys - skip.result) skip.result
    skip.result 0
  ⟨scan.result, skip.bytes ++ scan.bytes⟩

def allocPageLog (frames : Pageframe) (pages : ℕ) : Logged (Option ℕ) :=
  if pages > 8 then firstfitPageLog frames pages
  else bestfitPageLog frames pages (List.range (frames.pagesTotalPhys / 8))

/-- The search of a call, and the marking of the block it finds. -/
def allocLog (frames : Pageframe) (pages : ℕ) : Logged (ℕ × Pageframe) :=
  let search := allocPageLog frames pages
  match search.result with
  | none => ⟨(0, frames), search.bytes⟩
  | some pageNo =>
      let marked := setPagesLog frames pageNo pages
      ⟨(pageframeAddrFromPage pageNo, marked.result), search.bytes ++ marked.bytes⟩

/-- `kmalloc_align` clears the bytes of the bitmap it allocates, and the loop then fills
those of the kernel's pages. -/
def pageframeAllocInitLog (physMemUpper : ℕ) (frames : Pageframe) : Option (Logged Pageframe) :=
  (pageframeAllocInit physMemUpper frames).map fun frames =>
    ⟨frames, List.range (frames.pagesTotalPhys / 8) ++
      (List.range (1024 * 2)).flatMap frames.byteOf⟩

def pageframeAllocLog (physMemUpper : ℕ) (frames : Pageframe) (pages : ℕ) :
    Option (Logged (ℕ × Pageframe)) :=
  if frames.isInitialized then
    some (allocLog frames pages)
  else
    (pageframeAllocInitLog physMemUpper frames).map fun init =>
      let call := allocLog init.result pages
      ⟨call.result, init.bytes ++ call.bytes⟩

/-- Each turn of the loop reads the byte of its page, and writes it when the page was
taken. -/
def pageframeFreeLog (frames : Pageframe) (physAddr pages : ℕ) : Logged Pageframe where
  result := pageframeFree frames physAddr pages
  bytes :=
    if frames.isInitialized then
      (List.range (int32 pages).toNat).flatMap fun i =>
        frames.byteOf (offset (pageFromAddr physAddr) i)
    else
      []

def pageframeSetPageFromAddrLog (frames : Pageframe) (physAddr pages : ℕ) : Logged Pageframe :=
  setPagesLog frames (pageFromAddr physAddr) pages

/-! ## The results are those of the allocator -/

section Results

variable {frames : Pageframe} {pages : ℕ}

theorem bestfitPageLog_result (bytes : List ℕ) :
    (bestfitPageLog frames pages bytes).result = bytes.findSome? fun i =>
      if frames.byte i = 0xff#8 then none
      else if 0 ≤ bestFitPos (frames.byte i) pages then
        some (i * 8 + (bestFitPos (frames.byte i) pages).toNat)
      else none := by
  induction bytes with
  | nil => rfl
  | cons i rest ih =>
      rw [bestfitPageLog, List.findSome?_cons, ← ih]
      by_cases full : frames.byte i = 0xff#8
      · simp only [if_pos full]
      · by_cases fits : 0 ≤ bestFitPos (frames.byte i) pages
        · simp only [if_neg full, if_pos fits]
        · simp only [if_neg full, if_neg fits]

theorem firstfitSkipLog_result (bytes i pageNo : ℕ) :
    (firstfitSkipLog frames bytes i pageNo).result = firstfitSkip frames bytes i pageNo := by
  induction bytes generalizing i pageNo with
  | zero => rfl
  | succ bytes ih =>
      rw [firstfitSkipLog, firstfitSkip, ← ih]
      split <;> rfl

theorem firstfitScanLog_result (bits i pageNo curLen : ℕ) :
    (firstfitScanLog frames pages bits i pageNo curLen).result =
      firstfitScan frames pages bits i pageNo curLen := by
  induction bits generalizing i pageNo curLen with
  | zero => rfl
  | succ bits ih =>
      rw [firstfitScanLog, firstfitScan, ← ih, ← ih]
      split
      · split <;> rfl
      · rfl

theorem pageframeAllocInit_initialized {physMemUpper : ℕ} {start : Pageframe}
    (init : pageframeAllocInit physMemUpper frames = some start) :
    start.isInitialized = true := by
  simp only [pageframeAllocInit] at init
  split at init
  · cases init
  · rw [← Option.some.inj init]

theorem firstfitPageLog_result :
    (firstfitPageLog frames pages).result = firstfitPage frames pages := by
  simp only [firstfitPageLog, firstfitPage, firstfitSkipLog_result, firstfitScanLog_result]

theorem allocPageLog_result :
    (allocPageLog frames pages).result = allocPage frames pages := by
  rw [allocPageLog, allocPage, apply_ite Logged.result, firstfitPageLog_result,
    bestfitPageLog_result]
  rfl

theorem allocLog_none (none : allocPage frames pages = .none) :
    allocLog frames pages = ⟨(0, frames), (allocPageLog frames pages).bytes⟩ := by
  simp only [allocLog, allocPageLog_result, none]

theorem allocLog_some {start : ℕ} (found : allocPage frames pages = some start) :
    allocLog frames pages =
      ⟨(pageframeAddrFromPage start, frames.setPages start pages),
        (allocPageLog frames pages).bytes ++ (setPagesLog frames start pages).bytes⟩ := by
  simp only [allocLog, allocPageLog_result, found]
  rfl

theorem allocLog_result (physMemUpper : ℕ) (initialized : frames.isInitialized = true) :
    some (allocLog frames pages).result = pageframeAlloc physMemUpper frames pages := by
  rw [pageframeAlloc_eq physMemUpper initialized]
  cases found : allocPage frames pages with
  | none => rw [allocLog_none found]
  | some start => rw [allocLog_some found]

theorem pageframeAllocLog_result (physMemUpper : ℕ) :
    (pageframeAllocLog physMemUpper frames pages).map Logged.result =
      pageframeAlloc physMemUpper frames pages := by
  cases before : frames.isInitialized with
  | true =>
      rw [pageframeAllocLog, if_pos before, Option.map_some, allocLog_result physMemUpper before]
  | false =>
      cases init : pageframeAllocInit physMemUpper frames with
      | none =>
          simp [pageframeAllocLog, pageframeAllocInitLog, pageframeAlloc, before, init]
      | some start =>
          have initialized := pageframeAllocInit_initialized init
          rw [pageframeAlloc_first before init initialized, ← allocLog_result _ initialized]
          simp only [pageframeAllocLog, pageframeAllocInitLog, before, init, Option.map_some,
            Bool.false_eq_true, if_false]

end Results

/-! ## Which bytes a call accesses -/

section Accesses

variable {frames : Pageframe} {pages : ℕ}

/-- All the indices are below the number of bytes of the bitmap. -/
def InBitmap (bytesTotal : ℕ) (bytes : List ℕ) : Prop := ∀ byte ∈ bytes, byte < bytesTotal

theorem InBitmap.append {bytesTotal : ℕ} {first second : List ℕ} :
    InBitmap bytesTotal (first ++ second) ↔
      InBitmap bytesTotal first ∧ InBitmap bytesTotal second :=
  List.forall_mem_append

/-- The bit operations on some pages stay inside the bitmap exactly when the bitmap has a
bit for each page. -/
theorem inBitmap_flatMap_byteOf {bytesTotal : ℕ} {pageNos : List ℕ}
    (allocated : frames.pageframeBitmap ≠ 0) :
    InBitmap bytesTotal (pageNos.flatMap frames.byteOf) ↔
      ∀ pageNo ∈ pageNos, pageNo < bytesTotal * 8 := by
  unfold InBitmap
  simp only [List.mem_flatMap, Pageframe.byteOf, if_neg allocated, List.mem_singleton]
  constructor
  · intro inBitmap pageNo member
    have below := inBitmap _ ⟨pageNo, member, rfl⟩
    omega
  · rintro inside byte ⟨pageNo, member, rfl⟩
    have below := inside pageNo member
    omega

theorem inBitmap_setPagesLog {start bytesTotal : ℕ} (allocated : frames.pageframeBitmap ≠ 0) :
    InBitmap bytesTotal (setPagesLog frames start pages).bytes ↔
      ((start + pages) % 2 ^ 32 ≤ start ∨ (start + pages) % 2 ^ 32 ≤ bytesTotal * 8) := by
  unfold setPagesLog
  rw [inBitmap_flatMap_byteOf allocated]
  simp only [List.mem_range'_1]
  constructor
  · intro inside
    by_cases none : (start + pages) % 2 ^ 32 ≤ start
    · exact .inl none
    · have last := inside ((start + pages) % 2 ^ 32 - 1) (by omega)
      exact .inr (by omega)
  · rintro fits pageNo ⟨above, below⟩
    omega

/-- Best fit reads the bytes of the bitmap it is given, at most. -/
theorem mem_bestfitPageLog {bytes : List ℕ} {byte : ℕ}
    (member : byte ∈ (bestfitPageLog frames pages bytes).bytes) : byte ∈ bytes := by
  induction bytes with
  | nil => exact member
  | cons i rest ih =>
      rw [bestfitPageLog] at member
      have here : byte ∈ i :: (bestfitPageLog frames pages rest).bytes → byte ∈ i :: rest := by
        intro member
        rcases List.mem_cons.mp member with rfl | later
        · exact List.mem_cons_self
        · exact List.mem_cons_of_mem _ (ih later)
      split at member
      · exact here member
      · split at member
        · rw [List.mem_singleton.mp member]
          exact List.mem_cons_self
        · exact here member

/-- The first loop of first fit reads the bytes in its range, at most. -/
theorem mem_firstfitSkipLog {bytes i pageNo byte : ℕ}
    (member : byte ∈ (firstfitSkipLog frames bytes i pageNo).bytes) : byte < i + bytes := by
  induction bytes generalizing i pageNo with
  | zero => cases member
  | succ bytes ih =>
      rw [firstfitSkipLog] at member
      split at member
      · rcases List.mem_cons.mp member with rfl | later
        · omega
        · have below := ih later
          omega
      · rw [List.mem_singleton.mp member]
        omega

/-- Up to where the second loop of first fit looks: to the end of the run it finds. -/
def scanStop (pages : ℕ) (found : Option ℕ) (last : ℕ) : ℕ :=
  match found with
  | none => last
  | some start => start + pages

/-- The second loop reads the bits from its first page up to the end of the run it finds,
and up to its last page when it finds none. -/
theorem firstfitScanLog_bytes {bits i pageNo curLen : ℕ} (run : pageNo + curLen = i)
    (short : curLen < pages) :
    i ≤ scanStop pages (firstfitScan frames pages bits i pageNo curLen) (i + bits) ∧
      (firstfitScanLog frames pages bits i pageNo curLen).bytes =
        (List.range' i (scanStop pages (firstfitScan frames pages bits i pageNo curLen) (i + bits)
          - i)).flatMap frames.byteOf := by
  induction bits generalizing i pageNo curLen with
  | zero =>
      simp only [firstfitScan, scanStop, firstfitScanLog, Nat.add_zero, Nat.sub_self]
      exact ⟨Nat.le_refl _, rfl⟩
  | succ bits ih =>
      -- One turn reads the bit of page `i`, and the rest is the loop from `i + 1` on.
      have turn {stop : ℕ} {rest : List ℕ} (above : i + 1 ≤ stop)
          (later : rest = (List.range' (i + 1) (stop - (i + 1))).flatMap frames.byteOf) :
          i ≤ stop ∧ frames.byteOf i ++ rest =
            (List.range' i (stop - i)).flatMap frames.byteOf := by
        refine ⟨by omega, ?_⟩
        have length : stop - i = stop - (i + 1) + 1 := by omega
        rw [length, List.range'_succ, List.flatMap_cons, later]
      rw [firstfitScan, firstfitScanLog, show i + (bits + 1) = i + 1 + bits by omega]
      by_cases zero : frames.getPage i = 0
      · rw [if_pos zero, if_pos zero]
        by_cases enough : curLen + 1 = pages
        · rw [if_pos enough, if_pos enough]
          have stop : pageNo + pages = i + 1 := by omega
          simp only [scanStop, stop]
          have last := @turn (i + 1) [] (Nat.le_refl _) (by rw [Nat.sub_self]; rfl)
          rwa [List.append_nil] at last
        · rw [if_neg enough, if_neg enough]
          obtain ⟨above, later⟩ := @ih (i + 1) pageNo (curLen + 1) (by omega) (by omega)
          exact turn above later
      · rw [if_neg zero, if_neg zero]
        obtain ⟨above, later⟩ := @ih (i + 1) (pageNo + curLen + 1) 0 (by omega) (by omega)
        exact turn above later

/-- The pages of a clear run have bits in the bitmap. -/
def RoomInBitmap (frames : Pageframe) (pages : ℕ) : Prop :=
  ∃ start, start + pages ≤ frames.pagesTotalPhys / 8 * 8 ∧ ClearRun frames start pages

/-- First fit looks at no page past the bitmap exactly when the bitmap has a bit for each
page, or a free run that lies inside it. -/
theorem scanStop_le_iff (allocated : frames.pageframeBitmap ≠ 0) (some' : 1 ≤ pages) :
    scanStop pages (firstfitPage frames pages) frames.pagesTotalPhys ≤
        frames.pagesTotalPhys / 8 * 8 ↔
      (frames.pagesTotalPhys % 8 = 0 ∨ RoomInBitmap frames pages) := by
  have first {start : ℕ} (inside : start + pages ≤ frames.pagesTotalPhys / 8 * 8)
      (clear : ClearRun frames start pages) :
      ∃ found ≤ start, firstfitPage frames pages = some found :=
    firstfitPage_first allocated some' ⟨by omega, clear⟩
  cases found : firstfitPage frames pages with
  | none =>
      simp only [scanStop]
      constructor
      · intro whole
        exact .inl (by omega)
      · rintro (whole | ⟨start, inside, clear⟩)
        · omega
        · obtain ⟨other, -, here⟩ := first inside clear
          rw [found] at here
          cases here
  | some start =>
      have free := firstfitPage_free allocated found
      have below := free.below
      simp only [scanStop]
      constructor
      · intro inside
        exact .inr ⟨start, inside, free.clear⟩
      · rintro (whole | ⟨other, inside, clear⟩)
        · omega
        · obtain ⟨same, before, here⟩ := first inside clear
          rw [found, Option.some.injEq] at here
          omega

theorem inBitmap_firstfitPageLog (allocated : frames.pageframeBitmap ≠ 0) (some' : 1 ≤ pages) :
    InBitmap (frames.pagesTotalPhys / 8) (firstfitPageLog frames pages).bytes ↔
      (frames.pagesTotalPhys % 8 = 0 ∨ RoomInBitmap frames pages) := by
  rw [← scanStop_le_iff allocated some']
  have skipped := firstfitSkip_le frames (frames.pagesTotalPhys / 8) 0 0
  have scanned := (@firstfitScanLog_bytes frames pages
    (frames.pagesTotalPhys - firstfitSkip frames (frames.pagesTotalPhys / 8) 0 0) _ _ 0
    (Nat.add_zero (firstfitSkip frames (frames.pagesTotalPhys / 8) 0 0)) some').2
  rw [Nat.add_sub_cancel' (by omega)] at scanned
  simp only [firstfitPageLog, firstfitSkipLog_result]
  rw [InBitmap.append, scanned, inBitmap_flatMap_byteOf allocated]
  change _ ∧ (∀ pageNo ∈ List.range' _ (scanStop pages (firstfitPage frames pages) _ - _), _) ↔ _
  generalize firstfitSkip frames (frames.pagesTotalPhys / 8) 0 0 = from' at skipped ⊢
  generalize scanStop pages (firstfitPage frames pages) frames.pagesTotalPhys = stop
  simp only [List.mem_range'_1]
  constructor
  · rintro ⟨-, inside⟩
    by_contra beyond
    have last := inside (stop - 1) (by omega)
    omega
  · intro inside
    refine ⟨?_, fun pageNo bounds => by omega⟩
    intro byte member
    have below := mem_firstfitSkipLog member
    omega

/-- A search that stays inside the bitmap finds a block that lies inside it. -/
theorem allocPage_inside (allocated : frames.pageframeBitmap ≠ 0) {start : ℕ}
    (found : allocPage frames pages = some start)
    (inside : 8 < pages → frames.pagesTotalPhys % 8 = 0 ∨ RoomInBitmap frames pages) :
    start + pages ≤ frames.pagesTotalPhys / 8 * 8 := by
  by_cases many : 8 < pages
  · rw [allocPage, if_pos many] at found
    have stop := (scanStop_le_iff allocated (by omega)).mpr (inside many)
    rwa [found] at stop
  · exact (allocPage_free allocated found).2 (by omega)

/-- **The accesses of a search** and of the marking of its block stay inside the bitmap
for up to eight pages, and for more pages exactly when first fit does. -/
theorem inBitmap_allocLog (allocated : frames.pageframeBitmap ≠ 0) :
    InBitmap (frames.pagesTotalPhys / 8) (allocLog frames pages).bytes ↔
      (8 < pages → frames.pagesTotalPhys % 8 = 0 ∨ RoomInBitmap frames pages) := by
  have searched : InBitmap (frames.pagesTotalPhys / 8) (allocPageLog frames pages).bytes ↔
      (8 < pages → frames.pagesTotalPhys % 8 = 0 ∨ RoomInBitmap frames pages) := by
    unfold allocPageLog
    by_cases many : pages > 8
    · rw [if_pos many, inBitmap_firstfitPageLog allocated (by omega)]
      exact ⟨fun inside _ => inside, fun inside => inside many⟩
    · rw [if_neg many]
      refine ⟨fun _ more => absurd more many, fun _ byte member => ?_⟩
      exact List.mem_range.mp (mem_bestfitPageLog member)
  rw [← searched]
  cases found : allocPage frames pages with
  | none => rw [allocLog_none found]
  | some start =>
      rw [allocLog_some found, InBitmap.append]
      refine ⟨And.left, fun inside => ⟨inside, ?_⟩⟩
      have ends := allocPage_inside allocated found (searched.mp inside)
      exact (inBitmap_setPagesLog allocated).mpr (.inr (by omega))

end Accesses

/-! ## Runs -/

/-- The allocator, the blocks that are live, and the indices of all the bytes of the
bitmap that were accessed so far. -/
structure BitmapRun where
  frames : Pageframe
  live : List Extent
  accessed : List ℕ

/-- A call of the allocator, or other code of the kernel. -/
inductive BitmapAction where
  | alloc (pages : ℕ)
  | free (block : Extent)
  | setPageFromAddr (physAddr pages : ℕ)
  | elsewhere (kheap : Kheap)

/-- The heap is behind the kernel image, so its pointer is not `NULL`, and not in the
last page of the address space. -/
def HeapPointer (kheap : Kheap) : Prop := 0 < kheap.heapCur ∧ kheap.heapCur + 4096 ≤ 2 ^ 32

instance (kheap : Kheap) : Decidable (HeapPointer kheap) :=
  inferInstanceAs (Decidable (_ ∧ _))

/-- A live block is freed with its own address and number of pages, and pages are
reserved at any address. Other code of the kernel leaves the bytes of the bitmap alone. -/
def BitmapRun.step (physMemUpper : ℕ) (run : BitmapRun) : BitmapAction → Option BitmapRun
  | .alloc pages =>
      if pages < 2 ^ 32 then
        match pageframeAllocLog physMemUpper run.frames pages with
        | none => none
        | some ⟨(ret, frames), bytes⟩ =>
            let live := if ret = 0 then run.live else ⟨pageFromAddr ret, pages⟩ :: run.live
            some ⟨frames, live, run.accessed ++ bytes⟩
      else
        none
  | .free block =>
      if block ∈ run.live then
        let call := pageframeFreeLog run.frames (block.start * 4096) block.size
        some ⟨call.result, run.live.erase block, run.accessed ++ call.bytes⟩
      else
        none
  | .setPageFromAddr physAddr pages =>
      if physAddr < 2 ^ 32 ∧ pages < 2 ^ 32 then
        let call := pageframeSetPageFromAddrLog run.frames physAddr pages
        some ⟨call.result, run.live, run.accessed ++ call.bytes⟩
      else
        none
  | .elsewhere kheap =>
      if HeapPointer kheap ∧ ∀ i < run.frames.pagesTotalPhys / 8,
          kheap.memory (offset run.frames.pageframeBitmap i) = run.frames.byte i then
        some { run with frames := { run.frames with toKheap := kheap } }
      else
        none

/-- Runs start before the first call of the allocator, with the initial values of its
variables. -/
def bitmapSystem (physMemUpper : ℕ) : System BitmapRun BitmapAction where
  initial run := ∃ kheap, HeapPointer kheap ∧ run = ⟨⟨kheap, false, 0, 0⟩, [], []⟩
  step := BitmapRun.step physMemUpper

/-- The call accesses no byte past the bitmap. The first call sets up the bitmap, which
takes 2048 pages. A search for more than eight pages reads up to the total, unless it
finds a run before; right after the start the free pages are those from 2048 on. A
reservation takes the pages of its address, unless their number wraps around. -/
def InBounds (physMemUpper : ℕ) (run : BitmapRun) : BitmapAction → Prop
  | .alloc pages =>
      if run.frames.isInitialized then
        8 < pages → pagesTotal physMemUpper % 8 = 0 ∨ RoomInBitmap run.frames pages
      else
        2048 ≤ pagesTotal physMemUpper ∧ (8 < pages → pagesTotal physMemUpper % 8 = 0 ∨
          2048 + pages ≤ pagesTotal physMemUpper / 8 * 8)
  | .free _ => True
  | .setPageFromAddr physAddr pages =>
      run.frames.isInitialized = true →
        (pageFromAddr physAddr + pages) % 2 ^ 32 ≤ pageFromAddr physAddr ∨
          (pageFromAddr physAddr + pages) % 2 ^ 32 ≤ pagesTotal physMemUpper / 8 * 8
  | .elsewhere _ => True

/-- The state of the allocator in a run that stays inside the bitmap. -/
structure BitmapInvariant (physMemUpper : ℕ) (run : BitmapRun) : Prop where
  ready : run.frames.isInitialized = true → run.frames.pageframeBitmap ≠ 0 ∧
    run.frames.pagesTotalPhys = pagesTotal physMemUpper
  fresh : run.frames.isInitialized = false →
    run.frames.pageframeBitmap = 0 ∧ HeapPointer run.frames.toKheap
  inside : ∀ block ∈ run.live,
    block.start + block.size ≤ pagesTotal physMemUpper / 8 * 8
  accessed : InBitmap (pagesTotal physMemUpper / 8) run.accessed

section FirstCall

variable {physMemUpper pages : ℕ} {kheap : Kheap}

/-- The bitmap that the first call sets up is not `NULL`. -/
theorem initialFrames_allocated (pointer : HeapPointer kheap) :
    (initialFrames physMemUpper kheap).pageframeBitmap ≠ 0 := by
  have above := le_alignUp_page kheap.heapCur
  have nonnull := pointer.1
  simp only [initialFrames]
  omega

/-- Right after the start the free pages of the bitmap are those from 2048 on. -/
theorem roomInBitmap_initialFrames (pointer : HeapPointer kheap) (some' : 1 ≤ pages) :
    RoomInBitmap (initialFrames physMemUpper kheap) pages ↔
      2048 + pages ≤ pagesTotal physMemUpper / 8 * 8 := by
  constructor
  · rintro ⟨start, inside, clear⟩
    have above : 2048 ≤ start := by
      by_contra low
      have taken := @bit_initialFrames_reserved physMemUpper start kheap pointer.1 (by omega)
      exact clear.not_mem taken ⟨Nat.le_refl _, by omega⟩
    have total : start + pages ≤ pagesTotal physMemUpper / 8 * 8 := inside
    omega
  · intro room
    refine ⟨2048, room, fun page above below => ?_⟩
    rw [bit_initialFrames pointer.1 (by omega)]
    exact decide_eq_false (by omega)

/-- The first call accesses the bytes of the bitmap and of the kernel's pages, and then
those of its search. -/
theorem pageframeAllocLog_first {frames : Pageframe} (before : frames.isInitialized = false)
    (pointer : HeapPointer frames.toKheap) :
    ∃ bytes, pageframeAllocLog physMemUpper frames pages = some
        ⟨(allocLog (initialFrames physMemUpper frames.toKheap) pages).result, bytes⟩ ∧
      (InBitmap (pagesTotal physMemUpper / 8) bytes ↔
        2048 ≤ pagesTotal physMemUpper ∧ (8 < pages → pagesTotal physMemUpper % 8 = 0 ∨
          2048 + pages ≤ pagesTotal physMemUpper / 8 * 8)) := by
  have below := alignUp_page_lt frames.heapCur
  have room := pointer.2
  have init :=
    pageframeAllocInit_eq physMemUpper (show alignUp 4096 frames.heapCur < 2 ^ 32 by omega)
  have allocated := @initialFrames_allocated physMemUpper _ pointer
  have search := @inBitmap_allocLog _ pages allocated
  simp only [pageframeAllocLog, pageframeAllocInitLog, before, init, Option.map_some,
    Bool.false_eq_true, if_false]
  refine ⟨_, rfl, ?_⟩
  rw [InBitmap.append, InBitmap.append, inBitmap_flatMap_byteOf allocated]
  change (_ ∧ _) ∧ InBitmap ((initialFrames physMemUpper frames.toKheap).pagesTotalPhys / 8) _ ↔ _
  rw [search]
  simp only [List.mem_range]
  constructor
  · rintro ⟨⟨-, kernel⟩, searched⟩
    have last := kernel 2047 (by omega)
    refine ⟨by omega, fun many => ?_⟩
    rcases searched many with whole | inside
    · exact .inl whole
    · exact .inr ((roomInBitmap_initialFrames pointer (by omega)).mp inside)
  · rintro ⟨enough, searched⟩
    refine ⟨⟨fun byte member => List.mem_range.mp member, fun page low => by omega⟩, fun many => ?_⟩
    rcases searched many with whole | inside
    · exact .inl whole
    · exact .inr ((roomInBitmap_initialFrames pointer (by omega)).mpr inside)

end FirstCall

namespace BitmapInvariant

variable {physMemUpper : ℕ} {run next : BitmapRun}

/-- A search that stays inside the bitmap keeps the invariant: the block it finds lies
inside the bitmap. -/
theorem allocLog {frames : Pageframe} {pages : ℕ} {live : List Extent} {accessed : List ℕ}
    (initialized : frames.isInitialized = true) (allocated : frames.pageframeBitmap ≠ 0)
    (total : frames.pagesTotalPhys = pagesTotal physMemUpper)
    (searched : 8 < pages → frames.pagesTotalPhys % 8 = 0 ∨ RoomInBitmap frames pages)
    (inside : ∀ block ∈ live, block.start + block.size ≤ pagesTotal physMemUpper / 8 * 8)
    (inBitmap : InBitmap (pagesTotal physMemUpper / 8) accessed) :
    BitmapInvariant physMemUpper ⟨(Mmu.allocLog frames pages).result.2,
      if (Mmu.allocLog frames pages).result.1 = 0 then live
      else ⟨pageFromAddr (Mmu.allocLog frames pages).result.1, pages⟩ :: live, accessed⟩ := by
  have bound := pagesTotal_lt physMemUpper
  cases found : allocPage frames pages with
  | none =>
      rw [allocLog_none found]
      exact ⟨fun _ => ⟨allocated, total⟩, fun before => by simp [initialized] at before,
        inside, inBitmap⟩
  | some start =>
      have ends := allocPage_inside allocated found searched
      rw [total] at ends
      have page : pageFromAddr (pageframeAddrFromPage start) = start := by
        unfold pageFromAddr pageframeAddrFromPage
        omega
      rw [allocLog_some found]
      refine ⟨fun _ => ⟨allocated, total⟩, fun before => ?_, ?_, inBitmap⟩
      · simp [Pageframe.setPages, initialized] at before
      · intro block member
        simp only [page] at member
        split at member
        · exact inside block member
        · rcases List.mem_cons.mp member with rfl | other
          · exact ends
          · exact inside block other

/-- The bytes of a step are inside the bitmap when those accessed so far still are. -/
theorem accessed_append (invariant : BitmapInvariant physMemUpper run) {bytes : List ℕ} :
    InBitmap (pagesTotal physMemUpper / 8) (run.accessed ++ bytes) ↔
      InBitmap (pagesTotal physMemUpper / 8) bytes := by
  rw [InBitmap.append]
  exact ⟨And.right, fun inside => ⟨invariant.accessed, inside⟩⟩

/-- The bytes that the step accesses are inside the bitmap exactly when the guard allows
the step, and then the invariant is kept. -/
def KeptBy (physMemUpper : ℕ) (run : BitmapRun) (action : BitmapAction) (next : BitmapRun) : Prop :=
  (InBitmap (pagesTotal physMemUpper / 8) next.accessed ↔ InBounds physMemUpper run action) ∧
    (InBounds physMemUpper run action → BitmapInvariant physMemUpper next)

theorem alloc (invariant : BitmapInvariant physMemUpper run) {pages : ℕ}
    (stepped : run.step physMemUpper (.alloc pages) = some next) :
    KeptBy physMemUpper run (.alloc pages) next := by
  simp only [BitmapRun.step] at stepped
  split at stepped
  case isFalse => cases stepped
  case isTrue =>
      unfold KeptBy
      simp only [InBounds]
      cases before : run.frames.isInitialized with
      | true =>
          obtain ⟨allocated, total⟩ := invariant.ready before
          have search := @inBitmap_allocLog _ pages allocated
          simp only [pageframeAllocLog, before, if_true, Option.some.injEq] at stepped
          subst stepped
          simp only [invariant.accessed_append, if_true]
          rw [← total, search]
          refine ⟨Iff.rfl, fun searched => ?_⟩
          refine allocLog before allocated total searched invariant.inside ?_
          rw [invariant.accessed_append, ← total]
          exact search.mpr searched
      | false =>
          obtain ⟨-, pointer⟩ := invariant.fresh before
          obtain ⟨bytes, called, inBitmap⟩ :=
            @pageframeAllocLog_first physMemUpper pages _ before pointer
          simp only [called, Option.some.injEq] at stepped
          subst stepped
          simp only [invariant.accessed_append, Bool.false_eq_true, if_false]
          refine ⟨inBitmap, fun inBounds => ?_⟩
          refine allocLog rfl (initialFrames_allocated pointer) rfl ?_ invariant.inside
            (invariant.accessed_append.mpr (inBitmap.mpr inBounds))
          intro many
          rcases inBounds.2 many with whole | room
          · exact .inl whole
          · exact .inr ((roomInBitmap_initialFrames pointer (by omega)).mpr room)

/-- The pages of a live block have bits in the bitmap. -/
theorem free (invariant : BitmapInvariant physMemUpper run) {block : Extent}
    (stepped : run.step physMemUpper (.free block) = some next) :
    KeptBy physMemUpper run (.free block) next := by
  simp only [BitmapRun.step] at stepped
  split at stepped
  case isFalse => cases stepped
  case isTrue live =>
      simp only [Option.some.injEq] at stepped
      subst stepped
      have bound := pagesTotal_lt physMemUpper
      have ends := invariant.inside block live
      have remain : ∀ other ∈ run.live.erase block,
          other.start + other.size ≤ pagesTotal physMemUpper / 8 * 8 :=
        fun other member => invariant.inside other (List.mem_of_mem_erase member)
      have bytes : InBitmap (pagesTotal physMemUpper / 8)
          (run.accessed ++
            (pageframeFreeLog run.frames (block.start * 4096) block.size).bytes) := by
        rw [invariant.accessed_append]
        cases before : run.frames.isInitialized with
        | false =>
            simp only [pageframeFreeLog, before, Bool.false_eq_true, if_false]
            exact nofun
        | true =>
            have page : pageFromAddr (block.start * 4096) = block.start :=
              Nat.mul_div_cancel _ (by decide)
            have turns : (int32 block.size).toNat = block.size := by
              rw [int32_eq (by omega) (by omega), Int.toNat_natCast]
            simp only [pageframeFreeLog, before, if_true, page, turns]
            rw [← List.flatMap_map, inBitmap_flatMap_byteOf (invariant.ready before).1]
            simp only [List.mem_map, List.mem_range]
            rintro pageNo ⟨i, inBlock, rfl⟩
            rw [offset_eq (by omega)]
            omega
      refine ⟨⟨fun _ => trivial, fun _ => bytes⟩, fun _ => ?_⟩
      cases before : run.frames.isInitialized with
      | false =>
          simp only [pageframeFreeLog, pageframeFree_uninitialized before] at bytes ⊢
          exact ⟨invariant.ready, invariant.fresh, remain, bytes⟩
      | true =>
          obtain ⟨allocated, total⟩ := invariant.ready before
          have inTable : block.start + block.size ≤ 2 ^ 20 := by omega
          have same := (pageframeFree_spec before allocated inTable).1
          refine ⟨fun _ => ⟨?_, same.pagesTotalPhys.trans total⟩, fun after => ?_, remain, bytes⟩
          · exact same.pageframeBitmap.trans_ne allocated
          · exact absurd (same.isInitialized.symm.trans after) (by rw [before]; decide)

theorem setPageFromAddr (invariant : BitmapInvariant physMemUpper run) {physAddr pages : ℕ}
    (stepped : run.step physMemUpper (.setPageFromAddr physAddr pages) = some next) :
    KeptBy physMemUpper run (.setPageFromAddr physAddr pages) next := by
  simp only [BitmapRun.step] at stepped
  split at stepped
  case isFalse => cases stepped
  case isTrue =>
      simp only [Option.some.injEq] at stepped
      subst stepped
      have bytes : InBitmap (pagesTotal physMemUpper / 8)
          (run.accessed ++ (pageframeSetPageFromAddrLog run.frames physAddr pages).bytes) ↔
            InBounds physMemUpper run (.setPageFromAddr physAddr pages) := by
        rw [invariant.accessed_append]
        cases before : run.frames.isInitialized with
        | false =>
            -- The bitmap is `NULL`, and the bit operations return at once.
            have null := (invariant.fresh before).1
            have nothing : (pageframeSetPageFromAddrLog run.frames physAddr pages).bytes = [] := by
              simp [pageframeSetPageFromAddrLog, setPagesLog, Pageframe.byteOf, null]
            rw [nothing]
            refine ⟨fun _ initialized => ?_, fun _ => nofun⟩
            rw [before] at initialized
            cases initialized
        | true =>
            obtain ⟨allocated, total⟩ := invariant.ready before
            rw [pageframeSetPageFromAddrLog, inBitmap_setPagesLog allocated]
            exact ⟨fun inside _ => inside, fun inside => inside before⟩
      refine ⟨bytes, fun inBounds => ?_⟩
      exact ⟨invariant.ready, invariant.fresh, invariant.inside, bytes.mpr inBounds⟩

theorem elsewhere (invariant : BitmapInvariant physMemUpper run) {kheap : Kheap}
    (stepped : run.step physMemUpper (.elsewhere kheap) = some next) :
    KeptBy physMemUpper run (.elsewhere kheap) next := by
  simp only [BitmapRun.step] at stepped
  split at stepped
  case isFalse => cases stepped
  case isTrue allowed =>
      simp only [Option.some.injEq] at stepped
      subst stepped
      refine ⟨⟨fun _ => trivial, fun _ => invariant.accessed⟩, fun _ => ?_⟩
      exact ⟨invariant.ready, fun before => ⟨(invariant.fresh before).1, allowed.1⟩,
        invariant.inside, invariant.accessed⟩

theorem step (invariant : BitmapInvariant physMemUpper run) {action : BitmapAction}
    (stepped : run.step physMemUpper action = some next) :
    KeptBy physMemUpper run action next := by
  cases action with
  | alloc pages => exact invariant.alloc stepped
  | free block => exact invariant.free stepped
  | setPageFromAddr physAddr pages => exact invariant.setPageFromAddr stepped
  | elsewhere kheap => exact invariant.elsewhere stepped

end BitmapInvariant

theorem bitmapInvariant_initial {physMemUpper : ℕ} {run : BitmapRun}
    (initial : (bitmapSystem physMemUpper).initial run) : BitmapInvariant physMemUpper run := by
  obtain ⟨kheap, pointer, rfl⟩ := initial
  exact ⟨nofun, fun _ => ⟨rfl, pointer⟩, nofun, nofun⟩

theorem bitmapInvariant_reachable {physMemUpper : ℕ} {run : BitmapRun}
    (reachable : (bitmapSystem physMemUpper).ReachableUnder (InBounds physMemUpper) run) :
    BitmapInvariant physMemUpper run :=
  reachable.invariant (BitmapInvariant physMemUpper)
    (fun _ initial => bitmapInvariant_initial initial)
    (fun invariant inBounds stepped => (invariant.step stepped).2 inBounds)

/-- No access is taken back. -/
theorem accessed_of_step {physMemUpper : ℕ} {run next : BitmapRun} {action : BitmapAction}
    (stepped : run.step physMemUpper action = some next) :
    ∃ bytes, next.accessed = run.accessed ++ bytes := by
  cases action with
  | alloc pages =>
      simp only [BitmapRun.step] at stepped
      split at stepped
      · split at stepped
        · cases stepped
        · rw [← Option.some.inj stepped]
          exact ⟨_, rfl⟩
      · cases stepped
  | free block =>
      simp only [BitmapRun.step] at stepped
      split at stepped
      · rw [← Option.some.inj stepped]
        exact ⟨_, rfl⟩
      · cases stepped
  | setPageFromAddr physAddr pages =>
      simp only [BitmapRun.step] at stepped
      split at stepped
      · rw [← Option.some.inj stepped]
        exact ⟨_, rfl⟩
      · cases stepped
  | elsewhere kheap =>
      simp only [BitmapRun.step] at stepped
      split at stepped
      · rw [← Option.some.inj stepped]
        exact ⟨[], (List.append_nil _).symm⟩
      · cases stepped

/-- **Bitmap bounds.** For every size of the memory and in every state of every run, all
the bytes of the bitmap that were accessed so far are among its `total / 8` bytes exactly
when the state is reached by calls that stay in bounds: no first call on a machine of
fewer than 2048 pages, no search for more than eight pages that reads up to a total that
is no multiple of eight, and no reservation of a page past the bitmap. -/
theorem bitmap_in_bounds {physMemUpper : ℕ} {run : BitmapRun}
    (reachable : (bitmapSystem physMemUpper).Reachable run) :
    (∀ byte ∈ run.accessed, byte < pagesTotal physMemUpper / 8) ↔
      (bitmapSystem physMemUpper).ReachableUnder (InBounds physMemUpper) run := by
  constructor
  · intro inBitmap
    induction reachable with
    | start initial => exact .start initial
    | step _ _ stepped ih =>
        obtain ⟨bytes, accessed⟩ := accessed_of_step stepped
        rw [accessed, List.forall_mem_append] at inBitmap
        have before := ih inBitmap.1
        have kept := (bitmapInvariant_reachable before).step stepped
        refine .step before (kept.1.mp ?_) stepped
        rw [accessed]
        exact InBitmap.append.mpr inBitmap
  · intro inBounds
    exact (bitmapInvariant_reachable inBounds).accessed

/-- The state after the first call, on a kernel with its heap at 1 MiB. -/
theorem exists_first_call (physMemUpper : ℕ) : ∃ run next,
    (bitmapSystem physMemUpper).initial run ∧ run.frames.isInitialized = false ∧
      (bitmapSystem physMemUpper).step run (.alloc 9) = some next ∧
      next.frames.isInitialized = true ∧ next.frames.pageframeBitmap ≠ 0 := by
  let kheap : Kheap := ⟨fun _ => 0#8, 0x100000⟩
  let frames : Pageframe := ⟨kheap, false, 0, 0⟩
  have pointer : HeapPointer kheap := by decide
  obtain ⟨bytes, called, -⟩ := @pageframeAllocLog_first physMemUpper 9 frames rfl pointer
  have result := @allocLog_result (initialFrames physMemUpper kheap) 9 physMemUpper rfl
  have same := pageframeAlloc_same rfl result.symm
  have stepped : (BitmapRun.step physMemUpper ⟨frames, [], []⟩ (.alloc 9)).isSome := by
    simp only [BitmapRun.step, called]
    rfl
  obtain ⟨next, stepped⟩ := Option.isSome_iff_exists.mp stepped
  refine ⟨⟨frames, [], []⟩, next, ⟨kheap, pointer, rfl⟩, rfl, stepped, ?_⟩
  simp only [BitmapRun.step, called] at stepped
  rw [if_pos (by decide)] at stepped
  rw [← Option.some.inj stepped]
  refine ⟨same.isInitialized, ?_⟩
  rw [same.pageframeBitmap]
  exact initialFrames_allocated pointer

/-- On a machine with 16 MiB above the first, nine pages are found inside the bitmap. -/
theorem bitmap_in_bounds_first_call : ∃ run, (bitmapSystem 16384).Reachable run ∧
    run.frames.isInitialized = true ∧ ∀ byte ∈ run.accessed, byte < 512 := by
  obtain ⟨run, next, initial, before, stepped, initialized, -⟩ := exists_first_call 16384
  have inBounds : InBounds 16384 run (.alloc 9) := by
    simp only [InBounds, before, Bool.false_eq_true, if_false]
    decide
  have reachable : (bitmapSystem 16384).Reachable next := .step (.start initial) trivial stepped
  exact ⟨next, reachable, initialized,
    (bitmap_in_bounds reachable).mpr (.step (.start initial) inBounds stepped)⟩

/-- On the same machine, reserving the page of the local APIC at its usual address sets a
bit of a byte far behind the 512 bytes of the bitmap. -/
theorem bitmap_out_of_bounds_lapic : ¬∀ physMemUpper run,
    (bitmapSystem physMemUpper).Reachable run →
      ∀ byte ∈ run.accessed, byte < pagesTotal physMemUpper / 8 := by
  intro inBitmap
  obtain ⟨run, next, initial, -, stepped, -, allocated⟩ := exists_first_call 16384
  have reserved : (bitmapSystem 16384).step next (.setPageFromAddr 0xFEE00000 1) = some
      ⟨_, next.live, next.accessed ++ (setPagesLog next.frames 0xFEE00 1).bytes⟩ := rfl
  have reachable : (bitmapSystem 16384).Reachable _ :=
    .step (.step (.start initial) trivial stepped) trivial reserved
  have bytes := inBitmap 16384 _ reachable
  rw [List.forall_mem_append] at bytes
  have inside := (inBitmap_setPagesLog allocated).mp bytes.2
  revert inside
  decide

end CatchOS.Mmu
