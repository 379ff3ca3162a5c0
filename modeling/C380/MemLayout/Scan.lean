import Mathlib.Data.BitVec
import C380.Lib.RunScan

/-!
# The memory layout scan (`Assignment01/memlayout.c`)

`get_mem_layout` probes the first byte of every page of the 32-bit address space and writes a
`struct memregion` whenever the access mode changes. Addresses, `size` and the index are
`unsigned int`, so `curr_add` wraps to 0 after the last page; `is_first_loop` is what stops it.

* `probe` is the test with the two `sigsetjmp` calls: a fault goes back to the latest one.
* `scanLoop` is the `for` loop, with a bound on its iterations; `none` is a loop that went on.
* `ScanOk`: after `n` pages the loop holds what the scan of `Lib/RunScan.lean` holds, as far as
  the buffer reaches.
* `getMemLayout_partition`: **the entries are the runs of the scan**, an ordered partition of the
  pages they cover, and every page is classified once.
-/

namespace C380.MemLayout

open RunScan

/-- `unsigned int`, and a 32-bit address. -/
abbrev UInt := BitVec 32

/-- `MEM_RW`, `MEM_RO` and `MEM_NO`. -/
inductive Mode where
  | memRW
  | memRO
  | memNO
  deriving DecidableEq, Repr

/-- `PAGE_SIZE`. -/
abbrev pageSize : UInt := 4096

/-- The number of pages of the address space. -/
abbrev pageCount : ℕ := 1048576

/-- `REGION_END`. -/
abbrev regionEnd : UInt := 0xffffffff

/-- `struct memregion`. -/
structure MemRegion where
  from_ : UInt
  to_ : UInt
  mode : Mode
  deriving DecidableEq, Repr

/-- The page of an address. -/
def pageOf (address : UInt) : Fin pageCount :=
  ⟨address.toNat / 4096, by have := address.isLt; unfold pageCount; omega⟩

/-- The first address of a page. -/
def pageAddress (page : ℕ) : UInt := BitVec.ofNat 32 (4096 * page)

/-- Reading a byte of a page does not fault. -/
def Mode.readable : Mode → Bool
  | .memNO => false
  | _ => true

/-- Writing a byte of a page does not fault. -/
def Mode.writable : Mode → Bool
  | .memRW => true
  | _ => false

/-- The test of one page: `check_val` is `MEM_NO` before the read, `MEM_RO` before the write and
`MEM_RW` after it, and a fault leaves it as it is. -/
def probe (page : Mode) : Mode :=
  if page.readable then
    if page.writable then .memRW else .memRO
  else .memNO

/-- The variables of the loop, the buffer `regions`, and the addresses tested so far with the
`check_val` of each test. -/
structure Scan where
  regions : ℕ → MemRegion
  currIndex : UInt
  regionFrom : UInt
  currRegionMode : Mode
  isFirstLoop : Bool
  classified : List (UInt × Mode)

/-- The body of the loop after the stop at wrap-around. -/
def scanPage (mode : Fin pageCount → Mode) (size currAdd : UInt) (s : Scan) : Scan :=
  let checkVal := probe (mode (pageOf currAdd))
  let s := { s with classified := s.classified ++ [(currAdd, checkVal)] }
  if checkVal ≠ s.currRegionMode then
    let s :=
      if s.currIndex < size then
        { s with
          regions := Function.update s.regions s.currIndex.toNat
            ⟨s.regionFrom, currAdd, s.currRegionMode⟩
          currIndex := s.currIndex + 1 }
      else s
    { s with regionFrom := currAdd, currRegionMode := checkVal }
  else s

/-- The `for` loop from `curr_add` on, at most `fuel` tests of its condition. -/
def scanLoop (mode : Fin pageCount → Mode) (size : UInt) : ℕ → UInt → Scan → Option Scan
  | 0, _, _ => none
  | fuel + 1, currAdd, s =>
    if currAdd < regionEnd then
      if currAdd < pageSize then
        if s.isFirstLoop then
          scanLoop mode size fuel (currAdd + pageSize)
            (scanPage mode size currAdd { s with isFirstLoop := false })
        else some s
      else
        scanLoop mode size fuel (currAdd + pageSize) (scanPage mode size currAdd s)
    else some s

/-- What a call leaves: the buffer, the value returned, and the addresses it tested with the modes
it found. -/
structure Layout where
  regions : ℕ → MemRegion
  count : ℤ
  classified : List (UInt × Mode)

/-- `get_mem_layout`, with the buffer `regions` of `size` entries. -/
def getMemLayout (fuel : ℕ) (mode : Fin pageCount → Mode) (regions : ℕ → MemRegion)
    (size : UInt) : Option Layout := do
  let s ← scanLoop mode size fuel 0 ⟨regions, 0, 0, .memNO, true, []⟩
  let regions :=
    if s.currIndex < size then
      Function.update s.regions s.currIndex.toNat ⟨s.regionFrom, regionEnd, s.currRegionMode⟩
    else s.regions
  some ⟨regions, (s.currIndex + 1).toInt, s.classified⟩

theorem probe_eq (page : Mode) : probe page = page := by cases page <;> rfl

/-! ## The loop against the abstract scan -/

/-- The modes of the pages as a sequence. -/
def modeAt (mode : Fin pageCount → Mode) (page : ℕ) : Mode :=
  if h : page < pageCount then mode ⟨page, h⟩ else .memNO

/-- The abstract scan of the first `n` pages. -/
abbrev pageScan (mode : Fin pageCount → Mode) (n : ℕ) : Progress Mode :=
  scan .memNO (modeAt mode) n

/-- The entry that the loop writes for a closed run. -/
def entry (r : Run Mode) : MemRegion := ⟨pageAddress r.start, pageAddress r.stop, r.mode⟩

/-- After the first `n` pages the loop holds the open run, the closed runs as far as the buffer
reaches, and their number, at most `size`. -/
structure ScanOk (mode : Fin pageCount → Mode) (size : UInt) (buffer : ℕ → MemRegion) (n : ℕ)
    (s : Scan) : Prop where
  index : s.currIndex.toNat = min (pageScan mode n).closed.length size.toNat
  regionFrom : s.regionFrom = pageAddress (pageScan mode n).start
  currMode : s.currRegionMode = (pageScan mode n).mode
  first : s.isFirstLoop = decide (n = 0)
  written : ∀ i, i < s.currIndex.toNat →
    ∃ h : i < (pageScan mode n).closed.length, s.regions i = entry (pageScan mode n).closed[i]
  kept : ∀ i, s.currIndex.toNat ≤ i → s.regions i = buffer i
  classified : s.classified = (List.range n).map fun page => (pageAddress page, modeAt mode page)

section Loop

variable {mode : Fin pageCount → Mode} {size : UInt} {buffer : ℕ → MemRegion} {n : ℕ} {s : Scan}

theorem pageAddress_toNat (h : n < pageCount) : (pageAddress n).toNat = 4096 * n := by
  unfold pageCount at h
  unfold pageAddress
  rw [BitVec.toNat_ofNat]
  omega

theorem pageAddress_succ (n : ℕ) : pageAddress n + pageSize = pageAddress (n + 1) := by
  have hsize : pageSize.toNat = 4096 := rfl
  apply BitVec.eq_of_toNat_eq
  simp only [pageAddress, BitVec.toNat_add, BitVec.toNat_ofNat, hsize]
  omega

theorem pageOf_pageAddress (h : n < pageCount) : pageOf (pageAddress n) = ⟨n, h⟩ := by
  apply Fin.ext
  simp only [pageOf]
  rw [pageAddress_toNat h]
  omega

/-- The number of closed runs fits in an index. -/
theorem length_pageScan_le (mode : Fin pageCount → Mode) (n : ℕ) :
    (pageScan mode n).closed.length ≤ n := by
  rw [length_scan]
  exact (Finset.card_filter_le _ _).trans_eq (Finset.card_range n)

/-- The test of the next page is recorded. -/
theorem ScanOk.classified_succ (h : ScanOk mode size buffer n s) :
    s.classified ++ [(pageAddress n, modeAt mode n)] =
      (List.range (n + 1)).map fun page => (pageAddress page, modeAt mode page) := by
  rw [List.range_succ, List.map_append, h.classified]
  rfl

/-- The change branch of the body: the entry of the run that ends is written where there is
room. -/
theorem ScanOk.change (h : ScanOk mode size buffer n s)
    (hne : modeAt mode n ≠ (pageScan mode n).mode) :
    ScanOk mode size buffer (n + 1)
      { s with
        regions := if s.currIndex < size then Function.update s.regions s.currIndex.toNat
          ⟨s.regionFrom, pageAddress n, s.currRegionMode⟩ else s.regions
        currIndex := if s.currIndex < size then s.currIndex + 1 else s.currIndex
        regionFrom := pageAddress n
        currRegionMode := modeAt mode n
        isFirstLoop := false
        classified := s.classified ++ [(pageAddress n, modeAt mode n)] } := by
  have hindex := h.index
  have hlen := length_pageScan_le mode n
  have hsize := size.isLt
  have hscan : pageScan mode (n + 1) = ⟨(pageScan mode n).closed ++
      [⟨(pageScan mode n).start, n, (pageScan mode n).mode⟩], n, modeAt mode n⟩ :=
    scan_change hne
  have hclassified := h.classified_succ
  by_cases hlt : s.currIndex < size
  · have hlt' : s.currIndex.toNat < size.toNat := hlt
    have hL : s.currIndex.toNat = (pageScan mode n).closed.length := by omega
    have hsucc : (s.currIndex + 1).toNat = s.currIndex.toNat + 1 := by bv_omega
    simp only [if_pos hlt]
    refine ⟨?_, by rw [hscan], by rw [hscan], by simp, fun i hi => ?_, fun i hi => ?_, hclassified⟩
    · rw [hsucc, hscan, List.length_append, List.length_singleton]
      omega
    · simp only [hsucc] at hi
      simp only [hscan]
      rcases Nat.lt_succ_iff_lt_or_eq.mp hi with hi | rfl
      · obtain ⟨hi', hw⟩ := h.written i hi
        refine ⟨by simp; omega, ?_⟩
        rw [Function.update_of_ne (by omega), hw, List.getElem_append_left hi']
      · refine ⟨by simp; omega, ?_⟩
        rw [Function.update_self, List.getElem_append_right hL.ge, h.regionFrom, h.currMode]
        simp [hL, entry]
    · simp only [hsucc] at hi ⊢
      rw [Function.update_of_ne (by omega)]
      exact h.kept i (by omega)
  · have hge : size.toNat ≤ s.currIndex.toNat := Nat.not_lt.mp hlt
    simp only [if_neg hlt]
    refine ⟨?_, by rw [hscan], by rw [hscan], by simp, fun i hi => ?_, h.kept, hclassified⟩
    · simp only [hscan, List.length_append, List.length_singleton]
      omega
    · obtain ⟨hi', hw⟩ := h.written i hi
      simp only [hscan]
      refine ⟨by simp; omega, ?_⟩
      rw [hw, List.getElem_append_left hi']

/-- **The body of the loop** makes one step of the abstract scan. -/
theorem ScanOk.page (h : ScanOk mode size buffer n s) (hn : n < pageCount) :
    ScanOk mode size buffer (n + 1)
      (scanPage mode size (pageAddress n) { s with isFirstLoop := false }) := by
  have hmode : probe (mode (pageOf (pageAddress n))) = modeAt mode n := by
    rw [probe_eq, pageOf_pageAddress hn, modeAt, dif_pos hn]
  simp only [scanPage, hmode]
  by_cases hne : modeAt mode n = (pageScan mode n).mode
  · have hscan : pageScan mode (n + 1) = pageScan mode n := scan_same hne
    rw [if_neg (not_not.mpr (hne.trans h.currMode.symm))]
    refine ⟨?_, ?_, ?_, by simp, ?_, h.kept, ?_⟩
    · rw [hscan]
      exact h.index
    · rw [hscan]
      exact h.regionFrom
    · rw [hscan]
      exact h.currMode
    · rw [hscan]
      exact h.written
    · exact h.classified_succ
  · rw [if_pos fun he => hne (he.trans h.currMode)]
    have hchange := h.change hne
    by_cases hlt : s.currIndex < size
    · simp only [if_pos hlt] at hchange ⊢
      exact hchange
    · simp only [if_neg hlt] at hchange ⊢
      exact hchange

/-- The test at the head of the loop lets every page through. -/
theorem scanLoop_page (fuel : ℕ) (h : ScanOk mode size buffer n s) (hn : n < pageCount) :
    scanLoop mode size (fuel + 1) (pageAddress n) s =
      scanLoop mode size fuel (pageAddress (n + 1))
        (scanPage mode size (pageAddress n) { s with isFirstLoop := false }) := by
  have haddr := pageAddress_toNat hn
  unfold pageCount at hn
  have hend : pageAddress n < regionEnd := by
    rw [BitVec.lt_def, haddr]
    show 4096 * n < 4294967295
    omega
  rw [scanLoop, if_pos hend, pageAddress_succ]
  by_cases h0 : n = 0
  · have hwrap : pageAddress n < pageSize := by
      rw [BitVec.lt_def, haddr]
      show 4096 * n < 4096
      omega
    have hfirst : s.isFirstLoop = true := by rw [h.first, decide_eq_true h0]
    rw [if_pos hwrap, if_pos hfirst]
  · have hwrap : ¬ pageAddress n < pageSize := by
      rw [BitVec.lt_def, haddr]
      show ¬ 4096 * n < 4096
      omega
    have hfirst : s = { s with isFirstLoop := false } := by
      rw [← decide_eq_false h0, ← h.first]
    rw [if_neg hwrap, ← hfirst]

/-- At wrap-around the loop stops. -/
theorem scanLoop_wrap (fuel : ℕ) (h : ScanOk mode size buffer pageCount s) :
    scanLoop mode size (fuel + 1) (pageAddress pageCount) s = some s := by
  have hfirst : s.isFirstLoop = false := by
    rw [h.first]
    exact decide_eq_false (by unfold pageCount; omega)
  have haddr : pageAddress pageCount = 0 := rfl
  have hend : (0 : UInt) < regionEnd := by decide
  have hwrap : (0 : UInt) < pageSize := by decide
  rw [scanLoop, haddr, if_pos hend, if_pos hwrap, hfirst]
  rfl

/-- **The loop ends** after every page was probed once. -/
theorem scanLoop_ok : ∀ (fuel n : ℕ) (s : Scan), ScanOk mode size buffer n s → n ≤ pageCount →
    pageCount < fuel + n → ∃ s', scanLoop mode size fuel (pageAddress n) s = some s' ∧
      ScanOk mode size buffer pageCount s'
  | 0, n, s, _, hn, hfuel => by omega
  | fuel + 1, n, s, h, hn, hfuel => by
    rcases Nat.lt_or_eq_of_le hn with hlt | rfl
    · rw [scanLoop_page fuel h hlt]
      exact scanLoop_ok fuel (n + 1) _ (h.page hlt) hlt (by omega)
    · exact ⟨s, scanLoop_wrap fuel h, h⟩

theorem scanOk_init (mode : Fin pageCount → Mode) (size : UInt) (buffer : ℕ → MemRegion) :
    ScanOk mode size buffer 0 ⟨buffer, 0, 0, .memNO, true, []⟩ :=
  ⟨by simp [pageScan, scan_zero], by simp only [pageScan, scan_zero]; rfl,
    by simp only [pageScan, scan_zero], rfl, fun i hi => absurd hi (Nat.not_lt_zero i),
    fun _ _ => rfl, rfl⟩

end Loop

/-! ## The result -/

/-- All runs of the scan: the closed ones and the one that is open at the end. -/
def layoutRuns (mode : Fin pageCount → Mode) : List (Run Mode) :=
  (pageScan mode pageCount).closed ++
    [⟨(pageScan mode pageCount).start, pageCount, (pageScan mode pageCount).mode⟩]

/-- The entry of a run: the last run goes up to `REGION_END`. -/
def runEntry (r : Run Mode) : MemRegion :=
  ⟨pageAddress r.start, if r.stop < pageCount then pageAddress r.stop else regionEnd, r.mode⟩

theorem length_layoutRuns (mode : Fin pageCount → Mode) :
    (layoutRuns mode).length = (changes .memNO (modeAt mode) pageCount).card + 1 := by
  unfold layoutRuns
  rw [List.length_append, length_scan]
  rfl

section Result

variable (mode : Fin pageCount → Mode) (buffer : ℕ → MemRegion) (size : UInt)

/-- **What `get_mem_layout` returns**: the buffer holds the entries of the runs as far as it
reaches, and the value returned is the number of runs, or one more than `size`. -/
theorem getMemLayout_eq {fuel : ℕ} (hfuel : pageCount < fuel) :
    ∃ r, getMemLayout fuel mode buffer size = some r ∧
      r.count = min ((layoutRuns mode).length - 1) size.toNat + 1 ∧
      (r.classified = (List.range pageCount).map fun page =>
        (pageAddress page, modeAt mode page)) ∧
      (∀ i, i < min (layoutRuns mode).length size.toNat →
        ∃ h : i < (layoutRuns mode).length, r.regions i = runEntry (layoutRuns mode)[i]) ∧
      ∀ i, min (layoutRuns mode).length size.toNat ≤ i → r.regions i = buffer i := by
  obtain ⟨s, hloop, h⟩ := scanLoop_ok fuel 0 _ (scanOk_init mode size buffer) (Nat.zero_le _) hfuel
  have hlen := length_pageScan_le mode pageCount
  have hindex := h.index
  set L := (pageScan mode pageCount).closed.length with hL
  have hruns : (layoutRuns mode).length = L + 1 := by
    unfold layoutRuns
    rw [List.length_append, ← hL]
    rfl
  unfold pageCount at hlen
  have hcount : (s.currIndex + 1).toInt = min L size.toNat + 1 := by
    have hnat : (s.currIndex + 1).toNat = min L size.toNat + 1 := by bv_omega
    rw [BitVec.toInt_eq_toNat_of_lt (by omega), hnat]
    omega
  have hclosed : ∀ i, i < s.currIndex.toNat →
      ∃ hi : i < (layoutRuns mode).length, s.regions i = runEntry (layoutRuns mode)[i] := by
    intro i hi
    obtain ⟨hi', hw⟩ := h.written i hi
    refine ⟨by omega, ?_⟩
    have hstop : (pageScan mode pageCount).closed[i].stop < pageCount :=
      (scan_closed pageCount _ (List.getElem_mem hi')).2.1
    simp only [layoutRuns]
    rw [hw, List.getElem_append_left hi', runEntry, if_pos hstop, entry]
  have hloop : scanLoop mode size fuel 0 ⟨buffer, 0, 0, .memNO, true, []⟩ = some s := hloop
  refine ⟨_, by rw [getMemLayout, hloop]; rfl, ?_, h.classified,
    fun i hi => ?_, fun i hi => ?_⟩
  · simp only [hcount, hruns]
    omega
  · rw [hruns] at hi
    by_cases hlt : s.currIndex < size
    · have hlt' : s.currIndex.toNat < size.toNat := hlt
      simp only [if_pos hlt]
      rcases Nat.lt_or_ge i s.currIndex.toNat with hi' | hi'
      · rw [Function.update_of_ne (by omega)]
        exact hclosed i hi'
      · obtain rfl : i = s.currIndex.toNat := by omega
        refine ⟨by omega, ?_⟩
        have hiL : s.currIndex.toNat = L := by omega
        simp only [layoutRuns]
        rw [Function.update_self, List.getElem_append_right (by omega), h.regionFrom, h.currMode]
        simp [runEntry]
    · have hge : size.toNat ≤ s.currIndex.toNat := Nat.not_lt.mp hlt
      simp only [if_neg hlt]
      exact hclosed i (by omega)
  · rw [hruns] at hi
    by_cases hlt : s.currIndex < size
    · have hlt' : s.currIndex.toNat < size.toNat := hlt
      simp only [if_pos hlt]
      rw [Function.update_of_ne (by omega)]
      exact h.kept i (by omega)
    · have hge : size.toNat ≤ s.currIndex.toNat := Nat.not_lt.mp hlt
      simp only [if_neg hlt]
      exact h.kept i (by omega)

/-- Every page is tested once, in order, and gets its mode. -/
theorem map_classified_pages :
    (((List.range pageCount).map fun page => (pageAddress page, modeAt mode page)).map fun c =>
      (pageOf c.1, c.2)) = (List.finRange pageCount).map fun p => (p, mode p) := by
  rw [← List.map_coe_finRange_eq_range, List.map_map, List.map_map]
  refine List.map_congr_left fun p _ => ?_
  simp only [Function.comp_apply]
  rw [pageOf_pageAddress p.isLt, modeAt, dif_pos p.isLt]

/-- Every run of the layout begins at a page, and has its mode at its pages. -/
theorem layoutRuns_mem {r : Run Mode} (hr : r ∈ layoutRuns mode) :
    r.start < pageCount ∧ r.stop ≤ pageCount ∧
      ∀ j, r.start ≤ j → j < r.stop → modeAt mode j = r.mode := by
  rcases List.mem_append.mp hr with hr | hr
  · obtain ⟨hle, hlt, hmode⟩ := scan_closed pageCount r hr
    exact ⟨hle.trans_lt hlt, hlt.le, hmode⟩
  · obtain rfl := List.mem_singleton.mp hr
    obtain ⟨-, hmode⟩ := @scan_open Mode _ .memNO (modeAt mode) pageCount
    exact ⟨Nat.lt_succ_of_le (scan_start_le 1048575), le_rfl, hmode⟩

/-- Only the first run can be empty. -/
theorem layoutRuns_nonempty {i : ℕ} (hi : i < (layoutRuns mode).length) (h0 : 0 < i) :
    (layoutRuns mode)[i].start < (layoutRuns mode)[i].stop := by
  rcases Nat.lt_or_ge i (pageScan mode pageCount).closed.length with hlt | hge
  · simp only [layoutRuns]
    rw [List.getElem_append_left hlt]
    exact scan_nonempty pageCount i hlt h0
  · have hbegin := (layoutRuns_mem mode (List.getElem_mem hi)).1
    have hstop : (layoutRuns mode)[i].stop = pageCount := by
      simp only [layoutRuns]
      rw [List.getElem_append_right hge, List.getElem_singleton]
    rwa [hstop]

/-- Neighbouring entries meet. -/
theorem layoutRuns_meets {i : ℕ} (hi : i + 1 < (layoutRuns mode).length) :
    (runEntry (layoutRuns mode)[i]).to_ = (runEntry (layoutRuns mode)[i + 1]).from_ ∧
      (runEntry (layoutRuns mode)[i]).mode ≠ (runEntry (layoutRuns mode)[i + 1]).mode := by
  obtain ⟨hchain, -⟩ := @scan_linked Mode _ .memNO (modeAt mode) pageCount pageCount
  obtain ⟨hmeet, hne⟩ := List.isChain_iff_getElem.mp hchain i hi
  have hi' : i < (pageScan mode pageCount).closed.length := by
    unfold layoutRuns at hi
    rw [List.length_append, List.length_singleton] at hi
    omega
  have hstop : (layoutRuns mode)[i].stop < pageCount := by
    simp only [layoutRuns]
    rw [List.getElem_append_left hi']
    exact (scan_closed pageCount _ (List.getElem_mem hi')).2.1
  refine ⟨?_, hne⟩
  unfold runEntry
  rw [if_pos hstop]
  exact congrArg pageAddress hmeet

/-- The entry of a run that is not empty is not empty. -/
theorem runEntry_lt {r : Run Mode} (hr : r ∈ layoutRuns mode) (hlt : r.start < r.stop) :
    (runEntry r).from_ < (runEntry r).to_ := by
  obtain ⟨hbegin, -, -⟩ := layoutRuns_mem mode hr
  rw [BitVec.lt_def, runEntry, pageAddress_toNat hbegin]
  show _ < (if r.stop < pageCount then pageAddress r.stop else regionEnd).toNat
  split
  · next hstop =>
    rw [pageAddress_toNat hstop]
    omega
  · have hend : regionEnd.toNat = 4294967295 := rfl
    rw [hend]
    unfold pageCount at hbegin
    omega

/-- The pages whose address lies in an entry have its mode. -/
theorem runEntry_mode {r : Run Mode} (hr : r ∈ layoutRuns mode) {p : Fin pageCount}
    (hfrom : (runEntry r).from_ ≤ pageAddress p) (hto : pageAddress p < (runEntry r).to_) :
    mode p = (runEntry r).mode := by
  obtain ⟨hbegin, hstop, hmode⟩ := layoutRuns_mem mode hr
  have hp := p.isLt
  have haddr := pageAddress_toNat hp
  have hstart : r.start ≤ p := by
    have hfrom' : (pageAddress r.start).toNat ≤ (pageAddress p).toNat := hfrom
    rw [pageAddress_toNat hbegin, haddr] at hfrom'
    omega
  have hlt : p < r.stop := by
    rcases Nat.lt_or_eq_of_le hstop with hlt | heq
    · simp only [runEntry, if_pos hlt] at hto
      have hto' : (pageAddress p).toNat < (pageAddress r.stop).toNat := hto
      rw [pageAddress_toNat hlt, haddr] at hto'
      omega
    · rw [heq]
      exact hp
  have hat : modeAt mode p = mode p := by rw [modeAt, dif_pos hp]
  rw [← hat]
  exact hmode p hstart hlt

/-- **The entries are an ordered partition.** The call ends, having tested every page once, with
the mode of the page as the result. The value returned is one more than the number of pages that
differ from the page before, as far as the buffer reaches. Of the `n` entries it fills, each is
that of a run of the layout; the first begins at 0, the others are not empty, each ends where the
next one begins, neighbours differ in mode, and a page whose address lies in an entry has its mode.
Nothing is written at `size` or after it, and when the buffer was large enough the last entry ends
at the end of the address space. -/
theorem getMemLayout_partition (fuel : ℕ) (hfuel : pageCount < fuel) :
    ∃ r, getMemLayout fuel mode buffer size = some r ∧
      ((r.classified.map fun c => (pageOf c.1, c.2)) =
        (List.finRange pageCount).map fun p => (p, mode p)) ∧
      r.count = min (changes .memNO (modeAt mode) pageCount).card size.toNat + 1 ∧
      (∀ i, size.toNat ≤ i → r.regions i = buffer i) ∧
      ∀ n, n = min r.count.toNat size.toNat →
        (∀ i, i < n → ∃ h : i < (layoutRuns mode).length,
          r.regions i = runEntry (layoutRuns mode)[i]) ∧
        (0 < n → (r.regions 0).from_ = 0) ∧
        (∀ i, 0 < i → i < n → (r.regions i).from_ < (r.regions i).to_) ∧
        (∀ i, i + 1 < n → (r.regions i).to_ = (r.regions (i + 1)).from_ ∧
          (r.regions i).mode ≠ (r.regions (i + 1)).mode) ∧
        (∀ i, i < n → ∀ p : Fin pageCount, (r.regions i).from_ ≤ pageAddress p →
          pageAddress p < (r.regions i).to_ → mode p = (r.regions i).mode) ∧
        (r.count ≤ size.toNat → (r.regions (n - 1)).to_ = regionEnd) := by
  obtain ⟨r, hr, hcount, hclassified, hfilled, hkept⟩ := getMemLayout_eq mode buffer size hfuel
  have hlen := length_layoutRuns mode
  refine ⟨r, hr, by rw [hclassified, map_classified_pages], by omega,
    fun i hi => hkept i (by omega), ?_⟩
  rintro n rfl
  have hn : min r.count.toNat size.toNat = min (layoutRuns mode).length size.toNat := by omega
  rw [hn]
  refine ⟨hfilled, fun h0 => ?_, fun i h0 hi => ?_, fun i hi => ?_, fun i hi p hfrom hto => ?_,
    fun hle => ?_⟩
  · obtain ⟨h, hentry⟩ := hfilled 0 h0
    rw [hentry, runEntry]
    obtain ⟨-, hhead⟩ := @scan_linked Mode _ .memNO (modeAt mode) pageCount pageCount
    have hzero : (layoutRuns mode)[0].start = 0 := hhead _ (List.head?_eq_getElem? ▸
      List.getElem?_eq_getElem h)
    simp only [hzero]
    rfl
  · obtain ⟨h, hentry⟩ := hfilled i hi
    rw [hentry]
    exact runEntry_lt mode (List.getElem_mem h) (layoutRuns_nonempty mode h h0)
  · obtain ⟨h, hentry⟩ := hfilled i (by omega)
    obtain ⟨h', hentry'⟩ := hfilled (i + 1) hi
    rw [hentry, hentry']
    exact layoutRuns_meets mode h'
  · obtain ⟨h, hentry⟩ := hfilled i hi
    rw [hentry] at hfrom hto ⊢
    exact runEntry_mode mode (List.getElem_mem h) hfrom hto
  · have hlast : min (layoutRuns mode).length size.toNat - 1 = (layoutRuns mode).length - 1 := by
      omega
    rw [hlast]
    obtain ⟨h, hentry⟩ := hfilled ((layoutRuns mode).length - 1) (by omega)
    rw [hentry]
    have hopen : (layoutRuns mode)[(layoutRuns mode).length - 1].stop = pageCount := by
      simp [layoutRuns]
    rw [runEntry, if_neg (by rw [hopen]; exact Nat.lt_irrefl _)]

end Result

/-- Three regions, the middle one a single writable page. -/
def islandMode : Fin pageCount → Mode := fun p => if p = 5 then .memRW else .memNO

/-- The island begins and ends a region. -/
theorem changes_island : changes .memNO (modeAt islandMode) pageCount = {5, 6} := by
  have hat : ∀ j, modeAt islandMode j = if j = 5 then .memRW else .memNO := by
    intro j
    have h5 : ((5 : Fin pageCount) : ℕ) = 5 := rfl
    unfold modeAt
    split
    · simp only [islandMode, Fin.ext_iff, h5]
    · rw [if_neg]
      unfold pageCount at *
      omega
  have hlt : 6 < pageCount := by
    unfold pageCount
    omega
  ext j
  simp only [changes, Finset.mem_filter, Finset.mem_range, Finset.mem_insert,
    Finset.mem_singleton]
  cases j with
  | zero => simp [hat]
  | succ j =>
    simp only [before_succ, hat]
    by_cases h5 : j = 5
    · simp only [h5, hlt]
      decide
    · by_cases h4 : j = 4
      · simp only [h4, Nat.lt_of_succ_lt hlt]
        decide
      · have h4' : j + 1 ≠ 5 := by omega
        simp only [if_neg h5, if_neg h4', ne_eq, not_true_eq_false, and_false, false_iff]
        omega

/-- The island and a buffer of two entries: there is no room for the run after the island. -/
theorem getMemLayout_partition_two :
    ∃ r, getMemLayout 1048577 islandMode (fun _ => ⟨0, 0, .memRO⟩) 2 = some r ∧
      ((r.classified.map fun c => (pageOf c.1, c.2)) =
        (List.finRange pageCount).map fun p => (p, islandMode p)) ∧
      r.count = 3 ∧ (r.regions 0).from_ = 0 ∧ (r.regions 0).to_ = (r.regions 1).from_ ∧
      (r.regions 0).mode ≠ (r.regions 1).mode ∧ (r.regions 1).from_ < (r.regions 1).to_ ∧
      r.regions 2 = ⟨0, 0, .memRO⟩ := by
  obtain ⟨r, hr, hclassified, hcount, hkept, hfilled⟩ := getMemLayout_partition islandMode
    (fun _ => ⟨0, 0, .memRO⟩) 2 1048577 (Nat.lt_succ_self _)
  rw [changes_island] at hcount
  have hcount : r.count = 3 := hcount
  obtain ⟨-, hfirst, hnonempty, hmeet, -⟩ := hfilled 2 (by rw [hcount]; rfl)
  exact ⟨r, hr, hclassified, hcount, hfirst (by omega), (hmeet 0 (by omega)).1,
    (hmeet 0 (by omega)).2, hnonempty 1 (by omega) (by omega), hkept 2 le_rfl⟩

end C380.MemLayout
