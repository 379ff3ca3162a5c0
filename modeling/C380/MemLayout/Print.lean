import C380.Lib.Fields
import C380.MemLayout.Count

/-!
# What the drivers print (`Assignment01/memlayout.c`, `mem_1.c`, `mem_2.c`, `mem_3.c`)

A driver scans the address space, does something, scans it again and prints both lists, which are
then compared by eye.

* `printMemLayout_eq`: `print_mem_layout` prints the entries that `get_mem_layout` has written and
  no others, although it is told a number that may be one more than the buffer has.
* `driver_eq_iff`: **the output tells both address spaces page by page**, when both numbers printed
  are at most the size of the buffers.
-/

namespace C380.MemLayout

open Fields RunScan

/-! ## The text -/

/-- The value of `MEM_RW`, `MEM_RO` and `MEM_NO`. -/
def Mode.value : Mode → UInt8
  | .memRW => 0
  | .memRO => 1
  | .memNO => 2

/-- `mode_to_string`. -/
def modeToString (mode : UInt8) : List Char :=
  if mode = 0 then "RW".toList
  else if mode = 1 then "RO".toList
  else if mode = 2 then "NO".toList
  else "Unknown".toList

/-- The characters of digits. -/
def digitChar (d : ℕ) : Char := "0123456789ABCDEF".toList.getD d ' '

def charDigit (c : Char) : ℕ := "0123456789ABCDEF".toList.idxOf c

theorem charDigit_digitChar : ∀ d < 16, charDigit (digitChar d) = d := by decide

/-- `%08X`, also for `PRIXPTR`. -/
def format08X (n : ℕ) : List Char := padded 16 digitChar (8 - (Nat.digits 16 n).length) n

/-- `%d`. -/
def formatD (n : ℤ) : List Char :=
  (if n < 0 then "-".toList else []) ++ padded 10 digitChar (if n = 0 then 1 else 0) n.natAbs

/-- The line of an entry. -/
def MemRegion.line (r : MemRegion) : List Char :=
  "0x".toList ++ (format08X r.from_.toNat ++ ("-0x".toList ++ (format08X r.to_.toNat ++
    (" ".toList ++ (modeToString r.mode.value ++ "\n".toList)))))

/-- The loop of `print_mem_layout` from `i` on. -/
def printLoop (regions : ℕ → MemRegion) (size regionCount : UInt) (i : ℕ) : List Char :=
  if i < size.toNat ∧ i < regionCount.toNat then
    (regions i).line ++ printLoop regions size regionCount (i + 1)
  else []
  termination_by size.toNat - i

/-- `print_mem_layout`; `none` is `NULL`. -/
def printMemLayout (regions : Option (ℕ → MemRegion)) (size : UInt) (regionCount : ℤ) :
    List Char :=
  match regions with
  | none => []
  | some regions => printLoop regions size (BitVec.ofInt 32 regionCount) 0

/-- `SIZE`. -/
abbrev driverSize : UInt := 30

/-- What a driver prints for a scan. -/
def printScan (title : String) (scan : Layout) : List Char :=
  title.toList ++ (formatD scan.count ++ (" regions):\n".toList ++
    printMemLayout (some scan.regions) driverSize scan.count))

/-- `main` of the drivers, `before` and `after` being the address spaces of the two scans. -/
def driver (fuel : ℕ) (before after : Fin pageCount → Mode)
    (regionsBefore regionsAfter : ℕ → MemRegion) : Option (List Char) := do
  let scanBefore ← getMemLayout fuel before regionsBefore driverSize
  let scanAfter ← getMemLayout fuel after regionsAfter driverSize
  some (printScan "Before (" scanBefore ++ printScan "After (" scanAfter)

/-! ## The fields of a line -/

theorem length_modeToString (mode : Mode) : (modeToString mode.value).length = 2 := by
  cases mode <;> rfl

theorem modeToString_inj {mode mode' : Mode}
    (h : modeToString mode.value = modeToString mode'.value) : mode = mode' := by
  revert h
  cases mode <;> cases mode' <;> decide

theorem length_format08X {n : ℕ} (h : n < 2 ^ 32) : (format08X n).length = 8 := by
  have hle : (Nat.digits 16 n).length ≤ 8 :=
    (Nat.digits_length_le_iff (by decide) n).mpr (by omega)
  rw [format08X, length_padded]
  omega

theorem length_line (r : MemRegion) : r.line.length = 25 := by
  simp only [MemRegion.line, List.length_append, length_format08X r.from_.isLt,
    length_format08X r.to_.isLt, length_modeToString]
  rfl

/-- **A line tells its entry.** -/
theorem line_inj {r r' : MemRegion} (h : r.line = r'.line) : r = r' := by
  have hfield : ∀ {a b : UInt}, format08X a.toNat = format08X b.toNat → a = b := fun h =>
    BitVec.eq_of_toNat_eq (padded_inj (by decide) charDigit_digitChar h)
  have hlen : ∀ a b : UInt, (format08X a.toNat).length = (format08X b.toNat).length := fun a b =>
    (length_format08X a.isLt).trans (length_format08X b.isLt).symm
  unfold MemRegion.line at h
  obtain ⟨hfrom, h⟩ := List.append_inj (List.append_cancel_left h) (hlen _ _)
  obtain ⟨hto, h⟩ := List.append_inj (List.append_cancel_left h) (hlen _ _)
  have hmode := modeToString_inj (List.append_cancel_right (List.append_cancel_left h))
  obtain ⟨from_, to_, mode⟩ := r
  obtain ⟨from', to', mode'⟩ := r'
  obtain rfl : from_ = from' := hfield hfrom
  obtain rfl : to_ = to' := hfield hto
  obtain rfl : mode = mode' := hmode
  rfl

/-! ## The list -/

/-- The loop prints the entries below both bounds. -/
theorem printLoop_eq (regions : ℕ → MemRegion) (size regionCount : UInt) (i : ℕ) :
    printLoop regions size regionCount i =
      (List.range' i (min size.toNat regionCount.toNat - i)).flatMap fun i => (regions i).line := by
  fun_induction printLoop regions size regionCount i with
  | case1 i h ih =>
    have hrange : min size.toNat regionCount.toNat - i =
        min size.toNat regionCount.toNat - (i + 1) + 1 := by omega
    rw [ih, hrange, List.range'_succ, List.flatMap_cons]
  | case2 i h =>
    rw [Nat.sub_eq_zero_of_le (by omega), List.range'_zero, List.flatMap_nil]

/-- The entries that `get_mem_layout` writes. -/
def writtenEntries (mode : Fin pageCount → Mode) (size : UInt) : List MemRegion :=
  ((layoutRuns mode).take size.toNat).map runEntry

/-- The number returned, the entries it stands for, and the text printed for them. -/
structure Printed (mode : Fin pageCount → Mode) (size : UInt) (scan : Layout) : Prop where
  count : scan.count = min ((layoutRuns mode).length - 1) size.toNat + 1
  written : (List.range (min scan.count.toNat size.toNat)).map scan.regions =
    writtenEntries mode size
  text : printMemLayout (some scan.regions) size scan.count =
    (writtenEntries mode size).flatMap MemRegion.line

section Printed

variable (mode : Fin pageCount → Mode) (buffer : ℕ → MemRegion) (size : UInt)

theorem length_layoutRuns_le : (layoutRuns mode).length ≤ pageCount + 1 := by
  rw [length_layoutRuns]
  exact Nat.succ_le_succ ((Finset.card_filter_le _ _).trans_eq (Finset.card_range _))

/-- **`print_mem_layout` prints what was written**, each entry once and in order. -/
theorem printMemLayout_eq {fuel : ℕ} (hfuel : pageCount < fuel) :
    ∃ r, getMemLayout fuel mode buffer size = some r ∧ Printed mode size r := by
  obtain ⟨r, hr, hcount, -, hregions, -⟩ := getMemLayout_eq mode buffer size hfuel
  have hpos : 0 < (layoutRuns mode).length := by
    rw [length_layoutRuns]
    exact Nat.succ_pos _
  have hle := length_layoutRuns_le mode
  have hsize := size.isLt
  have hbound : min size.toNat (BitVec.ofInt 32 r.count).toNat =
      min (layoutRuns mode).length size.toNat := by
    rw [hcount, BitVec.toNat_ofInt]
    simp only [pageCount] at hle
    omega
  have hwritten : (List.range (min (layoutRuns mode).length size.toNat)).map r.regions =
      writtenEntries mode size := by
    refine List.ext_getElem (by simp [writtenEntries, Nat.min_comm]) fun i hi hi' => ?_
    rw [List.length_map, List.length_range] at hi
    obtain ⟨hlt, hat⟩ := hregions i hi
    simp only [List.getElem_map, List.getElem_range, writtenEntries, List.getElem_take]
    exact hat
  have hnumber : min r.count.toNat size.toNat = min (layoutRuns mode).length size.toNat := by
    omega
  refine ⟨r, hr, ⟨hcount, by rw [hnumber, hwritten], ?_⟩⟩
  rw [printMemLayout, printLoop_eq, hbound, Nat.sub_zero, ← List.range_eq_range', ← hwritten,
    List.flatMap_map]

end Printed

/-! ## The address space -/

/-- Every page lies in an entry of the layout. -/
theorem layoutRuns_covers (mode : Fin pageCount → Mode) (p : Fin pageCount) :
    ∃ r ∈ layoutRuns mode, (runEntry r).from_ ≤ pageAddress p ∧
      pageAddress p < (runEntry r).to_ := by
  have hrun : ∃ r ∈ layoutRuns mode, r.start ≤ p ∧ p < r.stop := by
    rcases @scan_covers Mode _ .memNO (modeAt mode) pageCount p p.isLt with ⟨r, hr, hin⟩ | hopen
    · exact ⟨r, List.mem_append_left _ hr, hin⟩
    · exact ⟨_, List.mem_append_right _ List.mem_cons_self, hopen, p.isLt⟩
  obtain ⟨r, hr, hstart, hstop⟩ := hrun
  obtain ⟨hbegin, hend, -⟩ := layoutRuns_mem mode hr
  have hp := pageAddress_toNat p.isLt
  refine ⟨r, hr, ?_, ?_⟩
  · rw [BitVec.le_def, runEntry, pageAddress_toNat hbegin, hp]
    omega
  · rw [BitVec.lt_def, hp]
    simp only [runEntry]
    split
    · next hlt =>
      rw [pageAddress_toNat hlt]
      omega
    · have hregionEnd : regionEnd.toNat = 4294967295 := rfl
      have := p.isLt
      simp only [pageCount] at this
      omega

/-- Entries that are in another layout too give the modes there. -/
theorem mode_eq_of_entries {mode mode' : Fin pageCount → Mode}
    (h : ∀ r ∈ layoutRuns mode, ∃ r' ∈ layoutRuns mode', runEntry r' = runEntry r) :
    mode = mode' := by
  funext p
  obtain ⟨r, hr, hfrom, hto⟩ := layoutRuns_covers mode p
  obtain ⟨r', hr', hentry⟩ := h r hr
  rw [runEntry_mode mode hr hfrom hto, ← hentry]
  rw [← hentry] at hfrom hto
  exact (runEntry_mode mode' hr' hfrom hto).symm

/-- **A list that is complete tells the address space.** -/
theorem writtenEntries_inj {mode mode' : Fin pageCount → Mode} {size : UInt}
    (hfits : (layoutRuns mode).length ≤ size.toNat)
    (h : writtenEntries mode size = writtenEntries mode' size) : mode = mode' := by
  refine mode_eq_of_entries fun r hr => ?_
  have hmem : runEntry r ∈ writtenEntries mode' size := by
    rw [← h, writtenEntries, List.take_of_length_le hfits]
    exact List.mem_map_of_mem hr
  obtain ⟨r', hr', hentry⟩ := List.mem_map.mp hmem
  exact ⟨r', List.mem_of_mem_take hr', hentry⟩

/-! ## The output -/

section Output

variable {mode mode' : Fin pageCount → Mode} {scan scan' : Layout}

theorem space_notMem_formatD (n : ℤ) : ' ' ∉ formatD n := by
  intro h
  rw [formatD, List.mem_append] at h
  rcases h with h | h
  · split at h
    · exact absurd h (by decide)
    · exact absurd h List.not_mem_nil
  · obtain ⟨d, hd, hspace⟩ := List.mem_map.mp h
    have hne : ∀ d < 10, digitChar d ≠ ' ' := by decide
    rcases List.mem_append.mp hd with hd | hd
    · rw [List.eq_of_mem_replicate hd] at hspace
      exact hne 0 (by decide) hspace
    · exact hne d (Nat.digits_lt_base (by decide) (List.mem_reverse.mp hd)) hspace

theorem formatD_inj {n n' : ℤ} (hn : 0 ≤ n) (hn' : 0 ≤ n') (h : formatD n = formatD n') :
    n = n' := by
  rw [formatD, formatD, if_neg (not_lt.mpr hn), if_neg (not_lt.mpr hn'), List.nil_append,
    List.nil_append] at h
  have habs := padded_inj (by decide) (fun d hd => charDigit_digitChar d (by omega)) h
  omega

/-- The number tells how many lines follow. -/
theorem Printed.length_eq (h : Printed mode driverSize scan) (h' : Printed mode' driverSize scan')
    (hcount : scan.count = scan'.count) :
    (writtenEntries mode driverSize).length = (writtenEntries mode' driverSize).length := by
  have hpos := length_layoutRuns mode
  have hpos' := length_layoutRuns mode'
  rw [h.count, h'.count] at hcount
  simp only [writtenEntries, List.length_map, List.length_take]
  omega

/-- **What is printed for a scan** tells its entries, whatever is printed behind it. -/
theorem Printed.append_inj (h : Printed mode driverSize scan)
    (h' : Printed mode' driverSize scan') {title : String} {x y : List Char}
    (heq : printScan title scan ++ x = printScan title scan' ++ y) :
    writtenEntries mode driverSize = writtenEntries mode' driverSize ∧ x = y := by
  simp only [printScan, List.append_assoc] at heq
  obtain ⟨hnumber, hrest⟩ := (append_sep_inj (space_notMem_formatD _)
    (space_notMem_formatD _)).mp (List.append_cancel_left heq)
  have hcount : scan.count = scan'.count := formatD_inj (by rw [h.count]; omega)
    (by rw [h'.count]; omega) hnumber
  obtain ⟨htext, hxy⟩ := List.append_inj (List.append_cancel_left hrest) (by
    rw [h.text, h'.text, List.length_flatMap, List.length_flatMap]
    simp only [length_line, List.map_const', List.sum_replicate, h.length_eq h' hcount])
  rw [h.text, h'.text] at htext
  have hlines := flatMap_block_inj (by decide) length_line htext
  exact ⟨List.map_injective_iff.mpr (fun _ _ => line_inj) hlines, hxy⟩

/-- What is printed depends on the address space only. -/
theorem Printed.printScan_eq (h : Printed mode driverSize scan)
    (h' : Printed mode driverSize scan') (title : String) :
    printScan title scan = printScan title scan' := by
  rw [printScan, printScan, h.text, h'.text, h.count, h'.count]

end Output

/-- **The output of a driver tells both address spaces**, page by page: a run prints the entries
that were written for its two scans and no others, and when the two numbers of regions that it
prints are at most the size of the buffers, another run prints the same iff it found the same
modes before and after, whatever the buffers held. -/
theorem driver_eq_iff (fuel : ℕ) (hfuel : pageCount < fuel)
    (before after before' after' : Fin pageCount → Mode)
    (bufferBefore bufferAfter bufferBefore' bufferAfter' : ℕ → MemRegion) :
    ∃ scanBefore scanAfter out out',
      getMemLayout fuel before bufferBefore driverSize = some scanBefore ∧
      getMemLayout fuel after bufferAfter driverSize = some scanAfter ∧
      driver fuel before after bufferBefore bufferAfter = some out ∧
      driver fuel before' after' bufferBefore' bufferAfter' = some out' ∧
      Printed before driverSize scanBefore ∧ Printed after driverSize scanAfter ∧
      (scanBefore.count ≤ 30 ∧ scanAfter.count ≤ 30 →
        (out = out' ↔ before = before' ∧ after = after')) := by
  obtain ⟨b, hb, pb⟩ := printMemLayout_eq before bufferBefore driverSize hfuel
  obtain ⟨a, ha, pa⟩ := printMemLayout_eq after bufferAfter driverSize hfuel
  obtain ⟨b', hb', pb'⟩ := printMemLayout_eq before' bufferBefore' driverSize hfuel
  obtain ⟨a', ha', pa'⟩ := printMemLayout_eq after' bufferAfter' driverSize hfuel
  have hsize : driverSize.toNat = 30 := rfl
  refine ⟨b, a, _, _, hb, ha, by rw [driver, hb, ha]; rfl, by rw [driver, hb', ha']; rfl,
    pb, pa, ?_⟩
  rintro ⟨hcountBefore, hcountAfter⟩
  rw [pb.count] at hcountBefore
  rw [pa.count] at hcountAfter
  constructor
  · intro h
    obtain ⟨hbefore, hrest⟩ := pb.append_inj pb' h
    have hafter := pa.append_inj (x := []) (y := []) pa' (by rw [hrest])
    exact ⟨writtenEntries_inj (by omega) hbefore, writtenEntries_inj (by omega) hafter.1⟩
  · rintro ⟨rfl, rfl⟩
    rw [pb.printScan_eq pb', pa.printScan_eq pa']

/-- A page that is writable before and after, and all pages writable after. -/
theorem driver_eq_iff_island : ∃ out out',
    driver 1048577 islandMode islandMode (fun _ => ⟨0, 0, .memRO⟩) (fun _ => ⟨0, 0, .memRO⟩) =
      some out ∧
    driver 1048577 islandMode (fun _ => .memRW) (fun _ => ⟨1, 1, .memRW⟩)
      (fun _ => ⟨1, 1, .memRW⟩) = some out' ∧ out ≠ out' := by
  obtain ⟨scan, scan', out, out', hscan, hscan', hout, hout', hprinted, -, hiff⟩ :=
    driver_eq_iff 1048577 (Nat.lt_succ_self _) islandMode islandMode islandMode (fun _ => .memRW)
      (fun _ => ⟨0, 0, .memRO⟩) (fun _ => ⟨0, 0, .memRO⟩) (fun _ => ⟨1, 1, .memRW⟩)
      (fun _ => ⟨1, 1, .memRW⟩)
  have hcount : scan.count ≤ 30 := by
    rw [hprinted.count, length_layoutRuns, changes_island]
    decide
  obtain rfl := Option.some.inj (hscan.symm.trans hscan')
  refine ⟨out, out', hout, hout', fun heq => ?_⟩
  exact absurd (congrFun ((hiff ⟨hcount, hcount⟩).mp heq).2 0) (by decide)

end C380.MemLayout
