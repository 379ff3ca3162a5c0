import C380.MemLayout.Scan

/-!
# The value `get_mem_layout` returns

The value should be the number of memory regions, the maximal runs of pages of one mode
(`regionCount`), whatever the size of the buffer. Two slips of the code keep it from that. The
index is only incremented where an entry is written, although the comment above the test says "We
increment our index, even if it exceeds the size", so the value is at most `size + 1`. And the
first region is assumed to be without access, so when page 0 is accessible an empty region is
counted before it.

* `count_eq_regionCount_iff`: **when the value is right.** The slips also cancel each other out in
  one case: page 0 is accessible and the buffer is one entry too small.
* `count_ne_regionCount`: a buffer without entries and three regions.
-/

namespace C380.MemLayout

open RunScan

/-- The number of maximal runs of pages of one mode. -/
noncomputable def regionCount (mode : Fin pageCount → Mode) : ℕ :=
  (maximalRuns (modeAt mode) pageCount).ncard

section

variable (mode : Fin pageCount → Mode)

theorem modeAt_zero : modeAt mode 0 = mode 0 := rfl

/-- The regions against the runs of the scan. -/
theorem regionCount_add_one : regionCount mode + 1 =
    (layoutRuns mode).length + if mode 0 = .memNO then 1 else 0 := by
  have hcard : (runStarts (modeAt mode) pageCount).card =
      (changes .memNO (modeAt mode) pageCount).card + if modeAt mode 0 = .memNO then 1 else 0 :=
    card_runStarts 1048575
  unfold regionCount
  rw [ncard_maximalRuns, hcard, length_layoutRuns, modeAt_zero]
  omega

end

/-- **When the value returned is the number of regions.** Page 0 is without access and the buffer
is at most one entry too small, or page 0 is accessible and the buffer is exactly one entry too
small. -/
theorem count_eq_regionCount_iff (mode : Fin pageCount → Mode) (buffer : ℕ → MemRegion)
    (size : UInt) (fuel : ℕ) (hfuel : pageCount < fuel) :
    ∃ r, getMemLayout fuel mode buffer size = some r ∧
      (r.count = regionCount mode ↔
        (mode 0 = .memNO ∧ regionCount mode ≤ size.toNat + 1) ∨
          (mode 0 ≠ .memNO ∧ regionCount mode = size.toNat + 1)) := by
  obtain ⟨r, hr, hcount, -⟩ := getMemLayout_eq mode buffer size hfuel
  have hregions := regionCount_add_one mode
  have hpos := length_layoutRuns mode
  refine ⟨r, hr, ?_⟩
  rw [hcount]
  by_cases h0 : mode 0 = .memNO
  · rw [if_pos h0] at hregions
    simp only [h0, true_and, ne_eq, not_true_eq_false, false_and, or_false]
    omega
  · rw [if_neg h0] at hregions
    simp only [h0, false_and, ne_eq, not_false_eq_true, true_and, false_or]
    omega

/-- A single writable page, and a buffer that has an entry for every region. -/
theorem count_eq_regionCount_iff_island :
    ∃ r, getMemLayout 1048577 islandMode (fun _ => ⟨0, 0, .memRO⟩) 3 = some r ∧
      (r.count = regionCount islandMode ↔
        (islandMode 0 = .memNO ∧ regionCount islandMode ≤ (3 : UInt).toNat + 1) ∨
          (islandMode 0 ≠ .memNO ∧ regionCount islandMode = (3 : UInt).toNat + 1)) :=
  count_eq_regionCount_iff islandMode (fun _ => ⟨0, 0, .memRO⟩) 3 1048577 (Nat.lt_succ_self _)

/-- **A wrong value**: for a buffer of no entries the call returns 1, and there are 3 regions. -/
theorem count_ne_regionCount :
    ∃ r, getMemLayout 1048577 islandMode (fun _ => ⟨0, 0, .memRO⟩) 0 = some r ∧
      r.count = 1 ∧ regionCount islandMode = 3 := by
  obtain ⟨r, hr, hcount, -⟩ := getMemLayout_eq islandMode (fun _ => ⟨0, 0, .memRO⟩) 0
    (Nat.lt_succ_self pageCount)
  have hregions := regionCount_add_one islandMode
  have h0 : islandMode 0 = .memNO := rfl
  rw [length_layoutRuns, changes_island, if_pos h0] at hregions
  refine ⟨r, hr, ?_, ?_⟩
  · rw [hcount]
    simp
  · simpa using hregions

end C380.MemLayout
