import Mathlib.Data.List.Chain
import Mathlib.Data.Set.Card

/-!
# Scanning a sequence for its runs

A scan reads `f 0, f 1, …` and keeps an open run: its start and its mode. A value that differs from
the mode closes the run and opens the next one. The first run is opened with the mode `init`
before anything is read, so it is empty when `f 0` differs from `init`.

* `scan_closed`, `scan_open`, `scan_linked`: the runs follow each other without a gap, neighbours
  differ in mode, and every place has the mode of its run.
* `scan_nonempty`: only the first run can be empty.
* `length_scan`: the number of closed runs is the number of places that differ from the one
  before.
* `maximalRuns` is the set of maximal runs of the sequence, each counted by its first place
  (`ncard_maximalRuns`). `card_runStarts` compares this with what the scan counts.
-/

namespace RunScan

variable {μ : Type}

/-- The places from `start` up to `stop`, with their mode. -/
structure Run (μ : Type) where
  start : ℕ
  stop : ℕ
  mode : μ

/-- The closed runs and the open one. -/
structure Progress (μ : Type) where
  closed : List (Run μ)
  start : ℕ
  mode : μ

/-- The mode of the place before, `init` before the first. -/
def before (init : μ) (f : ℕ → μ) : ℕ → μ
  | 0 => init
  | j + 1 => f j

@[simp] theorem before_zero (init : μ) (f : ℕ → μ) : before init f 0 = init := rfl

@[simp] theorem before_succ (init : μ) (f : ℕ → μ) (j : ℕ) : before init f (j + 1) = f j := rfl

/-- A run ends where the next one begins, with another mode. -/
def Meets (r r' : Run μ) : Prop := r.stop = r'.start ∧ r.mode ≠ r'.mode

/-- The maximal runs below `n`: nonempty, of one mode, and not to be extended on either side. -/
def maximalRuns (f : ℕ → μ) (n : ℕ) : Set (ℕ × ℕ) :=
  {p | p.1 < p.2 ∧ p.2 ≤ n ∧ (∀ j, p.1 ≤ j → j < p.2 → f j = f p.1) ∧
    (p.1 = 0 ∨ f (p.1 - 1) ≠ f p.1) ∧ (p.2 = n ∨ f p.2 ≠ f p.1)}

section Scan

variable [DecidableEq μ]

/-- Reading the value of place `j`. -/
def Progress.step (s : Progress μ) (j : ℕ) (m : μ) : Progress μ :=
  if m ≠ s.mode then ⟨s.closed ++ [⟨s.start, j, s.mode⟩], j, m⟩ else s

/-- The scan of the first `n` places. -/
def scan (init : μ) (f : ℕ → μ) : ℕ → Progress μ
  | 0 => ⟨[], 0, init⟩
  | n + 1 => (scan init f n).step n (f n)

/-- The places below `n` that differ from the one before. -/
def changes (init : μ) (f : ℕ → μ) (n : ℕ) : Finset ℕ :=
  (Finset.range n).filter fun j => f j ≠ before init f j

/-- The places below `n` that begin a maximal run. -/
def runStarts (f : ℕ → μ) (n : ℕ) : Finset ℕ :=
  (Finset.range n).filter fun j => j = 0 ∨ f (j - 1) ≠ f j

variable {init : μ} {f : ℕ → μ}

theorem scan_zero : scan init f 0 = ⟨[], 0, init⟩ := rfl

theorem scan_change {n : ℕ} (h : f n ≠ (scan init f n).mode) : scan init f (n + 1) =
    ⟨(scan init f n).closed ++ [⟨(scan init f n).start, n, (scan init f n).mode⟩], n, f n⟩ := by
  rw [scan, Progress.step, if_pos h]

theorem scan_same {n : ℕ} (h : f n = (scan init f n).mode) :
    scan init f (n + 1) = scan init f n := by
  rw [scan, Progress.step, if_neg (not_not.mpr h)]

theorem scan_mode (n : ℕ) : (scan init f n).mode = before init f n := by
  cases n with
  | zero => rfl
  | succ n =>
    by_cases h : f n = (scan init f n).mode
    · rw [scan_same h, ← h]
      rfl
    · rw [scan_change h]
      rfl

/-- **The open run** has its mode at every place read. -/
theorem scan_open (n : ℕ) : (scan init f n).start ≤ n ∧
    ∀ j, (scan init f n).start ≤ j → j < n → f j = (scan init f n).mode := by
  induction n with
  | zero => exact ⟨le_rfl, fun j _ hj => absurd hj (Nat.not_lt_zero j)⟩
  | succ n ih =>
    by_cases h : f n = (scan init f n).mode
    · rw [scan_same h]
      refine ⟨ih.1.trans (Nat.le_succ n), fun j hle hlt => ?_⟩
      rcases Nat.lt_succ_iff_lt_or_eq.mp hlt with hlt | rfl
      · exact ih.2 j hle hlt
      · exact h
    · rw [scan_change h]
      refine ⟨Nat.le_succ n, fun j hle hlt => ?_⟩
      obtain rfl : j = n := Nat.le_antisymm (Nat.le_of_lt_succ hlt) hle
      rfl

/-- The open run begins at a place that was read. -/
theorem scan_start_le (n : ℕ) : (scan init f (n + 1)).start ≤ n := by
  by_cases h : f n = (scan init f n).mode
  · rw [scan_same h]
    exact (scan_open n).1
  · rw [scan_change h]

/-- **The closed runs** end before the last place read and have their mode at each of theirs. -/
theorem scan_closed (n : ℕ) : ∀ r ∈ (scan init f n).closed,
    r.start ≤ r.stop ∧ r.stop < n ∧ ∀ j, r.start ≤ j → j < r.stop → f j = r.mode := by
  induction n with
  | zero => exact fun r hr => absurd hr List.not_mem_nil
  | succ n ih =>
    have hold : ∀ r ∈ (scan init f n).closed, r.start ≤ r.stop ∧ r.stop < n + 1 ∧
        ∀ j, r.start ≤ j → j < r.stop → f j = r.mode := fun r hr =>
      ⟨(ih r hr).1, Nat.lt_succ_of_lt (ih r hr).2.1, (ih r hr).2.2⟩
    by_cases h : f n = (scan init f n).mode
    · rwa [scan_same h]
    · rw [scan_change h]
      intro r hr
      rcases List.mem_append.mp hr with hr | hr
      · exact hold r hr
      · obtain rfl := List.mem_singleton.mp hr
        exact ⟨(scan_open n).1, Nat.lt_succ_self n, (scan_open n).2⟩

/-- **Every place read lies in a run**, a closed one or the open one. -/
theorem scan_covers (n : ℕ) : ∀ j < n,
    (∃ r ∈ (scan init f n).closed, r.start ≤ j ∧ j < r.stop) ∨ (scan init f n).start ≤ j := by
  induction n with
  | zero => exact fun j hj => absurd hj (Nat.not_lt_zero j)
  | succ n ih =>
    intro j hj
    by_cases h : f n = (scan init f n).mode
    · rw [scan_same h]
      rcases Nat.lt_succ_iff_lt_or_eq.mp hj with hj | rfl
      · exact ih j hj
      · exact Or.inr (scan_open j).1
    · rw [scan_change h]
      rcases Nat.lt_succ_iff_lt_or_eq.mp hj with hj | rfl
      · refine Or.inl ?_
        rcases ih j hj with ⟨r, hr, hin⟩ | hopen
        · exact ⟨r, List.mem_append_left _ hr, hin⟩
        · exact ⟨_, List.mem_append_right _ List.mem_cons_self, hopen, hj⟩
      · exact Or.inr le_rfl

/-- **The runs follow each other**, from place 0 to the open run. -/
theorem scan_linked (n stop : ℕ) :
    let runs := (scan init f n).closed ++ [⟨(scan init f n).start, stop, (scan init f n).mode⟩]
    runs.IsChain Meets ∧ ∀ r, runs.head? = some r → r.start = 0 := by
  induction n generalizing stop with
  | zero =>
    refine ⟨List.isChain_singleton _, fun r hr => ?_⟩
    obtain rfl := Option.some.inj hr
    rfl
  | succ n ih =>
    by_cases h : f n = (scan init f n).mode
    · rw [scan_same h]
      exact ih stop
    · rw [scan_change h]
      obtain ⟨hchain, hhead⟩ := ih n
      refine ⟨List.IsChain.append hchain (List.isChain_singleton _) ?_, fun r hr => ?_⟩
      · intro r hr r' hr'
        rw [List.getLast?_concat, Option.mem_some_iff] at hr
        obtain rfl := Option.some.inj hr'
        subst hr
        exact ⟨rfl, fun he => h he.symm⟩
      · refine hhead r ?_
        rwa [List.head?_append_of_ne_nil _ (by simp)] at hr

/-- **Only the first closed run can be empty**: a later one begins at a place that was read. -/
theorem scan_nonempty (n : ℕ) : ∀ i (hi : i < (scan init f n).closed.length), 0 < i →
    (scan init f n).closed[i].start < (scan init f n).closed[i].stop := by
  induction n with
  | zero => exact fun i hi => absurd hi (Nat.not_lt_zero i)
  | succ n ih =>
    by_cases h : f n = (scan init f n).mode
    · simp only [scan_same h]
      exact ih
    · simp only [scan_change h]
      intro i hi h0
      rcases Nat.lt_or_ge i (scan init f n).closed.length with hlt | hge
      · rw [List.getElem_append_left hlt]
        exact ih i hlt h0
      · -- a run was closed before this one, so a place was read
        have hclosed : 0 < (scan init f n).closed.length := by
          rw [List.length_append, List.length_singleton] at hi
          omega
        obtain ⟨m, rfl⟩ : ∃ m, n = m + 1 := Nat.exists_eq_succ_of_ne_zero fun h0 => by
          subst h0
          exact absurd hclosed (Nat.not_lt_zero 0)
        rw [List.getElem_append_right hge]
        simp only [List.getElem_singleton]
        exact Nat.lt_succ_of_le (scan_start_le m)

/-- **The closed runs are counted by the changes.** -/
theorem length_scan (n : ℕ) : (scan init f n).closed.length = (changes init f n).card := by
  induction n with
  | zero => rfl
  | succ n ih =>
    rw [changes, Finset.range_add_one, Finset.filter_insert, ← changes]
    by_cases h : f n = (scan init f n).mode
    · rw [scan_same h, ih, if_neg (not_not.mpr (h.trans (scan_mode n)))]
    · rw [scan_change h, if_pos (by rwa [scan_mode] at h), Finset.card_insert_of_notMem,
        List.length_append, ih]
      · rfl
      · simp [changes]

-- a scan of many places is never unfolded
attribute [irreducible] scan

/-! ## Counting the maximal runs -/

/-- Every start has a first end. -/
theorem exists_run_end {n a : ℕ} (ha : a < n) : ∃ b, a < b ∧ b ≤ n ∧
    (∀ j, a ≤ j → j < b → f j = f a) ∧ (b = n ∨ f b ≠ f a) := by
  have hex : ∃ b, a < b ∧ (b = n ∨ f b ≠ f a) := ⟨n, ha, Or.inl rfl⟩
  refine ⟨Nat.find hex, (Nat.find_spec hex).1, Nat.find_min' hex ⟨ha, Or.inl rfl⟩, ?_,
    (Nat.find_spec hex).2⟩
  intro j hle hlt
  by_contra hne
  have haj : a < j := lt_of_le_of_ne hle fun he => hne (by rw [he])
  exact Nat.find_min hex hlt ⟨haj, Or.inr hne⟩

/-- **A maximal run is determined by its first place.** -/
theorem ncard_maximalRuns (f : ℕ → μ) (n : ℕ) :
    (maximalRuns f n).ncard = (runStarts f n).card := by
  have himage : Prod.fst '' maximalRuns f n = ↑(runStarts f n) := by
    ext a
    simp only [Set.mem_image, Finset.mem_coe, runStarts, Finset.mem_filter, Finset.mem_range]
    constructor
    · rintro ⟨⟨a, b⟩, ⟨hab, hbn, -, hfirst, -⟩, rfl⟩
      exact ⟨hab.trans_le hbn, hfirst⟩
    · rintro ⟨han, hfirst⟩
      obtain ⟨b, hab, hbn, hall, hlast⟩ := exists_run_end (f := f) han
      exact ⟨(a, b), ⟨hab, hbn, hall, hfirst, hlast⟩, rfl⟩
  have hinj : Set.InjOn Prod.fst (maximalRuns f n) := by
    rintro ⟨a, b⟩ ⟨hab, hbn, hall, -, hlast⟩ ⟨a', b'⟩ ⟨hab', hbn', hall', -, hlast'⟩ he
    obtain rfl : a = a' := he
    -- the shorter of two runs from the same place would go on
    have hle : b ≤ b' := by
      by_contra hlt
      exact (hlast'.resolve_left (by simp only at hbn ⊢; omega))
        (hall b' hab'.le (by simpa using hlt))
    have hge : b' ≤ b := by
      by_contra hlt
      exact (hlast.resolve_left (by simp only at hbn' ⊢; omega))
        (hall' b hab.le (by simpa using hlt))
    rw [Nat.le_antisymm hle hge]
  rw [← Set.ncard_coe_finset, ← himage, hinj.ncard_image]

/-- The scan misses the first run exactly when it begins with the mode `init`. -/
theorem card_runStarts (n : ℕ) : (runStarts f (n + 1)).card =
    (changes init f (n + 1)).card + if f 0 = init then 1 else 0 := by
  by_cases h0 : f 0 = init
  · have hinsert : runStarts f (n + 1) = insert 0 (changes init f (n + 1)) := by
      ext j
      simp only [runStarts, changes, Finset.mem_insert, Finset.mem_filter, Finset.mem_range]
      cases j with
      | zero => simp
      | succ j => simp [eq_comm]
    have hnot : 0 ∉ changes init f (n + 1) := fun h => (Finset.mem_filter.mp h).2 h0
    rw [hinsert, if_pos h0, Finset.card_insert_of_notMem hnot]
  · have hsame : runStarts f (n + 1) = changes init f (n + 1) := by
      ext j
      simp only [runStarts, changes, Finset.mem_filter, Finset.mem_range]
      cases j with
      | zero => simp [h0]
      | succ j => simp [eq_comm]
    rw [hsame, if_neg h0, add_zero]

end Scan

end RunScan
