import Mathlib.Data.Set.Card

/-!
# Counters that count threads

Threads are named by any type, infinitely many of them included; a shared counter counts the threads
of a kind `P` when it is the number of threads with `P`.

* `Counts P n`: exactly `n` threads have `P`.
* `Counts.enter`, `Counts.leave`, `Counts.move`: **one thread moves**, and the counter changes by
  what it gained and lost.
* `Counts.not_of_zero`, `Counts.all_of_le`: what a test of the counter tells about the threads.
-/

namespace ThreadCount

variable {ι : Type}

/-- Exactly `n` threads have `P`. -/
def Counts (P : ι → Prop) (n : ℤ) : Prop := ∃ m : ℕ, n = m ∧ {i | P i}.encard = m

variable {P Q : ι → Prop} {n m : ℤ}

theorem counts_zero (h : ∀ i, ¬ P i) : Counts P 0 :=
  ⟨0, rfl, by rw [Nat.cast_zero, Set.encard_eq_zero]; exact Set.eq_empty_of_forall_notMem h⟩

/-- The counter is zero only when no thread is counted. -/
theorem Counts.not_of_zero (h : Counts P 0) (i : ι) : ¬ P i := by
  obtain ⟨m, hm, hcard⟩ := h
  obtain rfl : m = 0 := by omega
  rw [Nat.cast_zero, Set.encard_eq_zero] at hcard
  intro hi
  have hmem : i ∈ {i | P i} := hi
  rw [hcard] at hmem
  exact hmem

/-- Where no thread is counted the counter is zero. -/
theorem Counts.eq_zero (h : Counts P n) (hnone : ∀ i, ¬ P i) : n = 0 := by
  obtain ⟨m, rfl, hcard⟩ := h
  have hempty : {i | P i} = ∅ := Set.eq_empty_of_forall_notMem hnone
  rw [hempty, Set.encard_empty] at hcard
  exact_mod_cast hcard.symm

theorem Counts.congr (h : Counts P n) (hiff : ∀ i, Q i ↔ P i) : Counts Q n := by
  obtain rfl : Q = P := funext fun i => propext (hiff i)
  exact h

/-- A counter that is no smaller than another counts every thread that the other counts, when it
counts no others. -/
theorem Counts.all_of_le (hP : Counts P n) (hQ : Counts Q m) (hsub : ∀ i, P i → Q i) (hle : m ≤ n)
    (i : ι) (hi : Q i) : P i := by
  obtain ⟨a, rfl, ha⟩ := hP
  obtain ⟨b, rfl, hb⟩ := hQ
  have hfin : {i | P i}.Finite := Set.finite_of_encard_eq_coe ha
  have heq : {i | P i} = {i | Q i} := by
    refine hfin.eq_of_subset_of_encard_le hsub ?_
    rw [ha, hb]
    exact Nat.cast_le.mpr (by omega)
  have hmem : i ∈ {i | Q i} := hi
  rw [← heq] at hmem
  exact hmem

/-- Thread `i` becomes counted, the others stay what they are. -/
theorem Counts.enter (h : Counts P n) {i : ι} (hi : ¬ P i) (hi' : Q i)
    (hother : ∀ j, j ≠ i → (Q j ↔ P j)) : Counts Q (n + 1) := by
  obtain ⟨m, rfl, hcard⟩ := h
  refine ⟨m + 1, by push_cast; rfl, ?_⟩
  have hset : {j | Q j} = insert i {j | P j} := by
    ext j
    rw [Set.mem_insert_iff, Set.mem_ofPred_eq, Set.mem_ofPred_eq]
    by_cases hj : j = i
    · subst hj
      exact iff_of_true hi' (Or.inl rfl)
    · rw [hother j hj, or_iff_right hj]
  rw [hset, Set.encard_insert_of_notMem (show i ∉ {j | P j} from hi), hcard]
  push_cast
  rfl

/-- Thread `i` is no longer counted, the others stay what they are. -/
theorem Counts.leave (h : Counts P n) {i : ι} (hi : P i) (hi' : ¬ Q i)
    (hother : ∀ j, j ≠ i → (Q j ↔ P j)) : Counts Q (n - 1) := by
  obtain ⟨m, rfl, hcard⟩ := h
  have hset : {j | P j} = insert i {j | Q j} := by
    ext j
    rw [Set.mem_insert_iff, Set.mem_ofPred_eq, Set.mem_ofPred_eq]
    by_cases hj : j = i
    · subst hj
      exact iff_of_true hi (Or.inl rfl)
    · rw [hother j hj, or_iff_right hj]
  rw [hset, Set.encard_insert_of_notMem (show i ∉ {j | Q j} from hi')] at hcard
  obtain _ | k := m
  · exact absurd hcard (by simp)
  · refine ⟨k, by push_cast; omega, ?_⟩
    push_cast at hcard
    exact (ENat.add_left_injective_of_ne_top ENat.one_ne_top) hcard

/-- Thread `i` moves, the others stay what they are. -/
theorem Counts.move (h : Counts P n) (i : ι) [Decidable (P i)] [Decidable (Q i)]
    (hother : ∀ j, j ≠ i → (Q j ↔ P j)) :
    Counts Q (n + (if Q i then 1 else 0) - (if P i then 1 else 0)) := by
  have hstay : (Q i ↔ P i) → Counts Q n := fun hi => h.congr fun j => by
    by_cases hj : j = i
    · rw [hj, hi]
    · exact hother j hj
  by_cases hP : P i <;> by_cases hQ : Q i
  · simpa [hP, hQ] using hstay (iff_of_true hQ hP)
  · simpa [hP, hQ] using h.leave hP hQ hother
  · simpa [hP, hQ] using h.enter hP hQ hother
  · simpa [hP, hQ] using hstay (iff_of_false hQ hP)

end ThreadCount
