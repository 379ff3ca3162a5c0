import Mathlib.Data.Fintype.Fin
import Mathlib.Data.Fintype.Perm
import Mathlib.Order.Interval.Finset.Fin

/-!
# Elements that sorting leaves in their place

An array of rows is sorted by a key on its first `size` positions; which of two rows with equal
keys comes first is left open. Position `i` is *in place* when every other row below `size` is
either the same row or strictly on the right side of it.

* `InPlace.eq`: **a row in place stays where it is**, whatever order the sort gives to ties.
* `SortsTo.of_stay`: if all rows with a property stay in place, no other row gets the property.
* `map_take_filter`: where the rows without a property that come before one with it look the same as
  that one, the first `k` rows look the same as the `k` rows with the property.
-/

namespace SortedSlots

variable {α κ : Type} {n : ℕ}

/-- `a'` is `a` with its first `size` rows sorted by `key`. -/
structure SortsTo [LE κ] (key : α → κ) (size : ℕ) (a a' : Fin n → α) : Prop where
  perm : ∃ p : Equiv.Perm (Fin n), (∀ i, size ≤ i.val → p i = i) ∧ ∀ i, a' i = a (p i)
  sorted : ∀ i j, i < j → j.val < size → key (a' i) ≤ key (a' j)

/-- Every other row below `size` is the same row, or strictly on the right side of row `i`. -/
def InPlace [LT κ] (key : α → κ) (size : ℕ) (a : Fin n → α) (i : Fin n) : Prop :=
  ∀ j, j.val < size → a j = a i ∨ (j < i ∧ key (a j) < key (a i)) ∨ (i < j ∧ key (a i) < key (a j))

/-- No injection maps a finite set into itself without one of its elements. -/
theorem not_mapsTo_erase {β : Type} [DecidableEq β] {T : Finset β} {x : β} (hx : x ∈ T) {f : β → β}
    (hf : Function.Injective f) (hmaps : ∀ y ∈ T, f y ∈ T.erase x) : False := by
  have hle := Finset.card_le_card_of_injOn f (fun y hy => hmaps y hy) hf.injOn
  rw [Finset.card_erase_of_mem hx] at hle
  have hpos : 0 < T.card := Finset.card_pos.mpr ⟨x, hx⟩
  omega

section Rows

variable [LinearOrder κ] {key : α → κ} {size : ℕ} {a a' : Fin n → α} {i : Fin n}

/-- **A row in place stays where it is.** -/
theorem InPlace.eq (h : InPlace key size a i) (hs : SortsTo key size a a') (hi : i.val < size) :
    a' i = a i := by
  obtain ⟨⟨p, hfix, ha⟩, hsorted⟩ := hs
  have hle : ∀ j k, j ≤ k → k.val < size → key (a (p j)) ≤ key (a (p k)) := by
    intro j k hjk hk
    rcases hjk.lt_or_eq with hlt | rfl
    · have := hsorted j k hlt hk
      rwa [ha, ha] at this
    · exact le_rfl
  have hbelow : ∀ j, j.val < size → (p j).val < size := by
    intro j hj
    by_contra hge
    have := p.injective (hfix (p j) (by omega))
    omega
  rw [ha]
  rcases h (p i) (hbelow i hi) with heq | ⟨hlt, hkey⟩ | ⟨hlt, hkey⟩
  · exact heq
  · -- the rows up to `i` all have smaller keys than row `i`, and come from before it
    refine (not_mapsTo_erase (T := Finset.Iic i) (x := i) (Finset.mem_Iic.mpr le_rfl) p.injective
      fun j hj => ?_).elim
    have hj : j ≤ i := Finset.mem_Iic.mp hj
    have hjk := (hle j i hj hi).trans_lt hkey
    rcases h (p j) (hbelow j (by omega)) with he | ⟨hl, -⟩ | ⟨-, hk⟩
    · exact absurd (he ▸ hjk) (lt_irrefl _)
    · exact Finset.mem_erase.mpr ⟨hl.ne, Finset.mem_Iic.mpr hl.le⟩
    · exact absurd hjk hk.not_gt
  · -- the rows from `i` on all have larger keys, and come from after it
    refine (not_mapsTo_erase (T := Finset.univ.filter fun j => i ≤ j ∧ j.val < size) (x := i)
      (by simp [hi]) p.injective fun j hj => ?_).elim
    obtain ⟨-, hj, hjs⟩ := Finset.mem_filter.mp hj
    have hjk := hkey.trans_le (hle i j hj hjs)
    rcases h (p j) (hbelow j hjs) with he | ⟨-, hk⟩ | ⟨hl, -⟩
    · exact absurd (he ▸ hjk) (lt_irrefl _)
    · exact absurd hjk hk.not_gt
    · exact Finset.mem_erase.mpr ⟨hl.ne', by simp [hl.le, hbelow j hjs]⟩

/-- **When all rows with the property `P` stay in place**, the sort brings no other row with it to a
position without. -/
theorem SortsTo.of_stay (hs : SortsTo key size a a') (P : α → Prop) [DecidablePred P]
    (hstay : ∀ i, P (a i) → a' i = a i) : ∀ i, P (a' i) → P (a i) := by
  obtain ⟨⟨p, -, ha⟩, -⟩ := hs
  have hsub : Finset.univ.filter (fun i => P (a i)) ⊆ Finset.univ.filter fun i => P (a' i) := by
    intro i hi
    rw [Finset.mem_filter] at hi ⊢
    rw [hstay i hi.2]
    exact hi
  have hcard : (Finset.univ.filter fun i => P (a' i)).card ≤
      (Finset.univ.filter fun i => P (a i)).card := by
    refine Finset.card_le_card_of_injOn p (fun i hi => ?_) p.injective.injOn
    have hi : P (a' i) := by simpa using hi
    rw [ha] at hi
    simpa using hi
  have heq := Finset.eq_of_subset_of_card_le hsub hcard
  intro i hi
  have hmem : i ∈ Finset.univ.filter fun i => P (a' i) := by simp [hi]
  rw [← heq] at hmem
  exact (Finset.mem_filter.mp hmem).2

end Rows

/-- **The first rows for the rows with a property**, by induction on the rows: behind a row without
it, all those with it look the same. -/
theorem map_take_filter {α β : Type} (p : α → Bool) (f : α → β) : ∀ l : List α,
    l.Pairwise (fun a b => p a = false → p b = true → f a = f b) →
    (l.take (l.filter p).length).map f = (l.filter p).map f
  | [], _ => rfl
  | a :: l, h => by
    obtain ⟨ha, hl⟩ := List.pairwise_cons.mp h
    have ih := map_take_filter p f l hl
    cases hp : p a with
    | true => rw [List.filter_cons_of_pos hp, List.length_cons, List.take_succ_cons, List.map_cons,
        List.map_cons, ih]
    | false =>
      have hsame : (l.filter p).map f = List.replicate (l.filter p).length (f a) := by
        rw [List.eq_replicate_iff]
        refine ⟨List.length_map f, fun b hb => ?_⟩
        obtain ⟨c, hc, rfl⟩ := List.mem_map.mp hb
        obtain ⟨hc, hpc⟩ := List.mem_filter.mp hc
        exact (ha c hc hp hpc).symm
      rw [List.filter_cons_of_neg (by rw [hp]; exact Bool.false_ne_true), hsame]
      rw [hsame] at ih
      -- the row in front takes the place of the last of those that look like it
      cases hn : (l.filter p).length with
      | zero => rfl
      | succ n =>
        rw [hn] at ih
        have hinit : (l.take n).map f = List.replicate n (f a) := by
          have htake := congrArg (List.take n) ih
          rwa [← List.map_take, List.take_take, Nat.min_eq_left (Nat.le_succ n),
            List.take_replicate, Nat.min_eq_left (Nat.le_succ n)] at htake
        rw [List.take_succ_cons, List.map_cons, hinit, List.replicate_succ]

end SortedSlots
