import Mathlib.Data.Multiset.Bind
import Mathlib.Data.Multiset.Replicate
import Mathlib.Data.Finset.Card

/-!
# Counted bags: a multiset of keys kept as entries with a count

A counted bag stores a multiset of keys as entries `e`, each with a key `key e` and a count
`val e`. `bag E` is the multiset it stands for, `total E k` the multiplicity of `k` in it.

* `Raise k n E E'`: `E'` is `E` with the count of `k` raised by `n`, in place or by a new entry.
* `Lower k E E'`: `E'` is `E` with one occurrence of `k` taken out, if there is one.
* `Raise.add`, `Lower.add`: both hold of a part of the entries as soon as the rest does not hold
  the key (the frame).
* `Raise.bag_eq`, `Lower.bag_eq`: on the multisets they are `+ replicate n k` and `erase k`.
* `card_toFinset_bag`: with positive counts and distinct keys the bag has as many distinct keys as
  there are entries.
-/

namespace CountedBag

variable {ε κ : Type} {key : ε → κ} {val : ε → ℕ}

/-- The sum of the counts of `k`. -/
def total [DecidableEq κ] (key : ε → κ) (val : ε → ℕ) (E : Multiset ε) (k : κ) : ℕ :=
  ((E.filter fun e => key e = k).map val).sum

/-- The multiset of keys the entries stand for. -/
def bag (key : ε → κ) (val : ε → ℕ) (E : Multiset ε) : Multiset κ :=
  E.bind fun e => Multiset.replicate (val e) (key e)

/-- `E'` is `E` with the count of `k` raised by `n`. -/
inductive Raise (key : ε → κ) (val : ε → ℕ) (k : κ) (n : ℕ) (E E' : Multiset ε) : Prop
  | new (x : ε) (hk : key x = k) (hv : val x = n) (hE : k ∉ E.map key) (hE' : E' = x ::ₘ E)
  | old (R : Multiset ε) (x x' : ε) (hk : key x = k) (hk' : key x' = k)
      (hv : val x' = val x + n) (hE : E = x ::ₘ R) (hE' : E' = x' ::ₘ R)

/-- `E'` is `E` with one occurrence of `k` taken out, if there is one. -/
inductive Lower (key : ε → κ) (val : ε → ℕ) (k : κ) (E E' : Multiset ε) : Prop
  | absent (hE : k ∉ E.map key) (hE' : E' = E)
  | last (x : ε) (hk : key x = k) (hv : val x = 1) (hE : E = x ::ₘ E')
  | more (R : Multiset ε) (x x' : ε) (hk : key x = k) (hk' : key x' = k)
      (hv : val x = val x' + 1) (hpos : 0 < val x') (hE : E = x ::ₘ R) (hE' : E' = x' ::ₘ R)

/-! ## The multiset of a counted bag -/

@[simp] theorem bag_cons (x : ε) (E : Multiset ε) :
    bag key val (x ::ₘ E) = Multiset.replicate (val x) (key x) + bag key val E :=
  Multiset.cons_bind _ _ _

theorem total_cons [DecidableEq κ] (x : ε) (E : Multiset ε) (k : κ) :
    total key val (x ::ₘ E) k = (if key x = k then val x else 0) + total key val E k := by
  unfold total
  by_cases h : key x = k
  · rw [Multiset.filter_cons_of_pos (p := fun e => key e = k) _ h, Multiset.map_cons,
      Multiset.sum_cons, if_pos h]
  · rw [Multiset.filter_cons_of_neg (p := fun e => key e = k) _ h, if_neg h, Nat.zero_add]

theorem count_bag [DecidableEq κ] (E : Multiset ε) (k : κ) :
    (bag key val E).count k = total key val E k := by
  induction E using Multiset.induction with
  | empty => rfl
  | cons x E ih =>
    rw [bag_cons, Multiset.count_add, Multiset.count_replicate, ih, total_cons]

theorem total_eq_zero [DecidableEq κ] {E : Multiset ε} {k : κ} (h : k ∉ E.map key) :
    total key val E k = 0 := by
  induction E using Multiset.induction with
  | empty => rfl
  | cons x E ih =>
    rw [Multiset.map_cons, Multiset.mem_cons, not_or] at h
    rw [total_cons, if_neg (Ne.symm h.1), ih h.2]

theorem mem_bag {E : Multiset ε} (hpos : ∀ e ∈ E, 0 < val e) {k : κ} :
    k ∈ bag key val E ↔ k ∈ E.map key := by
  simp only [bag, Multiset.mem_bind, Multiset.mem_replicate, Multiset.mem_map]
  constructor
  · rintro ⟨e, he, -, rfl⟩
    exact ⟨e, he, rfl⟩
  · rintro ⟨e, he, rfl⟩
    exact ⟨e, he, (hpos e he).ne', rfl⟩

/-- **With positive counts and one entry for each key, the entries are the distinct keys.** -/
theorem card_toFinset_bag [DecidableEq κ] {E : Multiset ε} (hpos : ∀ e ∈ E, 0 < val e)
    (hnd : (E.map key).Nodup) : (bag key val E).toFinset.card = E.card := by
  have h : (bag key val E).toFinset = (E.map key).toFinset := by
    ext k
    rw [Multiset.mem_toFinset, Multiset.mem_toFinset, mem_bag hpos]
  rw [h, Multiset.toFinset_card_of_nodup hnd, Multiset.card_map]

/-! ## Raising a count -/

section Raise

variable {k : κ} {n : ℕ} {E E' : Multiset ε}

/-- The entries elsewhere that do not hold the key are a frame. -/
theorem Raise.add (h : Raise key val k n E E') {R : Multiset ε} (hR : k ∉ R.map key) :
    Raise key val k n (E + R) (E' + R) := by
  cases h with
  | new x hk hv hE hE' =>
    refine .new x hk hv ?_ (by rw [hE', Multiset.cons_add])
    rw [Multiset.map_add, Multiset.mem_add, not_or]
    exact ⟨hE, hR⟩
  | old S x x' hk hk' hv hE hE' =>
    exact .old (S + R) x x' hk hk' hv (by rw [hE, Multiset.cons_add])
      (by rw [hE', Multiset.cons_add])

theorem Raise.bag_eq (h : Raise key val k n E E') :
    bag key val E' = Multiset.replicate n k + bag key val E := by
  cases h with
  | new x hk hv hE hE' => rw [hE', bag_cons, hk, hv]
  | old R x x' hk hk' hv hE hE' =>
    rw [hE, hE', bag_cons, bag_cons, hk, hk', hv, Nat.add_comm, Multiset.replicate_add, add_assoc]

theorem Raise.keys [DecidableEq κ] (h : Raise key val k n E E') :
    E'.map key = if k ∈ E.map key then E.map key else k ::ₘ E.map key := by
  cases h with
  | new x hk hv hE hE' => rw [if_neg hE, hE', Multiset.map_cons, hk]
  | old R x x' hk hk' hv hE hE' =>
    rw [hE, hE', Multiset.map_cons, Multiset.map_cons, hk, hk', if_pos (Multiset.mem_cons_self _ _)]

theorem Raise.card [DecidableEq κ] (h : Raise key val k n E E') :
    E'.card = if k ∈ E.map key then E.card else E.card + 1 := by
  have hk := congrArg Multiset.card h.keys
  rw [Multiset.card_map] at hk
  rw [hk]
  split <;> simp

theorem Raise.mem_keys [DecidableEq κ] (h : Raise key val k n E E') {k' : κ} :
    k' ∈ E'.map key ↔ k' = k ∨ k' ∈ E.map key := by
  rw [h.keys]
  split
  · rename_i hk
    constructor
    · exact Or.inr
    · rintro (rfl | h)
      · exact hk
      · exact h
  · exact Multiset.mem_cons

theorem Raise.nodup [DecidableEq κ] (h : Raise key val k n E E') (hnd : (E.map key).Nodup) :
    (E'.map key).Nodup := by
  rw [h.keys]
  split
  · exact hnd
  · rename_i hk
    exact Multiset.nodup_cons.mpr ⟨hk, hnd⟩

/-- Every entry was there before, or holds the key with at least the amount raised and at most
that much over an old count. -/
theorem Raise.mem (h : Raise key val k n E E') {e : ε} (he : e ∈ E') :
    e ∈ E ∨ val e = n ∨ ∃ x ∈ E, val e = val x + n := by
  cases h with
  | new x hk hv hE hE' =>
    rw [hE'] at he
    rcases Multiset.mem_cons.mp he with rfl | he
    · exact Or.inr (Or.inl hv)
    · exact Or.inl he
  | old R x x' hk hk' hv hE hE' =>
    rw [hE'] at he
    rw [hE]
    rcases Multiset.mem_cons.mp he with rfl | he
    · exact Or.inr (Or.inr ⟨x, Multiset.mem_cons_self _ _, hv⟩)
    · exact Or.inl (Multiset.mem_cons_of_mem he)

end Raise

/-! ## Lowering a count -/

section Lower

variable {k : κ} {E E' : Multiset ε}

theorem Lower.add (h : Lower key val k E E') {R : Multiset ε} (hR : k ∉ R.map key) :
    Lower key val k (E + R) (E' + R) := by
  cases h with
  | absent hE hE' =>
    refine .absent ?_ (by rw [hE'])
    rw [Multiset.map_add, Multiset.mem_add, not_or]
    exact ⟨hE, hR⟩
  | last x hk hv hE => exact .last x hk hv (by rw [hE, Multiset.cons_add])
  | more S x x' hk hk' hv hpos hE hE' =>
    exact .more (S + R) x x' hk hk' hv hpos (by rw [hE, Multiset.cons_add])
      (by rw [hE', Multiset.cons_add])

theorem Lower.bag_eq [DecidableEq κ] (h : Lower key val k E E') :
    bag key val E' = (bag key val E).erase k := by
  cases h with
  | absent hE hE' =>
    rw [hE', Multiset.erase_of_notMem]
    rw [← Multiset.count_eq_zero, count_bag, total_eq_zero hE]
  | last x hk hv hE =>
    rw [hE, bag_cons, hk, hv, Multiset.replicate_one, Multiset.singleton_add,
      Multiset.erase_cons_head]
  | more R x x' hk hk' hv hpos hE hE' =>
    rw [hE, hE', bag_cons, bag_cons, hk, hk', hv, Multiset.replicate_succ, Multiset.cons_add,
      Multiset.erase_cons_head]

/-- The keys lose `k` exactly when its last occurrence goes. -/
theorem Lower.keys (h : Lower key val k E E') :
    E'.map key = E.map key ∨ E.map key = k ::ₘ E'.map key := by
  cases h with
  | absent hE hE' => exact Or.inl (by rw [hE'])
  | last x hk hv hE => exact Or.inr (by rw [hE, Multiset.map_cons, hk])
  | more R x x' hk hk' hv hpos hE hE' =>
    exact Or.inl (by rw [hE, hE', Multiset.map_cons, Multiset.map_cons, hk, hk'])

theorem Lower.mem_keys (h : Lower key val k E E') {k' : κ} (hk' : k' ∈ E'.map key) :
    k' ∈ E.map key := by
  rcases h.keys with he | he
  · rwa [he] at hk'
  · rw [he]
    exact Multiset.mem_cons_of_mem hk'

theorem Lower.nodup (h : Lower key val k E E') (hnd : (E.map key).Nodup) :
    (E'.map key).Nodup := by
  rcases h.keys with he | he
  · rwa [he]
  · rw [he] at hnd
    exact (Multiset.nodup_cons.mp hnd).2

/-- An entry goes exactly when its key is held once. -/
theorem Lower.card [DecidableEq κ] (h : Lower key val k E E') (hnd : (E.map key).Nodup) :
    E.card = E'.card + if total key val E k = 1 then 1 else 0 := by
  cases h with
  | absent hE hE' => rw [total_eq_zero hE, hE', if_neg (by omega), Nat.add_zero]
  | last x hk hv hE =>
    rw [hE, Multiset.map_cons, hk] at hnd
    rw [hE, total_cons, if_pos hk, total_eq_zero (Multiset.nodup_cons.mp hnd).1, hv, if_pos rfl,
      Multiset.card_cons]
  | more R x x' hk hk' hv hpos hE hE' =>
    rw [hE, hE', total_cons, if_pos hk, Multiset.card_cons, Multiset.card_cons,
      if_neg (by omega), Nat.add_zero]

/-- A count that is not taken out stays positive and does not grow. -/
theorem Lower.mem (h : Lower key val k E E') {e : ε} (he : e ∈ E') :
    e ∈ E ∨ (0 < val e ∧ ∃ x ∈ E, val e < val x) := by
  cases h with
  | absent hE hE' => exact Or.inl (hE' ▸ he)
  | last x hk hv hE => exact Or.inl (hE ▸ Multiset.mem_cons_of_mem he)
  | more R x x' hk hk' hv hpos hE hE' =>
    rw [hE'] at he
    rw [hE]
    rcases Multiset.mem_cons.mp he with rfl | he
    · exact Or.inr ⟨hpos, x, Multiset.mem_cons_self _ _, by omega⟩
    · exact Or.inl (Multiset.mem_cons_of_mem he)

end Lower

end CountedBag
