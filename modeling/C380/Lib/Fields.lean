import Mathlib.Data.List.Basic
import Mathlib.Data.Nat.Digits.Lemmas

/-!
# Texts that can be taken apart

A text made of fields determines the fields when each ends at a separator that it does not have, or
when all have one length.

* `append_sep_inj`, `flatMap_sep_inj`: fields that end at a separator.
* `flatMap_block_inj`: fields of one length.
* `padded_inj`: numerals, with any number of zeros in front.
-/

namespace Fields

/-! ## Separators -/

section Separator

variable {α : Type} {sep : α}

/-- **The field before the first separator.** -/
theorem append_sep_inj {a b x y : List α} (ha : sep ∉ a) (hb : sep ∉ b) :
    a ++ sep :: x = b ++ sep :: y ↔ a = b ∧ x = y := by
  refine ⟨fun h => ?_, fun ⟨hab, hxy⟩ => by rw [hab, hxy]⟩
  induction a generalizing b with
  | nil =>
    cases b with
    | nil => exact ⟨rfl, (List.cons.inj h).2⟩
    | cons c b => exact absurd ((List.cons.inj h).1 ▸ List.mem_cons_self) hb
  | cons c a ih =>
    cases b with
    | nil => exact absurd ((List.cons.inj h).1 ▸ List.mem_cons_self) ha
    | cons d b =>
      obtain ⟨rfl, htail⟩ := List.cons.inj h
      obtain ⟨rfl, rfl⟩ :=
        ih (List.not_mem_of_not_mem_cons ha) (List.not_mem_of_not_mem_cons hb) htail
      exact ⟨rfl, rfl⟩

/-- **Any number of fields**, each with a separator behind it. -/
theorem flatMap_sep_inj : ∀ {as bs : List (List α)}, (∀ a ∈ as, sep ∉ a) → (∀ b ∈ bs, sep ∉ b) →
    (as.flatMap fun a => a ++ [sep]) = (bs.flatMap fun b => b ++ [sep]) → as = bs
  | [], [], _, _, _ => rfl
  | [], b :: bs, _, _, h => by simp at h
  | a :: as, [], _, _, h => by simp at h
  | a :: as, b :: bs, ha, hb, h => by
    simp only [List.flatMap_cons, List.append_assoc, List.singleton_append] at h
    obtain ⟨rfl, hrest⟩ :=
      (append_sep_inj (ha a List.mem_cons_self) (hb b List.mem_cons_self)).mp h
    rw [flatMap_sep_inj (fun c hc => ha c (List.mem_cons_of_mem _ hc))
      (fun c hc => hb c (List.mem_cons_of_mem _ hc)) hrest]

end Separator

/-! ## Fields of one length -/

/-- **Any number of fields of one length.** -/
theorem flatMap_block_inj {α β : Type} {f : β → List α} {k : ℕ} (hk : k ≠ 0)
    (hlen : ∀ x, (f x).length = k) : ∀ {xs ys : List β}, xs.flatMap f = ys.flatMap f →
    xs.map f = ys.map f
  | [], [], _ => rfl
  | [], y :: ys, h => by
    have := congrArg List.length h
    simp only [List.flatMap_nil, List.flatMap_cons, List.length_append, hlen] at this
    exact absurd this.symm (by simp [hk])
  | x :: xs, [], h => by
    have := congrArg List.length h
    simp only [List.flatMap_nil, List.flatMap_cons, List.length_append, hlen] at this
    exact absurd this (by simp [hk])
  | x :: xs, y :: ys, h => by
    obtain ⟨hfirst, hrest⟩ := List.append_inj h ((hlen x).trans (hlen y).symm)
    rw [List.map_cons, List.map_cons, hfirst, flatMap_block_inj hk hlen hrest]

/-! ## Lists of texts -/

/-- Two lists of texts are equal iff what the texts tell is. -/
theorem map_eq_map_congr {α β γ δ : Type} {f : α → γ} {g : β → γ} {f' : α → δ} {g' : β → δ} :
    ∀ {xs : List α} {ys : List β}, (∀ x ∈ xs, ∀ y ∈ ys, f x = g y ↔ f' x = g' y) →
    (xs.map f = ys.map g ↔ xs.map f' = ys.map g')
  | [], [], _ => by simp
  | [], y :: ys, _ => by simp
  | x :: xs, [], _ => by simp
  | x :: xs, y :: ys, h => by
    have hrest := map_eq_map_congr fun a ha b hb =>
      h a (List.mem_cons_of_mem x ha) b (List.mem_cons_of_mem y hb)
    simp only [List.map_cons, List.cons.injEq, hrest,
      h x List.mem_cons_self y List.mem_cons_self]

/-! ## Numerals -/

section Numeral

variable {α : Type} {b : ℕ} {digit : ℕ → α} {value : α → ℕ}

/-- A numeral in base `b` with `k` zeros in front, `digit` being the characters. -/
def padded (b : ℕ) (digit : ℕ → α) (k n : ℕ) : List α :=
  (List.replicate k 0 ++ (b.digits n).reverse).map digit

theorem length_padded (k n : ℕ) : (padded b digit k n).length = k + (b.digits n).length := by
  rw [padded, List.length_map, List.length_append, List.length_replicate, List.length_reverse]

/-- **Zeros in front do not change a number**: a numeral has one value. -/
theorem padded_inj (hb : 1 < b) (hvalue : ∀ d < b, value (digit d) = d) {k k' n n' : ℕ}
    (h : padded b digit k n = padded b digit k' n') : n = n' := by
  have hread : ∀ j m, Nat.ofDigits b ((padded b digit j m).map value).reverse = m := by
    intro j m
    have hdigits : (padded b digit j m).map value =
        List.replicate j 0 ++ (b.digits m).reverse := by
      rw [padded, List.map_map]
      refine (List.map_congr_left fun d hd => hvalue d ?_).trans (List.map_id _)
      rcases List.mem_append.mp hd with hd | hd
      · rw [List.eq_of_mem_replicate hd]
        omega
      · exact Nat.digits_lt_base hb (List.mem_reverse.mp hd)
    rw [hdigits, List.reverse_append, List.reverse_reverse, List.reverse_replicate,
      Nat.ofDigits_append_replicate_zero, Nat.ofDigits_digits]
  rw [← hread k n, h, hread]

end Numeral

end Fields
