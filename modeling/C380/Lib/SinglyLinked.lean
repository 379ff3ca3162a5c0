import C380.Lib.Separation

/-!
# Singly-linked segments

`Seg node p l q` owns the nodes that hold the values `l`, linked in this order from `p`, the last
one on to `q`. `node v r` is the object of a node with the value `v` and the link `r`. A list that
ends is a segment to the null pointer.

* `seg_append`: a segment splits anywhere. This is how a node in the middle is reached.
* `seg_concat`: the last node, whose link leads on to the rest.
-/

namespace SinglyLinked

open Separation Separation.Assertion

variable {α β δ : Type} [DecidableEq α]

/-- The nodes of `l` linked in this order, from `p` to `q`. -/
def Seg (node : δ → Option α → β) (p : Option α) : List δ → Option α → Assertion α β
  | [], q => fact (p = q)
  | v :: l, q => ex fun r => pointsTo p (node v r) * Seg node r l q

variable {node : δ → Option α → β} {p q r : Option α} {v : δ} {l l' : List δ}

theorem seg_nil : Seg node p [] q = fact (p = q) := rfl

theorem seg_cons : Seg node p (v :: l) q = ex fun r => pointsTo p (node v r) * Seg node r l q := rfl

/-- A node in front of a segment. -/
theorem cons_le_seg : pointsTo p (node v r) * Seg node r l q ≤ Seg node p (v :: l) q :=
  le_ex r le_rfl

/-- The empty segment at a pointer. -/
@[simp] theorem seg_refl : Seg node p [] p = 1 := fact_eq_one rfl

/-- **A segment splits anywhere.** -/
theorem seg_append : ∀ {p : Option α} {l : List δ},
    Seg node p (l ++ l') q = ex fun r => Seg node p l r * Seg node r l' q
  | p, [] => by
    simp only [List.nil_append, seg_nil, eq_comm (a := p)]
    rw [ex_fact_mul]
  | p, v :: l => by
    rw [List.cons_append, seg_cons]
    simp only [seg_append (l := l), seg_cons, ex_mul, mul_ex, mul_assoc]
    ext h
    constructor
    · rintro ⟨r, r', h⟩
      exact ⟨r', r, h⟩
    · rintro ⟨r', r, h⟩
      exact ⟨r, r', h⟩

/-- One node. -/
theorem seg_singleton : Seg node p [v] q = pointsTo p (node v q) := by
  simp only [seg_cons, seg_nil, mul_comm _ (fact _)]
  rw [ex_fact_mul]

theorem seg_concat : Seg node p (l ++ [v]) q =
    ex fun r => Seg node p l r * pointsTo r (node v q) := by
  rw [seg_append]
  simp only [seg_singleton]

end SinglyLinked
