import Mathlib.Algebra.BigOperators.Group.Multiset.Basic
import Mathlib.Data.Multiset.AddSub

/-!
# Sliding windows over a list of items

A window of width `w` over the items seen so far is `last w items`. It is kept as a queue: `slide`
puts the new item at the end and drops the front when the queue is longer than `w`.

* `slide_last`: sliding the window of a list by an item gives the window of the longer list.
* `pool f q` is the multiset of everything the items of `q` contribute. `pool_cons` and
  `pool_concat` update it with the item that leaves and the item that enters, and `foldl_erase`
  takes an item's contribution out one element at a time.
-/

namespace SlidingWindow

variable {ρ κ : Type}

/-- The last `w` items. -/
def last (w : ℕ) (l : List ρ) : List ρ := l.drop (l.length - w)

/-- The queue after `x` has entered a window of width `w`. -/
def slide (w : ℕ) (q : List ρ) (x : ρ) : List ρ :=
  if w < (q ++ [x]).length then (q ++ [x]).tail else q ++ [x]

@[simp] theorem last_nil (w : ℕ) : last w ([] : List ρ) = [] := by simp [last]

theorem length_last (w : ℕ) (l : List ρ) : (last w l).length = min l.length w := by
  rw [last, List.length_drop]
  omega

theorem last_map {σ : Type} (f : ρ → σ) (w : ℕ) (l : List ρ) :
    last w (l.map f) = (last w l).map f := by
  rw [last, last, List.length_map, List.map_drop]

/-- **Sliding keeps the window the last `w` items.** -/
theorem slide_last (w : ℕ) (l : List ρ) (x : ρ) : slide w (last w l) x = last w (l ++ [x]) := by
  have hlen := length_last w l
  unfold slide
  rw [List.length_append, hlen, List.length_singleton]
  by_cases hw : w ≤ l.length
  · rw [if_pos (by omega)]
    unfold last
    rw [List.length_append, List.length_singleton, ← List.drop_append_of_le_length (by omega),
      List.tail_drop]
    congr 1
    omega
  · rw [if_neg (by omega)]
    unfold last
    rw [List.length_append, List.length_singleton, Nat.sub_eq_zero_of_le (by omega),
      Nat.sub_eq_zero_of_le (by omega), List.drop_zero, List.drop_zero]

/-- Everything the items contribute. -/
def pool (f : ρ → Multiset κ) (q : List ρ) : Multiset κ := (q.map f).sum

section Pool

variable {f : ρ → Multiset κ}

@[simp] theorem pool_nil : pool f [] = 0 := rfl

@[simp] theorem pool_cons (x : ρ) (q : List ρ) : pool f (x :: q) = f x + pool f q := by
  simp [pool]

theorem pool_concat (q : List ρ) (x : ρ) : pool f (q ++ [x]) = f x + pool f q := by
  simp [pool, add_comm]

theorem mem_pool {q : List ρ} {k : κ} : k ∈ pool f q ↔ ∃ x ∈ q, k ∈ f x := by
  induction q with
  | nil => simp
  | cons x q ih => simp [ih]

/-- Erasing the elements of a list one after another. -/
theorem foldl_erase [DecidableEq κ] : ∀ (l : List κ) (S : Multiset κ),
    l.foldl Multiset.erase ((l : Multiset κ) + S) = S
  | [], S => by simp
  | a :: l, S => by
    rw [List.foldl_cons, ← Multiset.cons_coe, Multiset.cons_add, Multiset.erase_cons_head,
      foldl_erase l S]

end Pool

end SlidingWindow
