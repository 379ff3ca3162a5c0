import Mathlib.Data.List.Induction

/-!
# Doubly-linked segments

A memory is given by what it holds: `cell p v n q` says that the node at address `p` has the value
`v`, the link `n` to the next node and the link `q` to the previous one. `Seg cell prev l next`
says that the nodes `l` (addresses with their values) are linked in this order, the first back to
`prev` and the last on to `next`.

* `seg_append`: a segment splits anywhere, each half seeing the other's end. This is how a node at
  either end is reached.
* `Seg.congr`: the frame. A memory that agrees on the nodes of a segment keeps it.
* `Seg.follows_next`, `Seg.follows_prev`: following either link from either end visits the nodes
  in order, or in reverse, and ends in the null address.
-/

namespace DoublyLinked

variable {α β : Type}

/-- The address of the first node, or `next` without one. -/
def first (next : α) : List (α × β) → α
  | [] => next
  | x :: _ => x.1

/-- The address of the last node, or `prev` without one. -/
def final (prev : α) : List (α × β) → α
  | [] => prev
  | x :: l => final x.1 l

/-- The nodes `l` linked in this order, between `prev` and `next`. -/
def Seg (cell : α → β → α → α → Prop) (prev : α) : List (α × β) → α → Prop
  | [], _ => True
  | x :: l, next => cell x.1 x.2 (first next l) prev ∧ Seg cell x.1 l next

@[simp] theorem first_nil (next : α) : first next ([] : List (α × β)) = next := rfl

@[simp] theorem first_cons (next : α) (x : α × β) (l : List (α × β)) :
    first next (x :: l) = x.1 := rfl

@[simp] theorem final_nil (prev : α) : final prev ([] : List (α × β)) = prev := rfl

@[simp] theorem final_cons (prev : α) (x : α × β) (l : List (α × β)) :
    final prev (x :: l) = final x.1 l := rfl

@[simp] theorem final_concat (x : α × β) : ∀ (prev : α) (l : List (α × β)),
    final prev (l ++ [x]) = x.1
  | _, [] => rfl
  | _, y :: l => final_concat x y.1 l

theorem first_append (next : α) : ∀ l l' : List (α × β),
    first next (l ++ l') = first (first next l') l
  | [], _ => rfl
  | _ :: _, _ => rfl

theorem first_mem (null : α) {l : List (α × β)} (h : l ≠ []) : first null l ∈ l.map Prod.fst := by
  cases l with
  | nil => exact absurd rfl h
  | cons x l => exact List.mem_cons_self

theorem final_mem (null : α) : ∀ {l : List (α × β)}, l ≠ [] → final null l ∈ l.map Prod.fst := by
  intro l h
  induction l using List.reverseRecOn with
  | nil => exact absurd rfl h
  | append_singleton l x _ =>
    rw [final_concat]
    simp

/-- **A segment splits anywhere.** -/
theorem seg_append {cell : α → β → α → α → Prop} : ∀ {prev next : α} {l l' : List (α × β)},
    Seg cell prev (l ++ l') next ↔ Seg cell prev l (first next l') ∧ Seg cell (final prev l) l' next
  | prev, next, [], l' => by simp [Seg]
  | prev, next, x :: l, l' => by
    rw [List.cons_append, Seg, Seg, seg_append, first_append, final_cons, and_assoc]

/-- **The frame**: only the nodes of the segment matter. -/
theorem Seg.congr {cell cell' : α → β → α → α → Prop} : ∀ {prev next : α} {l : List (α × β)},
    Seg cell prev l next → (∀ x ∈ l, ∀ n q, cell x.1 x.2 n q → cell' x.1 x.2 n q) →
    Seg cell' prev l next
  | _, _, [], _, _ => trivial
  | _, _, x :: _, ⟨hx, hl⟩, h =>
    ⟨h x List.mem_cons_self _ _ hx, hl.congr fun y hy => h y (List.mem_cons_of_mem _ hy)⟩

/-- The nodes visited from `p` along the links until the null address. -/
inductive Follows (link : α → β → α → Prop) (null : α) : α → List (α × β) → Prop
  | nil : Follows link null null []
  | cons {p q : α} {v : β} {l : List (α × β)} (hp : p ≠ null) (hlink : link p v q)
      (hl : Follows link null q l) : Follows link null p ((p, v) :: l)

section Follows

variable {cell : α → β → α → α → Prop} {null : α}

/-- **Forward**: the next links visit the nodes in order. -/
theorem Seg.follows_next : ∀ {prev : α} {l : List (α × β)}, Seg cell prev l null →
    (∀ x ∈ l, x.1 ≠ null) → Follows (fun p v n => ∃ q, cell p v n q) null (first null l) l
  | _, [], _, _ => .nil
  | prev, x :: _, ⟨hx, hl⟩, hne =>
    .cons (hne x List.mem_cons_self) ⟨prev, hx⟩
      (hl.follows_next fun y hy => hne y (List.mem_cons_of_mem _ hy))

/-- **Backward**: the previous links visit them in reverse. -/
theorem Seg.follows_prev {next : α} {l : List (α × β)} (h : Seg cell null l next)
    (hne : ∀ x ∈ l, x.1 ≠ null) :
    Follows (fun p v q => ∃ n, cell p v n q) null (final null l) l.reverse := by
  induction l using List.reverseRecOn generalizing next with
  | nil => exact .nil
  | append_singleton l x ih =>
    obtain ⟨hl, hx, -⟩ := seg_append.mp h
    rw [final_concat, List.reverse_concat]
    exact .cons (hne x (by simp)) ⟨_, hx⟩
      (ih hl fun y hy => hne y (List.mem_append_left _ hy))

end Follows

end DoublyLinked
