import Mathlib.Data.List.Basic

/-!
# Lists of options

The arguments of a program that takes options with values, `flag value flag value …`, as a list of
pairs.

* `flatten` is the list of the arguments.
* `lastValue k` is the last value given for the flag `k`; `foldl_field` says that a field that each
  option with its flag overwrites ends with it.
* `Rearranged` is a permutation that exchanges only neighbours with distinct flags. It keeps the
  last values (`Rearranged.lastValue_eq`), and every permutation of options that are all distinct is
  one (`rearranged_of_perm`).
-/

namespace OptionList

variable {α β : Type*}

/-- The arguments that the options are written as. -/
def flatten (ps : List (α × α)) : List α := ps.flatMap fun p => [p.1, p.2]

@[simp] theorem flatten_nil : flatten ([] : List (α × α)) = [] := rfl

@[simp] theorem flatten_cons (p : α × α) (ps : List (α × α)) :
    flatten (p :: ps) = p.1 :: p.2 :: flatten ps := rfl

/-- Some neighbours with distinct flags change places, one after the other. -/
inductive Rearranged : List (α × β) → List (α × β) → Prop
  | nil : Rearranged [] []
  | cons (p : α × β) {ps qs : List (α × β)} (h : Rearranged ps qs) : Rearranged (p :: ps) (p :: qs)
  | swap {p q : α × β} (h : p.1 ≠ q.1) (ps : List (α × β)) :
    Rearranged (p :: q :: ps) (q :: p :: ps)
  | trans {ps qs rs : List (α × β)} (h : Rearranged ps qs) (h' : Rearranged qs rs) :
    Rearranged ps rs

theorem Rearranged.perm {ps qs : List (α × β)} (h : Rearranged ps qs) : ps.Perm qs := by
  induction h with
  | nil => exact .nil
  | cons p _ ih => exact ih.cons p
  | swap _ ps => exact .swap _ _ ps
  | trans _ _ ih ih' => exact ih.trans ih'

/-- Options of distinct flags may be permuted at will. -/
theorem rearranged_of_perm {ps qs : List (α × β)} (h : ps.Perm qs)
    (hnodup : (ps.map Prod.fst).Nodup) : Rearranged ps qs := by
  induction h with
  | nil => exact .nil
  | cons p _ ih => exact (ih (List.nodup_cons.mp hnodup).2).cons p
  | swap p q ps =>
    refine .swap (fun heq => ?_) ps
    exact (List.nodup_cons.mp hnodup).1 (heq ▸ List.mem_cons_self)
  | trans h _ ih ih' => exact (ih hnodup).trans (ih' ((h.map Prod.fst).nodup_iff.mp hnodup))

section LastValue

variable [DecidableEq α] {k : α}

/-- The last value given for the flag. -/
def lastValue (k : α) (ps : List (α × β)) : Option β := ps.reverse.lookup k

@[simp] theorem lastValue_nil : lastValue k ([] : List (α × β)) = none := rfl

theorem lastValue_cons (p : α × β) (ps : List (α × β)) :
    lastValue k (p :: ps) = (lastValue k ps).or (if p.1 = k then some p.2 else none) := by
  rcases p with ⟨flag, value⟩
  rw [lastValue, List.reverse_cons, List.lookup_append, List.lookup_cons, List.lookup_nil]
  by_cases h : flag = k
  · rw [if_pos h, beq_iff_eq.mpr h.symm, lastValue]
  · rw [if_neg h, beq_false_of_ne (Ne.symm h), lastValue]

theorem lastValue_isSome {ps : List (α × β)} :
    (lastValue k ps).isSome = true ↔ ∃ p ∈ ps, p.1 = k := by
  simp only [lastValue, List.lookup_isSome_iff, List.mem_reverse, beq_iff_eq, @eq_comm _ k]

/-- Distinct flags do not see each other. -/
theorem Rearranged.lastValue_eq {ps qs : List (α × β)} (h : Rearranged ps qs) :
    lastValue k ps = lastValue k qs := by
  induction h with
  | nil => rfl
  | cons p _ ih => rw [lastValue_cons, lastValue_cons, ih]
  | @swap p q hne ps =>
    simp only [lastValue_cons, Option.or_assoc]
    congr 1
    by_cases hp : p.1 = k
    · rw [if_pos hp, if_neg (fun hq => hne (hp.trans hq.symm)), Option.none_or, Option.or_none]
    · rw [if_neg hp, Option.none_or, Option.or_none]
  | trans _ _ ih ih' => exact ih.trans ih'

/-- **A field that each option with its flag overwrites** ends with the last value. -/
theorem foldl_field {σ γ : Type*} {step : σ → α × β → σ} {g : σ → γ} {f : β → γ}
    (hstep : ∀ s p, g (step s p) = if p.1 = k then f p.2 else g s) (ps : List (α × β)) (s : σ) :
    g (ps.foldl step s) = ((lastValue k ps).map f).getD (g s) := by
  induction ps generalizing s with
  | nil => rfl
  | cons p ps ih =>
    rw [List.foldl_cons, ih, lastValue_cons, hstep]
    cases lastValue k ps with
    | some value => rfl
    | none => by_cases hp : p.1 = k <;> simp [hp]

end LastValue

/-- A field that no option writes. -/
theorem foldl_kept {σ γ : Type*} {step : σ → α × β → σ} {g : σ → γ}
    (hstep : ∀ s p, g (step s p) = g s) (ps : List (α × β)) (s : σ) :
    g (ps.foldl step s) = g s := by
  induction ps generalizing s with
  | nil => rfl
  | cons p ps ih => rw [List.foldl_cons, ih, hstep]

end OptionList
