import Mathlib.Logic.Function.Iterate
import Mathlib.Order.Filter.AtTopBot.Basic

/-!
# Infinite runs and what fairness gives

An infinite run takes an action at every time. What is assumed of a scheduler is that actions of
some kinds come again and again (`Run.Often`); what is concluded is that a state of one kind is
followed, sooner or later, by one of another (`Run.LeadsTo`).

* `Run.invariant`: what every step keeps holds at every time.
* `Run.leadsTo_of_often`: **one kind of action is awaited**.
* `Run.leadsTo_of_rank`: **in every state one kind of action helps**, it brings the rank down, and
  no other action brings it up or changes what helps.
* `Run.exists_iterate`, `Run.Often.exists_taken`: places that are passed in a cycle.
* `Run.ofActions`: a run given by its actions.
-/

namespace Transition

open Filter

variable {σ α κ β : Type}

/-- An infinite run. -/
structure Run (step : σ → α → σ → Prop) where
  state : ℕ → σ
  action : ℕ → α
  next : ∀ n, step (state n) (action n) (state (n + 1))

variable {step : σ → α → σ → Prop} {r : Run step} {P Q R : σ → Prop}

/-- Actions of this kind come again and again. -/
def Run.Often (r : Run step) (kind : σ → α → Prop) : Prop :=
  ∃ᶠ n in atTop, kind (r.state n) (r.action n)

/-- After a state with `P` there comes one with `Q`, or it is one. -/
def Run.LeadsTo (r : Run step) (P Q : σ → Prop) : Prop :=
  ∀ n, P (r.state n) → ∃ m ≥ n, Q (r.state m)

theorem Run.invariant (hstep : ∀ s a s', P s → step s a s' → P s') (h0 : P (r.state 0)) (n : ℕ) :
    P (r.state n) := by
  induction n with
  | zero => exact h0
  | succ n ih => exact hstep _ _ _ ih (r.next n)

/-- What every step from it keeps until an action of an awaited kind still holds when one comes. -/
theorem Run.Often.exists_taken {kind : σ → α → Prop} (h : r.Often kind)
    (hstep : ∀ s a s', step s a s' → P s → ¬ kind s a → P s') {n : ℕ} (hn : P (r.state n)) :
    ∃ m ≥ n, P (r.state m) ∧ kind (r.state m) (r.action m) := by
  obtain ⟨k, hnk, hk⟩ := frequently_atTop.mp h n
  obtain ⟨d, rfl⟩ := Nat.exists_eq_add_of_le hnk
  clear hnk
  induction d generalizing n with
  | zero => exact ⟨n, le_rfl, hn, hk⟩
  | succ d ih =>
    by_cases hnow : kind (r.state n) (r.action n)
    · exact ⟨n, le_rfl, hn, hnow⟩
    · rw [← Nat.add_assoc, Nat.add_right_comm] at hk
      obtain ⟨m, hm, hend⟩ := ih (hstep _ _ _ (r.next n) hn hnow) hk
      exact ⟨m, (Nat.le_succ n).trans hm, hend⟩

/-- **An awaited kind of action**: from `P` every step goes to `Q` or keeps `P`, and those of the
kind go to `Q`. -/
theorem Run.leadsTo_of_often {kind : σ → α → Prop} (h : r.Often kind)
    (hstep : ∀ s a s', step s a s' → P s → Q s' ∨ P s' ∧ ¬ kind s a) : r.LeadsTo P Q := by
  intro n hn
  by_contra! hnone
  have hall : ∀ d, P (r.state (n + d)) := by
    intro d
    induction d with
    | zero => exact hn
    | succ d ih => exact ((hstep _ _ _ (r.next (n + d)) ih).resolve_left (hnone _ (by omega))).1
  obtain ⟨k, hnk, hk⟩ := frequently_atTop.mp h n
  obtain ⟨d, rfl⟩ := Nat.exists_eq_add_of_le hnk
  rcases hstep _ _ _ (r.next (n + d)) (hall d) with hq | ⟨-, hnot⟩
  · exact hnone _ (by omega) hq
  · exact hnot hk

/-- **The rule of the helpful action.** Each state says which kind of action helps; every kind comes
again and again; a step reaches the goal, brings the rank down, or leaves the rank and the kind that
helps as they are, and then it was not of that kind. -/
theorem Run.leadsTo_of_rank [Preorder β] [WellFoundedLT β] (rank : σ → β) (helpful : σ → κ)
    {kind : κ → σ → α → Prop} (hfair : ∀ k, r.Often (kind k))
    (hstep : ∀ s a s', step s a s' → P s → Q s' ∨ P s' ∧ (rank s' < rank s ∨
      rank s' = rank s ∧ helpful s' = helpful s ∧ ¬ kind (helpful s) s a)) : r.LeadsTo P Q := by
  intro n
  induction hb : rank (r.state n) using WellFoundedLT.induction generalizing n with
  | ind b ih =>
    intro hn
    -- as long as the rank is `b`, the same kind of action helps
    have hdown : r.LeadsTo
        (fun s => P s ∧ rank s = b ∧ helpful s = helpful (r.state n))
        (fun s => Q s ∨ P s ∧ rank s < b) := by
      refine Run.leadsTo_of_often (hfair (helpful (r.state n))) fun s a s' hs hp => ?_
      obtain ⟨hp, hrank, hhelp⟩ := hp
      rcases hstep s a s' hs hp with hq | ⟨hp', hlt | ⟨heq, hsame, hnot⟩⟩
      · exact Or.inl (Or.inl hq)
      · exact Or.inl (Or.inr ⟨hp', hrank ▸ hlt⟩)
      · exact Or.inr ⟨⟨hp', heq.trans hrank, hsame.trans hhelp⟩, hhelp ▸ hnot⟩
    obtain ⟨m, hm, hq | ⟨hp, hlt⟩⟩ := hdown n ⟨hn, hb, rfl⟩
    · exact ⟨m, hm, hq⟩
    · obtain ⟨k, hk, hq⟩ := ih _ hlt m rfl hp
      exact ⟨k, hm.trans hk, hq⟩

/-- Places that lead from one to the next are passed in turn. -/
theorem Run.exists_iterate (place : σ → κ) (succ : κ → κ)
    (h : ∀ k, r.LeadsTo (fun s => place s = k) (fun s => place s = succ k)) (n i : ℕ) :
    ∃ m ≥ n, place (r.state m) = succ^[i] (place (r.state n)) := by
  induction i with
  | zero => exact ⟨n, le_rfl, rfl⟩
  | succ i ih =>
    obtain ⟨m, hm, hplace⟩ := ih
    obtain ⟨k, hk, hnext⟩ := h _ m hplace
    exact ⟨k, hm.trans hk, hnext.trans (Function.iterate_succ_apply' succ i _).symm⟩

/-! ## Runs given by their actions -/

/-- The states of a partial step function, which stays where an action cannot be taken. -/
def statesOf (next : σ → α → Option σ) (init : σ) (action : ℕ → α) : ℕ → σ
  | 0 => init
  | n + 1 => (next (statesOf next init action n) (action n)).getD (statesOf next init action n)

/-- The run of actions each of which can be taken when it comes. -/
def Run.ofActions (next : σ → α → Option σ) (init : σ) (action : ℕ → α)
    (h : ∀ n, (next (statesOf next init action n) (action n)).isSome) :
    Run fun s a s' => next s a = some s' where
  state := statesOf next init action
  action := action
  next n := by
    obtain ⟨s, hs⟩ := Option.isSome_iff_exists.mp (h n)
    rw [statesOf, hs, Option.getD_some]

end Transition
