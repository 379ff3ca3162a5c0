import Mathlib.Control.Basic

/-!
# Transition systems with labelled steps

`step s a s'` says that the action `a` may take the system from `s` to `s'`. `guard s a` restricts
the runs that are looked at to those whose every action is taken in a state that allows it.

* `Reach step guard init`: the states reached by such runs.
* `Reach.invariant`: **the induction rule**, a property of the first state that every allowed step
  preserves holds in every reached state.
* `foldlM_concat`: the last action of a run of a partial step function.
* `Reach.of_foldlM`, `Reach.exists_foldlM`: a run given by its list of actions.
* `withHistory`: a system that also records what has happened; `reach_withHistory_iff` says that the
  record restricts no run.
-/

namespace Transition

variable {σ α : Type}

/-- The states reached from `init` by actions that `guard` allows. -/
inductive Reach (step : σ → α → σ → Prop) (guard : σ → α → Prop) (init : σ) : σ → Prop
  | init : Reach step guard init init
  | step {s s' : σ} (a : α) (hs : Reach step guard init s) (hg : guard s a) (h : step s a s') :
      Reach step guard init s'

section Reach

variable {step : σ → α → σ → Prop} {guard : σ → α → Prop} {init s : σ}

/-- **The induction rule**: what holds at first and is kept by every allowed step holds in every
reached state. -/
theorem Reach.invariant {Inv : σ → Prop} (h0 : Inv init)
    (hstep : ∀ s a s', Inv s → guard s a → step s a s' → Inv s') (h : Reach step guard init s) :
    Inv s := by
  induction h with
  | init => exact h0
  | step a _ hg h ih => exact hstep _ a _ ih hg h

/-- A guard that allows more. -/
theorem Reach.mono {guard' : σ → α → Prop} (hguard : ∀ s a, guard s a → guard' s a)
    (h : Reach step guard init s) : Reach step guard' init s := by
  induction h with
  | init => exact .init
  | step a _ hg h ih => exact .step a ih (hguard _ a hg) h

end Reach

/-- The last action of a run of a partial step function. -/
theorem foldlM_concat {next : σ → α → Option σ} {as : List α} {a : α} {s s' : σ}
    (h : as.foldlM next s = some s') : (as ++ [a]).foldlM next s = next s' a := by
  rw [List.foldlM_append, h]
  simp

/-- A run of a partial step function, given by its list of actions, each tested against the guard
before it is taken. -/
theorem Reach.of_foldlM {next : σ → α → Option σ} {guard : σ → α → Prop}
    [∀ s a, Decidable (guard s a)] {init : σ} : ∀ (as : List α) {s s' : σ},
    Reach (fun s a s' => next s a = some s') guard init s →
    as.foldlM (fun s a => if guard s a then next s a else none) s = some s' →
    Reach (fun s a s' => next s a = some s') guard init s'
  | [], s, s', hs, h => by
    obtain rfl : s = s' := Option.some.inj h
    exact hs
  | a :: as, s, s', hs, h => by
    rw [List.foldlM_cons, Option.bind_eq_bind, Option.bind_eq_some_iff] at h
    obtain ⟨s₁, hstep, h⟩ := h
    rw [Option.ite_none_right_eq_some] at hstep
    exact Reach.of_foldlM as (.step a hs hstep.1 hstep.2) h

/-- A test of the last state of such a run, which goes on from a reached state. -/
theorem Reach.exists_foldlM {next : σ → α → Option σ} {guard : σ → α → Prop}
    [∀ s a, Decidable (guard s a)] {init s : σ} (as : List α) (p : σ → Bool)
    (hs : Reach (fun s a s' => next s a = some s') guard init s)
    (h : (as.foldlM (fun s a => if guard s a then next s a else none) s).any p = true) :
    ∃ s', Reach (fun s a s' => next s a = some s') guard init s' ∧ p s' = true := by
  rw [Option.any_eq_true] at h
  obtain ⟨s', hs', hp⟩ := h
  exact ⟨s', .of_foldlM as hs hs', hp⟩

/-- A test of the last state of a run from the first. -/
theorem Reach.exists_of_foldlM (next : σ → α → Option σ) (guard : σ → α → Prop)
    [∀ s a, Decidable (guard s a)] (init : σ) (as : List α) (p : σ → Bool)
    (h : (as.foldlM (fun s a => if guard s a then next s a else none) init).any p = true) :
    ∃ s, Reach (fun s a s' => next s a = some s') guard init s ∧ p s = true :=
  Reach.exists_foldlM as p .init h

/-! ## History variables -/

section History

variable {η : Type} {next : σ → α → Option σ} {record : σ → α → η → η} {w w' : σ × η} {a : α}

/-- A step together with its record, which may look at the state before the step. -/
def withHistory (next : σ → α → Option σ) (record : σ → α → η → η) (w : σ × η) (a : α) :
    Option (σ × η) :=
  (next w.1 a).map fun s => (s, record w.1 a w.2)

theorem withHistory_eq_some_iff : withHistory next record w a = some w' ↔
    next w.1 a = some w'.1 ∧ w'.2 = record w.1 a w.2 := by
  obtain ⟨s', h'⟩ := w'
  rw [withHistory, Option.map_eq_some_iff]
  constructor
  · rintro ⟨s, hs, heq⟩
    obtain ⟨rfl, rfl⟩ := Prod.mk.inj heq
    exact ⟨hs, rfl⟩
  · rintro ⟨hs, rfl⟩
    exact ⟨s', hs, rfl⟩

/-- The states reached with a record are the states reached. -/
theorem reach_withHistory_iff (guard : σ → α → Prop) {init s : σ} {h : η} :
    (∃ h', Reach (fun w a w' => withHistory next record w a = some w') (fun w a => guard w.1 a)
      (init, h) (s, h')) ↔ Reach (fun s a s' => next s a = some s') guard init s := by
  constructor
  · suffices hfst : ∀ w, Reach (fun w a w' => withHistory next record w a = some w')
        (fun w a => guard w.1 a) (init, h) w →
        Reach (fun s a s' => next s a = some s') guard init w.1
      from fun ⟨h', hs⟩ => hfst (s, h') hs
    intro w hw
    induction hw with
    | init => exact .init
    | step a _ hg hstep ih => exact .step a ih hg (withHistory_eq_some_iff.mp hstep).1
  · intro hs
    induction hs with
    | init => exact ⟨h, .init⟩
    | step a _ hg hstep ih =>
      obtain ⟨h', hs'⟩ := ih
      exact ⟨_, .step a hs' hg (withHistory_eq_some_iff.mpr ⟨hstep, rfl⟩)⟩

end History

end Transition
