import C380.Lib.Transition

/-!
# Refinement between transition systems

A concrete system refines an abstract one when every step is nothing, or one abstract action, to an
observer who looks through a relation. `point s a` is the abstract action that takes effect with the
step `a`, if any; a run is recorded as the actions that have taken effect, in this order.

* `Trace step init as s`: the run `as` ends in `s`.
* `Simulates`: what one step has to satisfy.
* `Simulates.exists_trace`: **the record of a concrete run is an abstract run**, to a related state;
  `Simulates.exists_reach` leaves the record out.
-/

namespace Transition

variable {σ τ α β : Type}

/-- `s` is reached from `init` by the actions `as`, in this order. -/
inductive Trace (step : σ → α → σ → Prop) (init : σ) : List α → σ → Prop
  | nil : Trace step init [] init
  | concat {as : List α} {s s' : σ} (a : α) (hs : Trace step init as s) (h : step s a s') :
      Trace step init (as ++ [a]) s'

/-- A run reaches its last state. -/
theorem Trace.reach {step : σ → α → σ → Prop} {init s : σ} {as : List α}
    (h : Trace step init as s) : Reach step (fun _ _ => True) init s := by
  induction h with
  | nil => exact .init
  | concat a _ h ih => exact .step a ih trivial h

/-- Every step that `guard` allows is the point of an abstract action, or of none, and keeps `R`. -/
def Simulates (next : σ → α → Option σ) (guard : σ → α → Prop) (point : σ → α → Option β)
    (abstractStep : τ → β → τ → Prop) (R : σ → τ → Prop) : Prop :=
  ∀ s a s' t, R s t → guard s a → next s a = some s' →
    (point s a = none ∧ R s' t) ∨ ∃ b t', point s a = some b ∧ abstractStep t b t' ∧ R s' t'

/-- A step with the record of what has taken effect. -/
def recordPoints (next : σ → α → Option σ) (point : σ → α → Option β) :
    σ × List β → α → Option (σ × List β) :=
  withHistory next fun s a bs => bs ++ (point s a).toList

/-- **The record of a concrete run is an abstract run**, by induction on the run. -/
theorem Simulates.exists_trace {next : σ → α → Option σ} {guard : σ → α → Prop}
    {point : σ → α → Option β} {abstractStep : τ → β → τ → Prop} {R : σ → τ → Prop}
    (hsim : Simulates next guard point abstractStep R) {init : σ} {t₀ : τ} (h0 : R init t₀)
    {w : σ × List β} (h : Reach (fun w a w' => recordPoints next point w a = some w')
      (fun w a => guard w.1 a) (init, []) w) : ∃ t, Trace abstractStep t₀ w.2 t ∧ R w.1 t := by
  induction h with
  | init => exact ⟨t₀, .nil, h0⟩
  | @step w w' a _ hg hstep ih =>
    obtain ⟨t, ht, hR⟩ := ih
    obtain ⟨hnext, hrecord⟩ := withHistory_eq_some_iff.mp hstep
    rcases hsim w.1 a w'.1 t hR hg hnext with ⟨hpoint, hR'⟩ | ⟨b, t', hpoint, hb, hR'⟩
    · rw [hpoint, Option.toList_none, List.append_nil] at hrecord
      exact ⟨t, hrecord ▸ ht, hR'⟩
    · rw [hpoint, Option.toList_some] at hrecord
      exact ⟨t', hrecord ▸ ht.concat b hb, hR'⟩

/-- The same without the record. -/
theorem Simulates.exists_reach {next : σ → α → Option σ} {guard : σ → α → Prop}
    {point : σ → α → Option β} {abstractStep : τ → β → τ → Prop} {R : σ → τ → Prop}
    (hsim : Simulates next guard point abstractStep R) {init s : σ} {t₀ : τ} (h0 : R init t₀)
    (h : Reach (fun s a s' => next s a = some s') guard init s) :
    ∃ t, Reach abstractStep (fun _ _ => True) t₀ t ∧ R s t := by
  obtain ⟨bs, hbs⟩ := (reach_withHistory_iff guard).mpr h
  obtain ⟨t, htrace, hR⟩ := hsim.exists_trace h0 hbs
  exact ⟨t, htrace.reach, hR⟩

end Transition
