import C380.Notapp.Barrier

/-!
# One broadcast for each phase

The two loops of `user_thread` test the state and no phase number, so a user may be delayed across
several changes of the state. For each user the `READING` phases are recorded during which it has
completed a call of `send_entries`, one entry for each call; a call that is completed outside
`READING` is in none.

* `oncePerPhase`: **no user completes two calls during one phase**, in every run.

`OnceOk` is the invariant: a user that has completed a call in the phase that goes on waits for its
end, and only a state other than `READING` lets it out.
-/

namespace C380.Notapp

open Transition

/-- What is recorded of the completed calls: the number of `READING` phases so far, and for each
user the phases during which it has completed a call. -/
structure Completions (κ : Type) where
  phase : ℕ
  completed : κ → List ℕ

/-- Nobody has completed a call. -/
def Completions.init (κ : Type) : Completions κ := ⟨0, fun _ => []⟩

/-- The next step of the user is the last of `send_entries`. -/
def UserPc.completes (atomicIncrement : Bool) : UserPc → Bool
  | .loadDone => atomicIncrement
  | .storeDone _ => true
  | _ => false

variable {ι κ : Type} [DecidableEq ι] [DecidableEq κ]

/-- User `u` has completed a call. -/
def Completions.complete (h : Completions κ) (sh : Shared) (u : κ) : Completions κ :=
  { h with completed :=
    Function.update h.completed u ((sh.readingPhase h.phase).toList ++ h.completed u) }

@[simp] theorem Completions.complete_phase (h : Completions κ) (sh : Shared) (u : κ) :
    (h.complete sh u).phase = h.phase := rfl

@[simp] theorem Completions.complete_self (h : Completions κ) (sh : Shared) (u : κ) :
    (h.complete sh u).completed u = (sh.readingPhase h.phase).toList ++ h.completed u :=
  Function.update_self ..

theorem Completions.complete_of_ne (h : Completions κ) (sh : Shared) {u v : κ} (hvu : v ≠ u) :
    (h.complete sh u).completed v = h.completed v :=
  Function.update_of_ne hvu ..

/-- The record of a step. -/
def Completions.record (atomicIncrement : Bool) (s : System ι κ) (a : Action ι κ)
    (h : Completions κ) : Completions κ :=
  match a with
  | .sorter _ _ => if s.sorter = .setReading then { h with phase := h.phase + 1 } else h
  | .user u _ => if (s.user u).completes atomicIncrement then h.complete s.shared u else h
  | _ => h

/-- A step of the system with its record. -/
def completionStep (atomicIncrement : Bool) : System ι κ × Completions κ → Action ι κ →
    Option (System ι κ × Completions κ) :=
  withHistory (System.step atomicIncrement) (Completions.record atomicIncrement)

/-- Recording restricts no run. -/
theorem reach_completionStep_iff (atomicIncrement : Bool) (s : System ι κ) :
    (∃ h, Reach (fun w a w' => completionStep atomicIncrement w a = some w') (fun _ _ => True)
      (System.init ι κ, Completions.init κ) (s, h)) ↔
    Reach (fun s a s' => System.step atomicIncrement s a = some s') (fun _ _ => True)
      (System.init ι κ) s :=
  reach_withHistory_iff fun _ _ => True

/-- No user has completed two calls during one phase. -/
def OncePerPhase (h : Completions κ) : Prop := ∀ u, (h.completed u).Nodup

/-- The invariant of the completed calls. -/
structure OnceOk (w : System ι κ × Completions κ) : Prop where
  completed_le : ∀ u, ∀ p ∈ w.2.completed u, p ≤ w.2.phase
  once : OncePerPhase w.2
  waiting : w.1.shared.serverState = .reading → ∀ u, w.2.phase ∈ w.2.completed u →
    (w.1.user u).waiting = true

variable {w w' : System ι κ × Completions κ}

omit [DecidableEq ι] [DecidableEq κ] in
theorem onceOk_init : OnceOk (System.init ι κ, Completions.init κ) :=
  ⟨fun _ _ h => absurd h List.not_mem_nil, fun _ => List.nodup_nil, fun h => (nomatch h)⟩

/-! ## The steps keep the invariant -/

omit [DecidableEq ι] [DecidableEq κ] in
/-- A step that records nothing and moves no user. -/
theorem OnceOk.unrecorded (h : OnceOk w) {t : System ι κ} (huser : t.user = w.1.user)
    (hreading : t.shared.serverState = .reading → w.1.shared.serverState = .reading) :
    OnceOk (t, w.2) := by
  refine ⟨h.completed_le, h.once, fun hr u hu => ?_⟩
  rw [huser]
  exact h.waiting (hreading hr) u hu

omit [DecidableEq ι] [DecidableEq κ] in
/-- A new phase: no call is completed in it yet. -/
theorem OnceOk.setReading (h : OnceOk w) {t : System ι κ} :
    OnceOk (t, { w.2 with phase := w.2.phase + 1 }) := by
  refine ⟨fun u p hp => (h.completed_le u p hp).trans (Nat.le_succ _), h.once, fun _ u hu => ?_⟩
  exact absurd (h.completed_le u _ hu) (Nat.not_succ_le_self _)

/-- A step of the sorter sets `READING`, or the state was `READING` before. -/
theorem SorterMove.of_reading {sh sh' : Shared} {pc pc' : SorterPc} (h : SorterMove sh pc sh' pc')
    (hr : sh'.serverState = .reading) : pc = .setReading ∨ sh.serverState = .reading := by
  cases h with
  | idle hpc hpc' hsh => exact Or.inr (hsh.serverState.symm.trans hr)
  | setReading => exact Or.inl rfl
  | setSorting => cases hr
  | setDone => cases hr
  | _ => exact Or.inr hr

/-- After its last step of `send_entries` a user waits. -/
theorem UserMove.waiting_of_completes {atomicIncrement alive : Bool} {sh sh' : Shared}
    {pc pc' : UserPc} (h : UserMove atomicIncrement alive sh pc sh' pc')
    (hpc : pc.completes atomicIncrement = true) : pc'.waiting = true := by
  cases h with
  | increment hatomic => rfl
  | storeDone readerDone => rfl
  | loadDone hsplit =>
    rw [UserPc.completes, hsplit] at hpc
    cases hpc
  | _ => cases hpc

theorem UserPc.not_waiting_of_completes {atomicIncrement : Bool} {pc : UserPc}
    (h : pc.completes atomicIncrement = true) : pc.waiting = false := by
  cases pc <;> first | rfl | cases h

omit [DecidableEq ι] in
/-- A step of a user that completes no call. -/
theorem OnceOk.userMove (h : OnceOk w) {atomicIncrement alive : Bool} {u : κ} {sh' : Shared}
    {pc' : UserPc} (hmove : UserMove atomicIncrement alive w.1.shared (w.1.user u) sh' pc') :
    OnceOk ({ w.1 with shared := sh', user := Function.update w.1.user u pc' }, w.2) := by
  refine ⟨h.completed_le, h.once, fun hr v hv => ?_⟩
  have hreading := hmove.frame.serverState.symm.trans hr
  have hwaiting := h.waiting hreading v hv
  by_cases hvu : v = u
  · subst hvu
    simpa using hmove.waiting hreading hwaiting
  · simpa [Function.update_of_ne hvu] using hwaiting

omit [DecidableEq ι] in
/-- A step of a user that completes a call: it had completed none in this phase. -/
theorem OnceOk.userComplete (h : OnceOk w) {atomicIncrement alive : Bool} {u : κ} {sh' : Shared}
    {pc' : UserPc} (hmove : UserMove atomicIncrement alive w.1.shared (w.1.user u) sh' pc')
    (hpc : (w.1.user u).completes atomicIncrement = true) :
    OnceOk ({ w.1 with shared := sh', user := Function.update w.1.user u pc' },
      w.2.complete w.1.shared u) := by
  refine ⟨fun v p hp => ?_, fun v => ?_, fun hr v hv => ?_⟩
  · by_cases hvu : v = u
    · subst hvu
      simp only [Completions.complete_self, List.mem_append, Option.mem_toList] at hp
      rcases hp with hp | hp
      · exact (readingPhase_eq_some_iff.mp hp).2.ge
      · exact h.completed_le v p hp
    · simp only [Completions.complete_of_ne _ _ hvu] at hp
      exact h.completed_le v p hp
  · by_cases hvu : v = u
    · subst hvu
      simp only [Completions.complete_self]
      refine List.nodup_append.mpr ⟨?_, h.once v, fun p hp q hq heq => ?_⟩
      · cases w.1.shared.readingPhase w.2.phase <;> simp
      · -- a call completed in this phase already would leave the user waiting
        obtain ⟨hr, rfl⟩ := readingPhase_eq_some_iff.mp (Option.mem_toList.mp hp)
        have hwaiting := h.waiting hr v (heq ▸ hq)
        rw [UserPc.not_waiting_of_completes hpc] at hwaiting
        cases hwaiting
    · simp only [Completions.complete_of_ne _ _ hvu]
      exact h.once v
  · by_cases hvu : v = u
    · subst hvu
      simpa using hmove.waiting_of_completes hpc
    · have hreading := hmove.frame.serverState.symm.trans hr
      simp only [Completions.complete_of_ne _ _ hvu, Completions.complete_phase] at hv
      simpa [Function.update_of_ne hvu] using h.waiting hreading v hv

/-- Every step keeps the invariant. -/
theorem OnceOk.step {atomicIncrement : Bool} {a : Action ι κ} (h : OnceOk w)
    (hs : completionStep atomicIncrement w a = some w') : OnceOk w' := by
  obtain ⟨t, r⟩ := w'
  obtain ⟨hs, rfl⟩ := withHistory_eq_some_iff.mp hs
  cases systemMove_of_step hs with
  | timer sh' hsh => exact h.unrecorded rfl hsh.serverState.symm.trans
  | sorter move countFirst hmove =>
    simp only [Completions.record]
    split
    · exact h.setReading
    · rename_i hne
      exact h.unrecorded rfl fun hr => (hmove.of_reading hr).resolve_left hne
  | observer o input hframe => exact h.unrecorded rfl hframe.serverState.symm.trans
  | user u alive hmove =>
    simp only [Completions.record]
    split
    · rename_i hpc
      exact h.userComplete hmove hpc
    · exact h.userMove hmove

/-- **At most one broadcast for each phase**: in every state of every run, no user has completed two
calls of `send_entries` during one `READING` phase. -/
theorem oncePerPhase (atomicIncrement : Bool) (w : System ι κ × Completions κ)
    (h : Reach (fun w a w' => completionStep atomicIncrement w a = some w') (fun _ _ => True)
      (System.init ι κ, Completions.init κ) w) : OncePerPhase w.2 :=
  (Reach.invariant onceOk_init (fun _ _ _ hok _ hs => hok.step hs) h).once

/-- A user completes a call in the first phase, and one in the second. -/
def twoPhasesRun : List (Action ℕ ℕ) :=
  List.replicate 2 (.user 0 true) ++ .timer :: List.replicate 8 (.sorter none) ++
    List.replicate 5 (.user 0 true) ++ List.replicate 5 (.sorter none) ++
    .user 0 true :: .timer :: List.replicate 8 (.sorter none) ++ List.replicate 5 (.user 0 true)

theorem oncePerPhase_twoPhases : ∃ w : System ℕ ℕ × Completions ℕ,
    w.2.completed 0 = [2, 1] ∧ OncePerPhase w.2 := by
  obtain ⟨w, hw, hp⟩ := Reach.exists_of_foldlM (completionStep true) (fun _ _ => True)
    (System.init ℕ ℕ, Completions.init ℕ) twoPhasesRun
    (fun w => decide (w.2.completed 0 = [2, 1])) rfl
  exact ⟨w, of_decide_eq_true hp, oncePerPhase true w hw⟩

end C380.Notapp
