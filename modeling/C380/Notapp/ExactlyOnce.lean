import C380.Notapp.Barrier
import C380.Notapp.OncePerPhase

/-!
# No broadcast is lost or sent twice

The record of `Barrier` tells in which phase each user has registered, the record of `OncePerPhase`
the phases in which it has completed a call of `send_entries`. Both are kept here.

* `exactlyOnce`: **a registered user has completed exactly one call in every `READING` phase since
  the one it registered in**, the current one included once the sorter has found the readers done,
  in every run in which no lock is detected and whose increments fall into their window.

`DeliveredOk` is the invariant: with what the two records satisfy by themselves, a call completed in
the phase that goes on is recorded in both, and outside the sorter's wait for the readers nobody's
call is missing.
-/

namespace C380.Notapp

open Transition

variable {ι κ : Type}

/-- Both records. -/
abbrev Deliveries (κ : Type) := Rounds κ × Completions κ

/-- Waiting for the readers. -/
def SorterPc.awaitsReaders : SorterPc → Bool
  | .loadReaders | .testReaders _ | .testDone _ | .waitReadersLock => true
  | _ => false

/-- The invariant of the two records. -/
structure DeliveredOk (w : System ι κ × Deliveries κ) : Prop where
  rounds : BarrierOk (w.1, w.2.1)
  once : OnceOk (w.1, w.2.2)
  phase : w.2.2.phase = w.2.1.phase
  current : ∀ u, w.2.1.completedIn u = some w.2.1.phase → w.2.1.phase ∈ w.2.2.completed u
  past : ∀ u, (w.1.user u).registered = true → ∀ p, w.2.1.registeredIn u < p → p < w.2.1.phase →
    p ∈ w.2.2.completed u
  settled : w.1.sorter.awaitsReaders = false → AllCompleted (w.1, w.2.1)

variable {w w' : System ι κ × Deliveries κ}

theorem deliveredOk_init : DeliveredOk (System.init ι κ, Rounds.init κ, Completions.init κ) :=
  ⟨barrierOk_init, onceOk_init, rfl, fun _ h => (nomatch h), fun _ h => (nomatch h),
    fun _ _ h => (nomatch h)⟩

/-- Once the sorter does not wait for the readers, no call is missing. -/
theorem DeliveredOk.mem_completed (h : DeliveredOk w) {u : κ} {p : ℕ}
    (hreg : (w.1.user u).registered = true) (hlt : w.2.1.registeredIn u < p)
    (hp : p < w.2.1.phase ∨ p = w.2.1.phase ∧ w.1.sorter.awaitsReaders = false) :
    p ∈ w.2.2.completed u := by
  rcases hp with hp | ⟨rfl, hsettled⟩
  · exact h.past u hreg p hlt hp
  · exact h.current u (h.settled hsettled u hreg hlt)

/-! ## The steps keep the invariant -/

/-- A step that completes no call, begins no phase and moves no user. -/
theorem DeliveredOk.unrecorded (h : DeliveredOk w) {t : System ι κ} {counted : κ → Bool}
    (hrounds : BarrierOk (t, { w.2.1 with counted := counted })) (honce : OnceOk (t, w.2.2))
    (huser : t.user = w.1.user)
    (hsettled : t.sorter.awaitsReaders = false → AllCompleted (w.1, w.2.1)) :
    DeliveredOk (t, { w.2.1 with counted := counted }, w.2.2) := by
  refine ⟨hrounds, honce, h.phase, h.current, ?_, fun hs => ?_⟩
  · rw [huser]
    exact h.past
  · have hall := hsettled hs
    simp only [AllCompleted, huser] at hall ⊢
    exact hall

/-- A new phase begins when no call of the last one is missing. -/
theorem DeliveredOk.newPhase (h : DeliveredOk w) {t : System ι κ} (huser : t.user = w.1.user)
    (hrounds : BarrierOk (t, { w.2.1 with phase := w.2.1.phase + 1 }))
    (hpc : w.1.sorter.awaitsReaders = false) (hpc' : t.sorter.awaitsReaders = true) :
    DeliveredOk (t, { w.2.1 with phase := w.2.1.phase + 1 },
      { w.2.2 with phase := w.2.2.phase + 1 }) := by
  refine ⟨hrounds, h.once.setReading, by rw [h.phase], fun u hu => ?_, fun u hreg p hlt hp => ?_,
    fun hs => ?_⟩
  · exact absurd (h.rounds.completed_le u _ hu) (Nat.not_succ_le_self _)
  · rw [huser] at hreg
    refine h.mem_completed hreg hlt ((Nat.lt_succ_iff_lt_or_eq.mp hp).imp id fun heq => ?_)
    exact ⟨heq, hpc⟩
  · rw [hpc'] at hs
    cases hs

/-- The sorter stops waiting for the readers only past the test. -/
theorem SorterMove.settled {sh sh' : Shared} {pc pc' : SorterPc} (h : SorterMove sh pc sh' pc')
    (hs : pc'.awaitsReaders = false) : pc.awaitsReaders = false ∨ pc'.readersPassed = true := by
  cases h with
  | idle hpc hpc' hsh =>
    left
    cases pc <;> first | rfl | cases hpc
  | readersDone readerDone hle => exact Or.inr rfl
  | doneEnough readers hle => exact Or.inr rfl
  | loadReaderDone => cases hs
  | loadReaderCount => cases hs
  | readersLeft readerDone hlt => cases hs
  | doneLeft readers hlt => cases hs
  | loadAgain => cases hs
  | _ => exact Or.inl rfl

variable [DecidableEq κ]

section User

variable {u : κ} {pc' : UserPc} {sh' : Shared} {alive : Bool} {h' : Deliveries κ}

/-- What a step of a user does to the records of the completed calls. -/
structure Deliveries.Extends (h h' : Deliveries κ) : Prop where
  rounds_phase : h'.1.phase = h.1.phase
  completions_phase : h'.2.phase = h.2.phase
  completed : ∀ v, h.2.completed v ⊆ h'.2.completed v
  completedIn : ∀ v, h'.1.completedIn v = h.1.completedIn v ∨
    h'.1.completedIn v = some h.1.phase ∧ h.1.phase ∈ h'.2.completed v

/-- The record of a step of user `u`. -/
def Deliveries.user (h : Deliveries κ) (sh : Shared) (u : κ) (pc : UserPc) : Deliveries κ :=
  (h.1.user sh u pc, if pc.completes true then h.2.complete sh u else h.2)

theorem Deliveries.extends_of_ne (h : Deliveries κ) (sh : Shared) {pc : UserPc}
    (hne : pc ≠ .loadDone) (hatomic : ∀ n, pc ≠ .storeDone n) : h.Extends (h.user sh u pc) := by
  have hcompletes : pc.completes true = false := by
    cases pc with
    | loadDone => exact absurd rfl hne
    | storeDone n => exact absurd rfl (hatomic n)
    | _ => rfl
  refine ⟨h.1.user_phase sh u pc, ?_, fun v => ?_, fun v => Or.inl ?_⟩
  · simp [Deliveries.user, hcompletes]
  · simp [Deliveries.user, hcompletes]
  · exact congrFun (h.1.user_completedIn sh u hne) v

/-- The call that is completed was started in this phase, and the state is still `READING`. -/
theorem Deliveries.extends_loadDone {h : Deliveries κ} {sh : Shared}
    (hphase : h.2.phase = h.1.phase) (hstarted : h.1.startedIn u = some h.1.phase)
    (hreading : sh.serverState = .reading) :
    h.Extends (h.user sh u .loadDone) := by
  have hrecord : sh.readingPhase h.2.phase = some h.1.phase :=
    readingPhase_eq_some_iff.mpr ⟨hreading, hphase⟩
  refine ⟨rfl, rfl, fun v => ?_, fun v => ?_⟩
  all_goals
    simp only [Deliveries.user, UserPc.completes, if_true]
    by_cases hvu : v = u
  · subst hvu
    rw [Completions.complete_self]
    exact List.subset_append_right _ _
  · rw [Completions.complete_of_ne _ _ hvu]
    exact List.Subset.refl _
  · subst hvu
    right
    rw [Completions.complete_self, hrecord]
    exact ⟨by simp [Rounds.user, hstarted], List.mem_cons_self⟩
  · left
    exact Function.update_of_ne hvu _ _

/-- A step of a user keeps the invariant. -/
theorem DeliveredOk.user (h : DeliveredOk w)
    (hmove : UserMove true alive w.1.shared (w.1.user u) sh' pc')
    (hext : w.2.Extends h') (hregistered : h'.1.registeredIn =
      (w.2.1.user w.1.shared u (w.1.user u)).registeredIn)
    (hrounds : BarrierOk
      ({ w.1 with shared := sh', user := Function.update w.1.user u pc' }, h'.1))
    (honce : OnceOk ({ w.1 with shared := sh', user := Function.update w.1.user u pc' }, h'.2)) :
    DeliveredOk ({ w.1 with shared := sh', user := Function.update w.1.user u pc' }, h') := by
  refine ⟨hrounds, honce, ?_, fun v hv => ?_, fun v hreg p hlt hp => ?_, fun hs v hreg hlt => ?_⟩
  · rw [hext.completions_phase, hext.rounds_phase, h.phase]
  · rw [hext.rounds_phase] at hv ⊢
    rcases hext.completedIn v with heq | ⟨-, hmem⟩
    · exact hext.completed v (h.current v (heq ▸ hv))
    · exact hmem
  · rw [hregistered] at hlt
    rw [hext.rounds_phase] at hp
    obtain ⟨hreg, hlt⟩ := hmove.registered_back hreg hlt hp.le
    exact hext.completed v (h.past v hreg p hlt hp)
  · simp only [hregistered, hext.rounds_phase] at hlt ⊢
    obtain ⟨hreg, hlt⟩ := hmove.registered_back hreg hlt le_rfl
    rcases hext.completedIn v with heq | ⟨hphase, -⟩
    · rw [heq]
      exact h.settled hs v hreg hlt
    · exact hphase

end User

variable [DecidableEq ι]

/-- A step of the system with both records. -/
def deliveryStep : System ι κ × Deliveries κ → Action ι κ → Option (System ι κ × Deliveries κ) :=
  withHistory (System.step true) fun s a h =>
    (Rounds.record s a h.1, Completions.record true s a h.2)

theorem roundStep_of_deliveryStep {a : Action ι κ} (h : deliveryStep w a = some w') :
    roundStep (w.1, w.2.1) a = some (w'.1, w'.2.1) := by
  obtain ⟨hs, hr⟩ := withHistory_eq_some_iff.mp h
  exact withHistory_eq_some_iff.mpr ⟨hs, congrArg Prod.fst hr⟩

theorem completionStep_of_deliveryStep {a : Action ι κ} (h : deliveryStep w a = some w') :
    completionStep true (w.1, w.2.2) a = some (w'.1, w'.2.2) := by
  obtain ⟨hs, hr⟩ := withHistory_eq_some_iff.mp h
  exact withHistory_eq_some_iff.mpr ⟨hs, congrArg Prod.snd hr⟩

/-- Every step that `IncrementsInWindow` allows keeps the invariant. -/
theorem DeliveredOk.step {a : Action ι κ} (h : DeliveredOk w)
    (hg : IncrementsInWindow (w.1, w.2.1) a) (hs : deliveryStep w a = some w') :
    DeliveredOk w' := by
  have hrounds := h.rounds.step hg (roundStep_of_deliveryStep hs)
  have honce := h.once.step (completionStep_of_deliveryStep hs)
  obtain ⟨t, r⟩ := w'
  obtain ⟨hs, rfl⟩ := withHistory_eq_some_iff.mp hs
  cases systemMove_of_step hs with
  | timer sh' hsh => exact h.unrecorded hrounds honce rfl h.settled
  | observer o input hframe => exact h.unrecorded hrounds honce rfl h.settled
  | sorter move countFirst hmove =>
    by_cases hpc : w.1.sorter = .setReading
    · simp only [Rounds.record, Completions.record, hpc, if_true] at hrounds ⊢
      rw [hpc] at hmove
      cases hmove with
      | idle hdone _ _ => cases hdone
      | setReading => exact h.newPhase rfl hrounds (by rw [hpc]; rfl) rfl
    · obtain ⟨counted, hcounted⟩ := w.2.1.sorter_eq w.1.user hpc
      simp only [Rounds.record, Completions.record, hcounted, if_neg hpc] at hrounds honce ⊢
      refine h.unrecorded hrounds honce rfl fun hs => ?_
      rcases hmove.settled hs with hsettled | hpassed
      · exact h.settled hsettled
      · exact hrounds.passed hpassed
  | user u alive hmove =>
    have hext : w.2.Extends (w.2.user w.1.shared u (w.1.user u)) := by
      by_cases hpc : w.1.user u = .loadDone
      · obtain ⟨hstarted, hwindow⟩ := hg.1 hpc
        rw [hpc]
        exact Deliveries.extends_loadDone h.phase hstarted
          (h.rounds.phase.trans (SorterPc.phase_of_window hwindow))
      · exact Deliveries.extends_of_ne _ _ hpc (h.rounds.atomic u)
    exact h.user hmove hext rfl hrounds honce

/-- **Exactly once**: a user that is registered has completed one call of `send_entries`, and no
more, in each `READING` phase that began after it registered and that the sorter has brought to its
end. -/
theorem exactlyOnce (w : System ι κ × Deliveries κ)
    (h : Reach (fun w a w' => deliveryStep w a = some w')
      (fun w a => IncrementsInWindow (w.1, w.2.1) a)
      (System.init ι κ, Rounds.init κ, Completions.init κ) w)
    (u : κ) (hreg : (w.1.user u).registered = true) (p : ℕ) (hlt : w.2.1.registeredIn u < p)
    (hp : p < w.2.1.phase ∨ p = w.2.1.phase ∧ w.1.sorter.awaitsReaders = false) :
    (w.2.2.completed u).count p = 1 := by
  have hok : DeliveredOk w :=
    Reach.invariant deliveredOk_init (fun _ _ _ hok hg hs => hok.step hg hs) h
  exact List.count_eq_one_of_mem (hok.once.once u) (hok.mem_completed hreg hlt hp)

/-- Two users register, one of them during the first phase, and the sorter gets through the second.
-/
def twoUsersRun : List (Action ℕ ℕ) :=
  let user (u n : ℕ) := List.replicate n (Action.user u true)
  let sorter (n : ℕ) := List.replicate n (Action.sorter none)
  [user 0 2, [.timer], sorter 8, user 1 2, user 0 5, user 1 5, sorter 5, user 0 1, user 1 1,
    [.timer], sorter 8, user 1 5, user 0 5, sorter 3].flatten

theorem exactlyOnce_twoUsers : ∃ w : System ℕ ℕ × Deliveries ℕ,
    (w.2.1.phase = 2 ∧ w.1.sorter = .setDone) ∧ (w.2.2.completed 0).count 1 = 1 ∧
      (w.2.2.completed 0).count 2 = 1 ∧ (w.2.2.completed 1).count 2 = 1 := by
  obtain ⟨w, hw, hp⟩ := Reach.exists_of_foldlM deliveryStep
    (fun w a => IncrementsInWindow (w.1, w.2.1) a)
    (System.init ℕ ℕ, Rounds.init ℕ, Completions.init ℕ) twoUsersRun
    (fun w => decide ((w.2.1.phase = 2 ∧ w.1.sorter = .setDone) ∧
      (w.1.user 0).registered = true ∧ (w.1.user 1).registered = true ∧
      w.2.1.registeredIn 0 = 0 ∧ w.2.1.registeredIn 1 = 1)) rfl
  obtain ⟨hend, hreg₀, hreg₁, hin₀, hin₁⟩ := of_decide_eq_true hp
  have hsettled : w.1.sorter.awaitsReaders = false := by rw [hend.2]; rfl
  exact ⟨w, hend, exactlyOnce w hw 0 hreg₀ 1 (by omega) (Or.inl (by omega)),
    exactlyOnce w hw 0 hreg₀ 2 (by omega) (Or.inr ⟨hend.1.symm, hsettled⟩),
    exactlyOnce w hw 1 hreg₁ 2 (by omega) (Or.inr ⟨hend.1.symm, hsettled⟩)⟩

end C380.Notapp
