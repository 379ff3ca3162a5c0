import C380.Lib.ThreadCount
import C380.Notapp.Threads

/-!
# The barrier of the readers

`output_sorter` goes on from `READING` when `reader_done_count >= reader_count`. For each user the
phase it registered in is recorded, the phase its last `send_entries` started in, and the phase the
last `send_entries` it has completed started in. `ReaderBarrier` says that at
`set_server_state(DONE)` every user that was registered before the phase has completed a call that
it started in the phase.

* `readerBarrier_lost`: a user joins after the test has passed and increments the counter after the
  reset; the leftover satisfies the test of the next phase, in which that user sends nothing.
* `readerBarrier_of_inWindow`: **the barrier holds in every run whose increments fall into their
  window** (`IncrementsInWindow`): a user increments `reader_done_count` in the phase it started
  `send_entries` in, before the reset; and one that increments it after `are_readers_done` has read
  `reader_count`, and before it reads `reader_done_count`, was counted.
* `readerBarrier_lost_of_countFirst`: the second part is needed when `reader_count` is read first. A
  user that joins between the two reads stands in for one that has not sent.

`BarrierOk` is the invariant: `reader_count` counts the registered users, and `reader_done_count`
those that have completed a call of this phase, all of whom wait for its end. A `reader_count` that
is read first counts the users of a snapshot (`CountRead`), which bounds those that have completed.
-/

namespace C380.Notapp

open ThreadCount Transition

/-- What is recorded of the rounds: the number of `READING` phases so far, the phase count when each
user registered, the phase its last `send_entries` started in (`none` when the state was not
`READING`), the phase the last `send_entries` it has completed started in, and whether it was
registered at the first read of the last `are_readers_done`. -/
structure Rounds (κ : Type) where
  phase : ℕ
  registeredIn : κ → ℕ
  startedIn : κ → Option ℕ
  completedIn : κ → Option ℕ
  counted : κ → Bool

/-- Nobody has registered. -/
def Rounds.init (κ : Type) : Rounds κ :=
  ⟨0, fun _ => 0, fun _ => none, fun _ => none, fun _ => false⟩

/-- Between `register_user` and `unregister_user`. -/
def UserPc.registered : UserPc → Bool
  | .absent | .register => false
  | _ => true

variable {ι κ : Type} [DecidableEq ι] [DecidableEq κ]

/-- The record of a step of user `u`, at `pc` before it. -/
def Rounds.user (h : Rounds κ) (sh : Shared) (u : κ) : UserPc → Rounds κ
  | .register => { h with registeredIn := Function.update h.registeredIn u h.phase }
  | .sendCount =>
    { h with startedIn := Function.update h.startedIn u (sh.readingPhase h.phase) }
  | .loadDone => { h with completedIn := Function.update h.completedIn u (h.startedIn u) }
  | _ => h

/-- The record of a step of the sorter, at the place before it. -/
def Rounds.sorter (h : Rounds κ) (user : κ → UserPc) : SorterPc → Rounds κ
  | .setReading => { h with phase := h.phase + 1 }
  | .loadReaders => { h with counted := fun u => (user u).registered }
  | _ => h

/-- The record of a step. `++reader_done_count` is one step here. -/
def Rounds.record (s : System ι κ) (a : Action ι κ) (h : Rounds κ) : Rounds κ :=
  match a with
  | .sorter _ _ => h.sorter s.user s.sorter
  | .user u _ => h.user s.shared u (s.user u)
  | _ => h

/-- A step of the system with its record. -/
def roundStep : System ι κ × Rounds κ → Action ι κ → Option (System ι κ × Rounds κ) :=
  withHistory (System.step true) Rounds.record

/-- Recording restricts no run. -/
theorem reach_roundStep_iff (s : System ι κ) :
    (∃ h, Reach (fun w a w' => roundStep w a = some w') (fun _ _ => True)
      (System.init ι κ, Rounds.init κ) (s, h)) ↔
    Reach (fun s a s' => System.step true s a = some s') (fun _ _ => True) (System.init ι κ) s :=
  reach_withHistory_iff fun _ _ => True

/-- Waiting for the end of the phase. -/
def UserPc.waiting : UserPc → Bool
  | .waitEnd | .waitEndLock => true
  | _ => false

/-- From `set_server_state(READING)` up to `reset_reader_done_count`. -/
def SorterPc.window : SorterPc → Bool
  | .loadReaders | .testReaders _ | .testDone _ | .waitReadersLock | .reset => true
  | _ => false

/-- Between the read of `reader_count` and that of `reader_done_count`, in this order. -/
def SorterPc.counting : SorterPc → Bool
  | .testDone _ => true
  | _ => false

/-- From the test that finds the readers done up to `set_server_state(DONE)`. -/
def SorterPc.readersPassed : SorterPc → Bool
  | .reset | .setDone => true
  | _ => false

/-- Every user registered before this phase has completed a call that it started in it. -/
def AllCompleted (w : System ι κ × Rounds κ) : Prop :=
  ∀ u, (w.1.user u).registered = true → w.2.registeredIn u < w.2.phase →
    w.2.completedIn u = some w.2.phase

/-- When the sorter moves on from `READING` to `DONE`, all have completed. -/
def ReaderBarrier (w : System ι κ × Rounds κ) : Prop := w.1.sorter = .setDone → AllCompleted w

/-- A user increments `reader_done_count` in the phase it started `send_entries` in, before the
reset. -/
def IncrementsInPhase (w : System ι κ × Rounds κ) : Action ι κ → Prop
  | .user u _ => w.1.user u = .loadDone →
    w.2.startedIn u = some w.2.phase ∧ w.1.sorter.window = true
  | _ => True

/-- A user that increments `reader_done_count` after `are_readers_done` has read `reader_count`, and
before it reads `reader_done_count`, was registered at the first of the two reads. -/
def IncrementsCounted (w : System ι κ × Rounds κ) : Action ι κ → Prop
  | .user u _ => w.1.user u = .loadDone → w.1.sorter.counting = true → w.2.counted u = true
  | _ => True

/-- The increment of a user falls into its window. -/
def IncrementsInWindow (w : System ι κ × Rounds κ) (a : Action ι κ) : Prop :=
  IncrementsInPhase w a ∧ IncrementsCounted w a

/-! ## The invariant -/

/-- `n` was read from `reader_count` when the counted users were registered. They include those that
have completed a call of this phase, and those that are registered since before it. -/
structure CountRead (w : System ι κ × Rounds κ) (n : Int) : Prop where
  counts : Counts (fun u => w.2.counted u = true) n
  completed : ∀ u, w.2.completedIn u = some w.2.phase → w.2.counted u = true
  registered : ∀ u, (w.1.user u).registered = true → w.2.registeredIn u < w.2.phase →
    w.2.counted u = true

/-- The invariant of the barrier. -/
structure BarrierOk (w : System ι κ × Rounds κ) : Prop where
  phase : w.1.shared.serverState = w.1.sorter.phase
  atomic : ∀ u n, w.1.user u ≠ .storeDone n
  completed_le : ∀ u p, w.2.completedIn u = some p → p ≤ w.2.phase
  readers : Counts (fun u => (w.1.user u).registered = true) w.1.shared.readerCount
  readersDone : w.1.sorter.window = true →
    Counts (fun u => w.2.completedIn u = some w.2.phase) w.1.shared.readerDoneCount
  reset : w.1.sorter.window = false → w.1.shared.readerDoneCount = 0
  waiting : w.1.shared.serverState = .reading → ∀ u, w.2.completedIn u = some w.2.phase →
    (w.1.user u).waiting = true
  tested : ∀ n, w.1.sorter = .testReaders n → n ≤ w.1.shared.readerDoneCount
  counted : ∀ n, w.1.sorter = .testDone n → CountRead w n
  passed : w.1.sorter.readersPassed = true → AllCompleted w

variable {w : System ι κ × Rounds κ}

omit [DecidableEq ι] [DecidableEq κ] in
theorem barrierOk_init : BarrierOk (System.init ι κ, Rounds.init κ) :=
  ⟨rfl, fun _ _ h => (nomatch h), fun _ _ h => (nomatch h), counts_zero fun _ h => (nomatch h),
    fun h => (nomatch h), fun _ => rfl, fun h => (nomatch h), fun _ h => (nomatch h),
    fun _ h => (nomatch h), fun h => (nomatch h)⟩

theorem SorterPc.phase_of_window {pc : SorterPc} (h : pc.window = true) : pc.phase = .reading := by
  cases pc <;> first | rfl | cases h

theorem UserPc.registered_of_waiting {pc : UserPc} (h : pc.waiting = true) :
    pc.registered = true := by
  cases pc <;> first | rfl | cases h

/-! ## The steps of the sorter, the observers and the timer -/

section Sorter

variable {pc pc' : SorterPc} {sh' : Shared}

omit [DecidableEq ι] [DecidableEq κ] in
/-- A step that moves no user, changes none of the two counters and begins no phase. It may count
users anew. -/
theorem BarrierOk.unrecorded (h : BarrierOk w) {t : System ι κ} (counted : κ → Bool)
    (hpc : w.1.sorter = pc) (hpc' : t.sorter = pc') (huser : t.user = w.1.user)
    (hphase : t.shared.serverState = pc'.phase)
    (hcount : t.shared.readerCount = w.1.shared.readerCount)
    (hdone : t.shared.readerDoneCount = w.1.shared.readerDoneCount)
    (hwindow : pc'.window = pc.window) (hreading : pc'.phase = .reading → pc.phase = .reading)
    (htested : ∀ n, pc' = .testReaders n → n ≤ w.1.shared.readerDoneCount)
    (hcounted : ∀ n, pc' = .testDone n → CountRead (w.1, { w.2 with counted := counted }) n)
    (hpassed : pc'.readersPassed = true → AllCompleted w) :
    BarrierOk (t, { w.2 with counted := counted }) := by
  obtain ⟨sh', sorter', observer', user'⟩ := t
  subst hpc hpc' huser
  refine ⟨hphase, h.atomic, h.completed_le, ?_, fun hw => ?_, fun hw => ?_, fun hr => ?_,
    fun n hn => ?_, fun n hn => ?_, hpassed⟩
  · have hreaders := h.readers
    rw [← hcount] at hreaders
    exact hreaders
  · have hreadersDone := h.readersDone (hwindow ▸ hw)
    rw [← hdone] at hreadersDone
    exact hreadersDone
  · exact hdone.trans (h.reset (hwindow ▸ hw))
  · exact h.waiting (h.phase.trans (hreading (hphase.symm.trans hr)))
  · exact (htested n hn).trans_eq hdone.symm
  · obtain ⟨hcounts, hcompleted, hregistered⟩ := hcounted n hn
    exact ⟨hcounts, hcompleted, hregistered⟩

omit [DecidableEq ι] [DecidableEq κ] in
/-- A step that neither the sorter nor a user takes. -/
theorem BarrierOk.elsewhere (h : BarrierOk w) {observer : ι → ObserverPc} {sh' : Shared}
    (hstate : sh'.serverState = w.1.shared.serverState)
    (hcount : sh'.readerCount = w.1.shared.readerCount)
    (hdone : sh'.readerDoneCount = w.1.shared.readerDoneCount) :
    BarrierOk ({ w.1 with shared := sh', observer := observer }, w.2) :=
  h.unrecorded w.2.counted rfl rfl rfl (hstate.trans h.phase) hcount hdone rfl id h.tested
    h.counted h.passed

omit [DecidableEq ι] [DecidableEq κ] in
/-- **The test** with `reader_done_count` read first: when as many calls are completed as users are
registered, every registered user has completed one. -/
theorem BarrierOk.allCompleted (h : BarrierOk w) {n : Int} (hpc : w.1.sorter = .testReaders n)
    (hle : w.1.shared.readerCount ≤ n) : AllCompleted w := by
  have hwindow : w.1.sorter.window = true := by rw [hpc]; rfl
  have hreading := h.phase.trans (SorterPc.phase_of_window hwindow)
  intro u hu _
  refine (h.readersDone hwindow).all_of_le h.readers (fun v hv => ?_)
    (hle.trans (h.tested n hpc)) u hu
  exact UserPc.registered_of_waiting (h.waiting hreading v hv)

omit [DecidableEq ι] [DecidableEq κ] in
/-- **The test** with `reader_count` read first: when as many calls are completed as users were
counted, every counted user has completed one. -/
theorem BarrierOk.allCompleted_counted (h : BarrierOk w) {n : Int}
    (hpc : w.1.sorter = .testDone n) (hle : n ≤ w.1.shared.readerDoneCount) : AllCompleted w := by
  have hwindow : w.1.sorter.window = true := by rw [hpc]; rfl
  obtain ⟨hcounts, hcompleted, hregistered⟩ := h.counted n hpc
  intro u hu hlt
  exact (h.readersDone hwindow).all_of_le hcounts hcompleted hle u (hregistered u hu hlt)

omit [DecidableEq ι] [DecidableEq κ] in
/-- The read of `reader_count` counts the users that are registered. -/
theorem BarrierOk.countRead (h : BarrierOk w) (hpc : w.1.sorter = .loadReaders) :
    CountRead (w.1, w.2.sorter w.1.user .loadReaders) w.1.shared.readerCount := by
  have hreading := h.phase.trans (SorterPc.phase_of_window (by rw [hpc]; rfl))
  exact ⟨h.readers, fun u hu => UserPc.registered_of_waiting (h.waiting hreading u hu),
    fun u hu _ => hu⟩

omit [DecidableEq ι] [DecidableEq κ] in
/-- A phase begins: nobody has completed a call of it. -/
theorem BarrierOk.newPhase (h : BarrierOk w) (hpc : w.1.sorter = .setReading) :
    BarrierOk ({ w.1 with
      shared := { w.1.shared with serverState := .reading }, sorter := .loadReaders },
      { w.2 with phase := w.2.phase + 1 }) := by
  have hnone : ∀ u, w.2.completedIn u ≠ some (w.2.phase + 1) := fun u hu =>
    absurd (h.completed_le u _ hu) (Nat.not_succ_le_self _)
  refine ⟨rfl, h.atomic, fun u p hp => (h.completed_le u p hp).trans (Nat.le_succ _), h.readers,
    fun _ => ?_, fun hw => (nomatch hw), fun _ u hu => absurd hu (hnone u),
    fun _ hn => (nomatch hn), fun _ hn => (nomatch hn), fun hp => (nomatch hp)⟩
  have hzero : w.1.shared.readerDoneCount = 0 := h.reset (by rw [hpc]; rfl)
  simp only [hzero]
  exact counts_zero hnone

omit [DecidableEq κ] in
/-- Except at the start of a phase, only who is counted is recorded anew. -/
theorem Rounds.sorter_eq (h : Rounds κ) (user : κ → UserPc) (hpc : pc ≠ .setReading) :
    ∃ counted, h.sorter user pc = { h with counted := counted } := by
  cases pc with
  | setReading => exact absurd rfl hpc
  | loadReaders => exact ⟨_, rfl⟩
  | _ => exact ⟨h.counted, rfl⟩

omit [DecidableEq κ] in
theorem Rounds.sorter_of_done (h : Rounds κ) (user : κ → UserPc) (hpc : pc.phase = .done) :
    h.sorter user pc = h := by
  cases pc <;> first | rfl | cases hpc

omit [DecidableEq ι] [DecidableEq κ] in
theorem BarrierOk.sorter (h : BarrierOk w) (hpc : w.1.sorter = pc)
    (hmove : SorterMove w.1.shared pc sh' pc') :
    BarrierOk ({ w.1 with shared := sh', sorter := pc' }, w.2.sorter w.1.user pc) := by
  have hphase := hmove.serverState (hpc ▸ h.phase)
  cases hmove with
  | idle hdone hdone' hsh =>
    rw [w.2.sorter_of_done w.1.user hdone]
    have hclosed : ∀ pc : SorterPc, pc.phase = .done → pc.window = false ∧
        pc.readersPassed = false ∧ ∀ n, pc ≠ .testReaders n ∧ pc ≠ .testDone n := by
      intro pc hpc
      cases pc <;> first | exact ⟨rfl, rfl, fun n => ⟨nofun, nofun⟩⟩ | cases hpc
    obtain ⟨hwindow, hpassed, htest⟩ := hclosed _ hdone'
    refine h.unrecorded w.2.counted hpc rfl rfl hphase hsh.readerCount hsh.readerDoneCount
      (hwindow.trans (hclosed _ hdone).1.symm) ?_ (fun n hn => absurd hn (htest n).1)
      (fun n hn => absurd hn (htest n).2) ?_
    · intro hr
      rw [hdone'] at hr
      cases hr
    · intro hp
      rw [hpassed] at hp
      cases hp
  | setReading => exact h.newPhase hpc
  | loadReaderDone =>
    refine h.unrecorded _ hpc rfl rfl hphase rfl rfl rfl id (fun n hn => ?_) nofun nofun
    cases hn
    exact le_rfl
  | loadReaderCount =>
    refine h.unrecorded _ hpc rfl rfl hphase rfl rfl rfl id nofun (fun n hn => ?_) nofun
    cases hn
    exact h.countRead hpc
  | readersDone readerDone hle =>
    exact h.unrecorded w.2.counted hpc rfl rfl hphase rfl rfl rfl id nofun nofun
      fun _ => h.allCompleted hpc hle
  | doneEnough readers hle =>
    exact h.unrecorded w.2.counted hpc rfl rfl hphase rfl rfl rfl id nofun nofun
      fun _ => h.allCompleted_counted hpc hle
  | reset =>
    refine ⟨hphase, h.atomic, h.completed_le, h.readers, fun hw => (nomatch hw), fun _ => rfl,
      fun hr => h.waiting hr, fun n hn => (nomatch hn), fun n hn => (nomatch hn), fun _ => ?_⟩
    exact h.passed (by rw [hpc]; rfl)
  | setSorting =>
    exact h.unrecorded w.2.counted hpc rfl rfl hphase rfl rfl rfl nofun nofun nofun nofun
  | setDone =>
    exact h.unrecorded w.2.counted hpc rfl rfl hphase rfl rfl rfl nofun nofun nofun nofun
  | _ => exact h.unrecorded w.2.counted hpc rfl rfl hphase rfl rfl rfl id nofun nofun nofun

end Sorter

/-! ## The steps of the users -/

section User

variable {u : κ} {pc pc' : UserPc} {sh sh' : Shared} {alive : Bool}

/-- `reader_count` follows the registration. -/
theorem UserMove.readerCount {atomicIncrement : Bool}
    (h : UserMove atomicIncrement alive sh pc sh' pc') : sh'.readerCount = sh.readerCount +
      (if pc'.registered = true then 1 else 0) - (if pc.registered = true then 1 else 0) := by
  cases h <;> simp [UserPc.registered]

theorem UserMove.registered {atomicIncrement : Bool}
    (h : UserMove atomicIncrement alive sh pc sh' pc') (hreg : pc'.registered = true) :
    pc = .register ∨ pc.registered = true := by
  cases h with
  | register => exact Or.inl rfl
  | start => cases hreg
  | unregister => cases hreg
  | _ => exact Or.inr rfl

/-- A user that waits for the end of the phase does not get on in state `READING`. -/
theorem UserMove.waiting {atomicIncrement : Bool}
    (h : UserMove atomicIncrement alive sh pc sh' pc') (hreading : sh.serverState = .reading)
    (hwait : pc.waiting = true) : pc'.waiting = true := by
  cases h with
  | held _ => rfl
  | waitAgain => rfl
  | released hne => exact absurd hreading hne
  | _ => cases hwait

/-- With an atomic `++reader_done_count`, a step elsewhere changes no counter of completed calls,
and none is halfway through the increment. -/
theorem UserMove.readerDoneCount (h : UserMove true alive sh pc sh' pc')
    (hatomic : ∀ n, pc ≠ .storeDone n) (hne : pc ≠ .loadDone) :
    sh'.readerDoneCount = sh.readerDoneCount ∧ ∀ n, pc' ≠ .storeDone n := by
  cases h with
  | increment hatomic => exact absurd rfl hne
  | loadDone hsplit => cases hsplit
  | storeDone readerDone => exact absurd rfl (hatomic readerDone)
  | _ => exact ⟨rfl, fun n hn => (nomatch hn)⟩

theorem Rounds.user_phase (h : Rounds κ) (sh : Shared) (u : κ) (pc : UserPc) :
    (h.user sh u pc).phase = h.phase := by
  cases pc <;> rfl

theorem Rounds.user_completedIn (h : Rounds κ) (sh : Shared) (u : κ) (hne : pc ≠ .loadDone) :
    (h.user sh u pc).completedIn = h.completedIn := by
  cases pc <;> first | rfl | exact absurd rfl hne

theorem Rounds.user_registeredIn_of_ne (h : Rounds κ) (sh : Shared) {v : κ} (hv : v ≠ u)
    (pc : UserPc) : (h.user sh u pc).registeredIn v = h.registeredIn v := by
  cases pc <;> first | rfl | exact Function.update_of_ne hv _ _

theorem Rounds.user_registeredIn (h : Rounds κ) (sh : Shared) (u : κ)
    (hlt : (h.user sh u pc).registeredIn u < h.phase) :
    pc ≠ .register ∧ (h.user sh u pc).registeredIn u = h.registeredIn u := by
  cases pc with
  | register => exact absurd hlt (by simp [Rounds.user])
  | _ => exact ⟨nofun, rfl⟩

/-- After a step of a user, whoever is registered since an earlier phase was so before. -/
theorem UserMove.registered_back {atomicIncrement : Bool} {user : κ → UserPc} {r : Rounds κ}
    (hmove : UserMove atomicIncrement alive sh (user u) sh' pc') {v : κ}
    (hreg : (Function.update user u pc' v).registered = true) {p : ℕ}
    (hlt : (r.user sh u (user u)).registeredIn v < p) (hp : p ≤ r.phase) :
    (user v).registered = true ∧ r.registeredIn v < p := by
  by_cases hvu : v = u
  · subst hvu
    obtain ⟨hregister, heq⟩ := r.user_registeredIn sh v (hlt.trans_le hp)
    rw [Function.update_self] at hreg
    exact ⟨(hmove.registered hreg).resolve_left hregister, heq ▸ hlt⟩
  · rw [r.user_registeredIn_of_ne sh hvu] at hlt
    rw [Function.update_of_ne hvu] at hreg
    exact ⟨hreg, hlt⟩

theorem Rounds.user_counted (h : Rounds κ) (sh : Shared) (u : κ) (pc : UserPc) :
    (h.user sh u pc).counted = h.counted := by
  cases pc <;> rfl

omit [DecidableEq ι] in
/-- A step of a user that completes no call. -/
theorem BarrierOk.moveUser (h : BarrierOk w) (hpc : w.1.user u = pc)
    (hmove : UserMove true alive w.1.shared pc sh' pc') (hne : pc ≠ .loadDone) :
    BarrierOk ({ w.1 with shared := sh', user := Function.update w.1.user u pc' },
      w.2.user w.1.shared u pc) := by
  have hstate := hmove.frame.serverState
  obtain ⟨hdone, hatomic⟩ := hmove.readerDoneCount (fun n => hpc ▸ h.atomic u n) hne
  have hphase := w.2.user_phase w.1.shared u pc
  have hcompleted := w.2.user_completedIn w.1.shared u hne
  refine ⟨hstate.trans h.phase, fun v n hv => ?_, ?_, ?_, fun hw => ?_,
    fun hw => hdone.trans (h.reset hw), fun hr v hv => ?_,
    fun n hn => (h.tested n hn).trans_eq hdone.symm, fun n hn => ?_, fun hp v hv hlt => ?_⟩
  · by_cases hvu : v = u
    · subst hvu
      exact hatomic n (by simpa using hv)
    · exact h.atomic v n (by simpa [Function.update_of_ne hvu] using hv)
  · simp only [hphase, hcompleted]
    exact h.completed_le
  · have hself : (Function.update w.1.user u pc' u).registered = pc'.registered := by
      rw [Function.update_self]
    simp only [hmove.readerCount, ← hself, ← hpc]
    exact h.readers.move u fun v hv => by simp only [Function.update_of_ne hv]
  · simp only [hdone, hphase, hcompleted]
    exact h.readersDone hw
  · simp only [hphase, hcompleted] at hv
    have hreading := hstate.symm.trans hr
    have hwaiting := h.waiting hreading v hv
    by_cases hvu : v = u
    · subst hvu
      rw [hpc] at hwaiting
      simpa using hmove.waiting hreading hwaiting
    · simpa [Function.update_of_ne hvu] using hwaiting
  · obtain ⟨hcounts, hcount, hregistered⟩ := h.counted n hn
    refine ⟨?_, fun v hv => ?_, fun v hv hlt => ?_⟩ <;> simp only [w.2.user_counted w.1.shared u pc]
    · exact hcounts
    · simp only [hphase, hcompleted] at hv
      exact hcount v hv
    · simp only [hphase] at hlt
      subst hpc
      obtain ⟨hv, hlt⟩ := hmove.registered_back hv hlt le_rfl
      exact hregistered v hv hlt
  · simp only [hphase] at hlt
    simp only [hphase, hcompleted]
    subst hpc
    obtain ⟨hv, hlt⟩ := hmove.registered_back hv hlt le_rfl
    exact h.passed hp v hv hlt

omit [DecidableEq ι] in
/-- A user completes the call that it started in this phase. -/
theorem BarrierOk.increment (h : BarrierOk w) (hpc : w.1.user u = .loadDone)
    (hstarted : w.2.startedIn u = some w.2.phase) (hwindow : w.1.sorter.window = true)
    (hcounted : w.1.sorter.counting = true → w.2.counted u = true) :
    BarrierOk ({ w.1 with
      shared := { w.1.shared with readerDoneCount := w.1.shared.readerDoneCount + 1 }
      user := Function.update w.1.user u .waitEnd },
      { w.2 with completedIn := Function.update w.2.completedIn u (w.2.startedIn u) }) := by
  have hreading := h.phase.trans (SorterPc.phase_of_window hwindow)
  have hnot : w.2.completedIn u ≠ some w.2.phase := by
    intro hu
    have hwaiting := h.waiting hreading u hu
    rw [hpc] at hwaiting
    cases hwaiting
  rw [hstarted]
  refine ⟨h.phase, fun v n hv => ?_, fun v p hp => ?_, ?_, fun _ => ?_, fun hw => ?_,
    fun _ v hv => ?_, fun n hn => ?_, fun n hn => ?_, fun hp v hv hlt => ?_⟩
  · by_cases hvu : v = u
    · subst hvu
      simp at hv
    · exact h.atomic v n (by simpa [Function.update_of_ne hvu] using hv)
  · by_cases hvu : v = u
    · subst hvu
      obtain rfl : w.2.phase = p := by simpa using hp
      exact le_rfl
    · exact h.completed_le v p (by simpa [Function.update_of_ne hvu] using hp)
  · refine h.readers.congr fun v => ?_
    by_cases hvu : v = u
    · subst hvu
      simp [hpc, UserPc.registered]
    · simp [Function.update_of_ne hvu]
  · refine (h.readersDone hwindow).enter hnot (by simp) fun v hv => ?_
    simp [Function.update_of_ne hv]
  · rw [hwindow] at hw
    cases hw
  · by_cases hvu : v = u
    · subst hvu
      simp [UserPc.waiting]
    · have hv' : w.2.completedIn v = some w.2.phase := by simpa [Function.update_of_ne hvu] using hv
      simpa [Function.update_of_ne hvu] using h.waiting hreading v hv'
  · exact (h.tested n hn).trans (by simp)
  · obtain ⟨hcounts, hcount, hregistered⟩ := h.counted n hn
    refine ⟨hcounts, fun v hv => ?_, fun v hv hlt => ?_⟩
    · by_cases hvu : v = u
      · subst hvu
        exact hcounted (by rw [show w.1.sorter = .testDone n from hn]; rfl)
      · exact hcount v (by simpa [Function.update_of_ne hvu] using hv)
    · by_cases hvu : v = u
      · subst hvu
        exact hregistered v (by rw [hpc]; rfl) hlt
      · exact hregistered v (by simpa [Function.update_of_ne hvu] using hv) hlt
  · by_cases hvu : v = u
    · subst hvu
      simp
    · have hcompleted := h.passed hp v (by simpa [Function.update_of_ne hvu] using hv) hlt
      simpa [Function.update_of_ne hvu] using hcompleted

omit [DecidableEq ι] in
theorem BarrierOk.user (h : BarrierOk w) (hpc : w.1.user u = pc)
    (hmove : UserMove true alive w.1.shared pc sh' pc')
    (hphase : pc = .loadDone → w.2.startedIn u = some w.2.phase ∧ w.1.sorter.window = true)
    (hcounted : pc = .loadDone → w.1.sorter.counting = true → w.2.counted u = true) :
    BarrierOk ({ w.1 with shared := sh', user := Function.update w.1.user u pc' },
      w.2.user w.1.shared u pc) := by
  by_cases hne : pc = .loadDone
  · subst hne
    obtain ⟨hstarted, hwindow⟩ := hphase rfl
    cases hmove with
    | increment hatomic => exact h.increment hpc hstarted hwindow (hcounted rfl)
    | loadDone hsplit => cases hsplit
  · exact h.moveUser hpc hmove hne

end User

/-- Every step that `IncrementsInWindow` allows keeps the invariant. -/
theorem BarrierOk.step {a : Action ι κ} {w' : System ι κ × Rounds κ} (h : BarrierOk w)
    (hg : IncrementsInWindow w a) (hs : roundStep w a = some w') : BarrierOk w' := by
  obtain ⟨t, r⟩ := w'
  obtain ⟨hs, rfl⟩ := withHistory_eq_some_iff.mp hs
  cases systemMove_of_step hs with
  | timer sh' hsh => exact h.elsewhere hsh.serverState hsh.readerCount hsh.readerDoneCount
  | sorter move countFirst hmove => exact h.sorter rfl hmove
  | observer o input hframe =>
    exact h.elsewhere hframe.serverState hframe.readerCount hframe.readerDoneCount
  | user u alive hmove => exact h.user rfl hmove hg.1 hg.2

/-- **The reader barrier** in every state of every run whose increments fall into their window. -/
theorem readerBarrier_of_inWindow (w : System ι κ × Rounds κ)
    (h : Reach (fun w a w' => roundStep w a = some w') IncrementsInWindow
      (System.init ι κ, Rounds.init κ) w) : ReaderBarrier w := by
  have hok := Reach.invariant barrierOk_init (fun _ _ _ hok hg hs => hok.step hg hs) h
  intro hdone
  exact hok.passed (by rw [hdone]; rfl)

/-! ## Runs -/

instance (w : System ι κ × Rounds κ) : (a : Action ι κ) → Decidable (IncrementsInPhase w a)
  | .user u _ => inferInstanceAs (Decidable (w.1.user u = .loadDone →
      w.2.startedIn u = some w.2.phase ∧ w.1.sorter.window = true))
  | .timer | .sorter _ _ | .observer _ _ => inferInstanceAs (Decidable True)

instance (w : System ι κ × Rounds κ) : (a : Action ι κ) → Decidable (IncrementsCounted w a)
  | .user u _ => inferInstanceAs (Decidable (w.1.user u = .loadDone →
      w.1.sorter.counting = true → w.2.counted u = true))
  | .timer | .sorter _ _ | .observer _ _ => inferInstanceAs (Decidable True)

instance (w : System ι κ × Rounds κ) (a : Action ι κ) : Decidable (IncrementsInWindow w a) :=
  inferInstanceAs (Decidable (IncrementsInPhase w a ∧ IncrementsCounted w a))

/-- Two users register. In the next phase one sends, the sorter reads `reader_count`, the other
sends, and the sorter reads `reader_done_count` and gets to `set_server_state(DONE)`. -/
def inWindowRun : List (Action ℕ ℕ) :=
  List.replicate 2 (.user 0 true) ++ List.replicate 2 (.user 1 true) ++
    .timer :: List.replicate 8 (.sorter none) ++ List.replicate 5 (.user 0 true) ++
    [.sorter none true] ++ List.replicate 5 (.user 1 true) ++ List.replicate 2 (.sorter none)

theorem readerBarrier_of_inWindow_run : ∃ w : System ℕ ℕ × Rounds ℕ,
    (w.1.sorter = .setDone ∧ (w.1.user 0).registered = true ∧ (w.1.user 1).registered = true) ∧
      ReaderBarrier w := by
  obtain ⟨w, hw, hp⟩ := Reach.exists_of_foldlM roundStep IncrementsInWindow
    (System.init ℕ ℕ, Rounds.init ℕ) inWindowRun
    (fun w => decide (w.1.sorter = .setDone ∧ (w.1.user 0).registered = true ∧
      (w.1.user 1).registered = true)) rfl
  exact ⟨w, of_decide_eq_true hp, readerBarrier_of_inWindow w hw⟩

/-- In the first phase the test passes without users; a user joins and starts `send_entries`, the
sorter resets the counter, the user increments it, and the sorter sets `DONE`. The user has not
looked at the state again when the second phase begins and its test passes. -/
def leftoverRun : List (Action ℕ ℕ) :=
  .timer :: List.replicate 10 (.sorter none) ++ List.replicate 6 (.user 0 true) ++
    [.sorter none, .user 0 true, .sorter none] ++ .timer :: List.replicate 11 (.sorter none)

/-- **A phase without its reader**: the user was registered before the second phase and has
completed only the call it started in the first. -/
theorem readerBarrier_lost : ∃ w : System ℕ ℕ × Rounds ℕ,
    Reach (fun w a w' => roundStep w a = some w') (fun _ _ => True)
      (System.init ℕ ℕ, Rounds.init ℕ) w ∧ ¬ ReaderBarrier w := by
  obtain ⟨w, hw, hp⟩ := Reach.exists_of_foldlM roundStep (fun _ _ => True)
    (System.init ℕ ℕ, Rounds.init ℕ) leftoverRun
    (fun w => decide (w.1.sorter = .setDone ∧ (w.1.user 0).registered = true ∧
      w.2.registeredIn 0 < w.2.phase ∧ w.2.completedIn 0 ≠ some w.2.phase)) rfl
  obtain ⟨hsorter, hregistered, hlt, hne⟩ := of_decide_eq_true hp
  exact ⟨w, hw, fun h => hne (h hsorter 0 hregistered hlt)⟩

/-- A user registers before the phase and is not scheduled in it. The sorter reads `reader_count`
as 1, another user joins and sends, and the sorter reads `reader_done_count` as 1. -/
def standInRun : List (Action ℕ ℕ) :=
  List.replicate 2 (.user 0 true) ++ .timer :: List.replicate 8 (.sorter none) ++
    [.sorter none true] ++ List.replicate 7 (.user 1 true) ++ List.replicate 2 (.sorter none)

/-- **A phase without its reader** although every increment is of its phase: the user that
increments between the two reads was not counted. -/
theorem readerBarrier_lost_of_countFirst : ∃ w : System ℕ ℕ × Rounds ℕ,
    Reach (fun w a w' => roundStep w a = some w') IncrementsInPhase
      (System.init ℕ ℕ, Rounds.init ℕ) w ∧ ¬ ReaderBarrier w := by
  obtain ⟨w, hw, hp⟩ := Reach.exists_of_foldlM roundStep IncrementsInPhase
    (System.init ℕ ℕ, Rounds.init ℕ) standInRun
    (fun w => decide (w.1.sorter = .setDone ∧ (w.1.user 0).registered = true ∧
      w.2.registeredIn 0 < w.2.phase ∧ w.2.completedIn 0 ≠ some w.2.phase)) rfl
  obtain ⟨hsorter, hregistered, hlt, hne⟩ := of_decide_eq_true hp
  exact ⟨w, hw, fun h => hne (h hsorter 0 hregistered hlt)⟩

end C380.Notapp
