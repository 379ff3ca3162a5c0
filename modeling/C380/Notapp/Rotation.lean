import C380.Lib.Fairness
import C380.Notapp.Threads

/-!
# The sorter always gets round

`is_locked()` is there so that a thread that never answers cannot stop the server: the timer flips
`timer_expired`, and flips `possible_lock_detected` when the sorter has not cleared the first one
yet. These are the runs of `System.next`, in which a lock may be detected at any time.

* `isLocked_iff`: **a lock is detected exactly while the timer has fired twice or more since the
  sorter last cleared it**, in every state of every run.
* `rotates_forever`: **the server goes through `SORTING`, `READING` and `DONE` for ever** in every
  infinite run in which the timer fires again and again and the sorter is scheduled and comes back
  from `qsort`. Nothing is asked of the observers and the users: each may stop for ever at any
  place, inside `add_entry` or before its answer is read.

`SorterPc.stage` numbers the rotation and every step of the sorter stays in its stage or goes on to
the next. Three stages may have to wait (`waits`): in them the timer helps until the lock is
detected, and from then on the sorter leaves in at most three steps.
-/

namespace C380.Notapp

open Filter Transition

variable {ι κ : Type} {s s' : System ι κ} {a : Action ι κ}

/-! ## What the steps do to the timer and the server state -/

/-- The variables that only the timer and the sorter write, unchanged. -/
structure Shared.SameClock (sh sh' : Shared) : Prop where
  timerExpired : sh'.timerExpired = sh.timerExpired
  possibleLockDetected : sh'.possibleLockDetected = sh.possibleLockDetected
  serverState : sh'.serverState = sh.serverState

theorem observerStep_sameClock {sh sh' : Shared} {input : Option UserEntry} {pc pc' : ObserverPc}
    (h : observerStep sh input pc = some (sh', pc')) : sh.SameClock sh' := by
  revert h
  fun_cases observerStep sh input pc <;> intro h <;> cases h <;> exact ⟨rfl, rfl, rfl⟩

theorem userStep_sameClock {atomicIncrement alive : Bool} {sh sh' : Shared} {pc pc' : UserPc}
    (h : userStep atomicIncrement sh alive pc = some (sh', pc')) : sh.SameClock sh' := by
  revert h
  fun_cases userStep atomicIncrement sh alive pc <;> intro h <;> cases h <;> exact ⟨rfl, rfl, rfl⟩

/-- The sorter writes the flags of the timer only by `set_timer_expired(false)`. -/
theorem sorterStep_clock {sh sh' : Shared} {move : Option (Fin clientMax × UserEntry)}
    {countFirst : Bool} {pc pc' : SorterPc}
    (h : sorterStep sh move countFirst pc = some (sh', pc')) :
    pc = .clearTimer ∧ sh' = sh.setTimerExpired false ∨ pc ≠ .clearTimer ∧
      sh'.timerExpired = sh.timerExpired ∧
        sh'.possibleLockDetected = sh.possibleLockDetected := by
  revert h
  fun_cases sorterStep sh move countFirst pc <;> intro h <;> cases h
  all_goals first | exact Or.inl ⟨rfl, rfl⟩ | exact Or.inr ⟨SorterPc.noConfusion, rfl, rfl⟩

/-- The server state is the phase of the sorter also when a lock has been detected. -/
theorem sorterStep_phase {sh sh' : Shared} {move : Option (Fin clientMax × UserEntry)}
    {countFirst : Bool} {pc pc' : SorterPc}
    (h : sorterStep sh move countFirst pc = some (sh', pc')) (hs : sh.serverState = pc.phase) :
    sh'.serverState = pc'.phase := by
  revert h
  fun_cases sorterStep sh move countFirst pc <;> intro h <;> cases h <;> try split
  all_goals first | rfl | exact hs

/-- A step of the system, with the place of the sorter and the clock only. -/
inductive ClockMove (s : System ι κ) : Action ι κ → System ι κ → Prop
  | timer {s' : System ι κ} (hsh : s'.shared = s.shared.setTimerExpired true)
      (hpc : s'.sorter = s.sorter) : ClockMove s .timer s'
  | sorter {s' : System ι κ} (move : Option (Fin clientMax × UserEntry)) (countFirst : Bool)
      (h : sorterStep s.shared move countFirst s.sorter = some (s'.shared, s'.sorter)) :
      ClockMove s (.sorter move countFirst) s'
  | observer {s' : System ι κ} (o : ι) (input : Option UserEntry)
      (hsh : s.shared.SameClock s'.shared) (hpc : s'.sorter = s.sorter) :
      ClockMove s (.observer o input) s'
  | user {s' : System ι κ} (u : κ) (alive : Bool) (hsh : s.shared.SameClock s'.shared)
      (hpc : s'.sorter = s.sorter) : ClockMove s (.user u alive) s'

theorem clockMove_of_next [DecidableEq ι] [DecidableEq κ] {atomicIncrement : Bool}
    (h : s.next atomicIncrement a = some s') :
    ClockMove s a s' := by
  cases a with
  | timer =>
    cases h
    exact .timer rfl rfl
  | sorter move countFirst =>
    obtain ⟨⟨sh', pc'⟩, hstep, rfl⟩ := Option.map_eq_some_iff.mp h
    exact .sorter move countFirst hstep
  | observer o input =>
    obtain ⟨⟨sh', pc'⟩, hstep, rfl⟩ := Option.map_eq_some_iff.mp h
    exact .observer o input (observerStep_sameClock hstep) rfl
  | user u alive =>
    obtain ⟨⟨sh', pc'⟩, hstep, rfl⟩ := Option.map_eq_some_iff.mp h
    exact .user u alive (userStep_sameClock hstep) rfl

/-! ## What a detected lock means -/

/-- The two flags of the timer tell one, and two or more. -/
structure Shared.Fired (sh : Shared) (fires : ℕ) : Prop where
  expired : sh.timerExpired = true ↔ 1 ≤ fires
  locked : sh.possibleLockDetected = true ↔ 2 ≤ fires

theorem Shared.Fired.congr {sh sh' : Shared} {fires : ℕ} (h : sh.Fired fires)
    (hsh : sh.SameClock sh') : sh'.Fired fires :=
  ⟨by rw [hsh.timerExpired, h.expired], by rw [hsh.possibleLockDetected, h.locked]⟩

theorem Shared.Fired.fire {sh : Shared} {fires : ℕ} (h : sh.Fired fires) :
    (sh.setTimerExpired true).Fired (fires + 1) := by
  refine ⟨by simp [Shared.setTimerExpired], ?_⟩
  simp only [Shared.setTimerExpired, Bool.true_and, h.expired]
  omega

theorem Shared.fired_clear (sh : Shared) : (sh.setTimerExpired false).Fired 0 := by
  constructor <;> simp [Shared.setTimerExpired]

theorem sorterStep_fired {sh sh' : Shared} {move : Option (Fin clientMax × UserEntry)}
    {countFirst : Bool} {pc pc' : SorterPc} {fires : ℕ}
    (h : sorterStep sh move countFirst pc = some (sh', pc')) (hf : sh.Fired fires) :
    sh'.Fired (if pc = .clearTimer then 0 else fires) := by
  rcases sorterStep_clock h with ⟨hpc, rfl⟩ | ⟨hpc, hexpired, hlocked⟩
  · rw [if_pos hpc]
    exact sh.fired_clear
  · rw [if_neg hpc]
    exact ⟨by rw [hexpired, hf.expired], by rw [hlocked, hf.locked]⟩

/-- How often the timer has fired since the sorter cleared `timer_expired`. -/
def recordFires (s : System ι κ) (a : Action ι κ) (fires : ℕ) : ℕ :=
  match a with
  | .timer => fires + 1
  | .sorter _ _ => if s.sorter = .clearTimer then 0 else fires
  | _ => fires

section Fires

variable [DecidableEq ι] [DecidableEq κ]

/-- A step of the system with its record. -/
def fireStep (atomicIncrement : Bool) : System ι κ × ℕ → Action ι κ → Option (System ι κ × ℕ) :=
  withHistory (System.next atomicIncrement) recordFires

theorem fired_step {atomicIncrement : Bool} {w w' : System ι κ × ℕ}
    (hf : w.1.shared.Fired w.2) (h : fireStep atomicIncrement w a = some w') :
    w'.1.shared.Fired w'.2 := by
  obtain ⟨hs, hr⟩ := withHistory_eq_some_iff.mp h
  rw [hr]
  cases clockMove_of_next hs with
  | timer hsh _ => exact hsh ▸ hf.fire
  | sorter move countFirst hmove => exact sorterStep_fired hmove hf
  | observer o input hsh _ => exact hf.congr hsh
  | user u alive hsh _ => exact hf.congr hsh

/-- **What `is_locked()` says**: the timer has fired at least twice since `output_sorter` last
cleared it. -/
theorem isLocked_iff {atomicIncrement : Bool} {guard : System ι κ × ℕ → Action ι κ → Prop}
    {w : System ι κ × ℕ} (h : Reach (fun w a w' => fireStep atomicIncrement w a = some w') guard
      (System.init ι κ, 0) w) : w.1.shared.possibleLockDetected = true ↔ 2 ≤ w.2 := by
  have hinit : (System.init ι κ).shared.Fired 0 := by
    constructor <;> simp [System.init, Shared.init]
  have hf : w.1.shared.Fired w.2 := by
    induction h with
    | init => exact hinit
    | step a _ _ hs ih => exact fired_step ih hs
  exact hf.locked

/-- **The runs in which no lock is detected are those in which the timer never fires a second time
before the sorter clears it**, whatever else restricts them. -/
theorem reach_step_iff_fires (atomicIncrement : Bool) (guard : System ι κ → Action ι κ → Prop)
    (s : System ι κ) :
    Reach (fun s a s' => System.step atomicIncrement s a = some s') guard (System.init ι κ) s ↔
      ∃ fires, Reach (fun w a w' => fireStep atomicIncrement w a = some w')
        (fun w a => guard w.1 a ∧ w.2 < 2) (System.init ι κ, 0) (s, fires) := by
  constructor
  · intro h
    induction h with
    | init => exact ⟨0, .init⟩
    | step a _ hg hs ih =>
      obtain ⟨fires, hw⟩ := ih
      simp only [System.step, Option.ite_none_left_eq_some] at hs
      have hlt := not_le.mp (mt (isLocked_iff hw).mpr hs.1)
      exact ⟨_, .step a hw ⟨hg, hlt⟩ (withHistory_eq_some_iff.mpr ⟨hs.2, rfl⟩)⟩
  · rintro ⟨fires, h⟩
    generalize hw : (s, fires) = w at h
    obtain rfl : w.1 = s := congrArg Prod.fst hw.symm
    clear hw
    induction h with
    | init => exact .init
    | step a hw hg hs ih =>
      refine .step a ih hg.1 ?_
      have hlock := mt (isLocked_iff hw).mp (not_le.mpr hg.2)
      exact (if_neg hlock).trans (withHistory_eq_some_iff.mp hs).1

end Fires

/-! ## The rotation -/

/-- The stages of the rotation of `output_sorter`, in the order of its statements. -/
def SorterPc.stage : SorterPc → Fin 11
  | .checkTimer => 0
  | .clearTimer => 1
  | .waitDone | .waitDoneLock => 2
  | .setSorting => 3
  | .waitWriters | .waitWritersLock => 4
  | .loadArraySize => 5
  | .sort _ => 6
  | .setReading => 7
  | .loadReaders | .testReaders _ | .testDone _ | .waitReadersLock => 8
  | .reset => 9
  | .setDone => 10

/-- Inside a loop that only another thread, or a detected lock, ends. -/
def SorterPc.waits : SorterPc → Bool
  | .waitDone | .waitDoneLock | .waitWriters | .waitWritersLock | .loadReaders | .testReaders _
  | .testDone _ | .waitReadersLock => true
  | _ => false

/-- How far the next test of `is_locked()` is. -/
def SorterPc.untilTest : SorterPc → ℕ
  | .waitDone | .waitWriters | .testReaders _ | .testDone _ => 1
  | .loadReaders => 2
  | _ => 0

/-- The two threads that bring the server round. -/
inductive Driver where
  | timer
  | sorter
  deriving DecidableEq

/-- The actions of the drivers; a row that `sort_entry_array` writes is not one. -/
def Driver.acts (d : Driver) (s : System ι κ) (a : Action ι κ) : Prop :=
  match d, a with
  | .timer, .timer => True
  | .sorter, .sorter move _ => s.sorter.stage = 6 → move = none
  | _, _ => False

/-- Who helps the sorter out of its stage. -/
def Shared.helpful (sh : Shared) (pc : SorterPc) : Driver :=
  if pc.waits then if sh.possibleLockDetected then .sorter else .timer
  else if pc = .checkTimer ∧ sh.timerExpired = false then .timer else .sorter

/-- How often the help is still needed. -/
def Shared.rank (sh : Shared) (pc : SorterPc) : ℕ :=
  if pc.waits then
    if sh.possibleLockDetected then pc.untilTest else if sh.timerExpired then 3 else 4
  else if pc = .checkTimer ∧ sh.timerExpired = false then 1 else 0

/-- What the rotation rests on. -/
structure RotationOk (s : System ι κ) : Prop where
  phase : s.shared.serverState = s.sorter.phase
  locked : s.shared.possibleLockDetected = true → s.shared.timerExpired = true

/-- What a step of the sorter does for the rotation. -/
inductive Turn (sh : Shared) (move : Option (Fin clientMax × UserEntry)) :
    SorterPc → Shared → SorterPc → Prop
  | onward {pc pc' : SorterPc} {sh' : Shared} (hstage : pc'.stage = pc.stage + 1) :
      Turn sh move pc sh' pc'
  | idle (hexpired : sh.timerExpired = false) : Turn sh move .checkTimer sh .checkTimer
  | loop {pc pc' : SorterPc} (hstage : pc'.stage = pc.stage) (hwaits : pc.waits = true)
      (hwaits' : pc'.waits = true)
      (htest : sh.possibleLockDetected = true → pc'.untilTest < pc.untilTest) :
      Turn sh move pc sh pc'
  | moveRow (n : Int) {sh' : Shared} (hmove : move ≠ none) (hsh : sh.SameClock sh') :
      Turn sh move (.sort n) sh' (.sort n)

theorem turn_of_sorterStep {sh sh' : Shared} {move : Option (Fin clientMax × UserEntry)}
    {countFirst : Bool} {pc pc' : SorterPc}
    (h : sorterStep sh move countFirst pc = some (sh', pc')) : Turn sh move pc sh' pc' := by
  cases pc with
  | checkTimer =>
    cases h
    split
    · exact .onward rfl
    · rename_i hexpired
      exact .idle (Bool.eq_false_of_not_eq_true hexpired)
  | waitDone =>
    cases h
    split
    · exact .loop rfl rfl rfl fun _ => Nat.zero_lt_one
    · exact .onward rfl
  | waitDoneLock =>
    cases h
    split
    · exact .onward rfl
    · rename_i hlock
      exact .loop rfl rfl rfl fun hl => absurd hl hlock
  | waitWriters =>
    cases h
    split
    · exact .loop rfl rfl rfl fun _ => Nat.zero_lt_one
    · exact .onward rfl
  | waitWritersLock =>
    cases h
    split
    · exact .onward rfl
    · rename_i hlock
      exact .loop rfl rfl rfl fun hl => absurd hl hlock
  | sort n =>
    cases move with
    | none =>
      cases h
      exact .onward rfl
    | some m =>
      simp only [sorterStep, Option.ite_none_right_eq_some, Option.some.injEq, Prod.mk.injEq] at h
      obtain ⟨-, rfl, rfl⟩ := h
      exact .moveRow n (Option.some_ne_none m) ⟨rfl, rfl, rfl⟩
  | loadReaders =>
    cases h
    split
    · exact .loop rfl rfl rfl fun _ => Nat.one_lt_two
    · exact .loop rfl rfl rfl fun _ => Nat.one_lt_two
  | testReaders readerDone =>
    cases h
    split
    · exact .onward rfl
    · exact .loop rfl rfl rfl fun _ => Nat.zero_lt_one
  | testDone readers =>
    cases h
    split
    · exact .onward rfl
    · exact .loop rfl rfl rfl fun _ => Nat.zero_lt_one
  | waitReadersLock =>
    cases h
    split
    · exact .onward rfl
    · rename_i hlock
      exact .loop rfl rfl rfl fun hl => absurd hl hlock
  | _ =>
    cases h
    exact .onward rfl

/-- A step that leaves the clock alone. -/
theorem Shared.rank_congr {sh sh' : Shared} (hsh : sh.SameClock sh') (pc : SorterPc) :
    sh'.rank pc = sh.rank pc ∧ sh'.helpful pc = sh.helpful pc := by
  simp only [Shared.rank, Shared.helpful, hsh.timerExpired, hsh.possibleLockDetected, and_self]

theorem SorterPc.untilTest_lt (pc : SorterPc) : pc.untilTest < 3 := by
  cases pc <;> simp [SorterPc.untilTest]

/-- The timer fires: where it is waited for it helps, and elsewhere it changes nothing. -/
theorem Shared.rank_timer {sh : Shared} (hlocked : sh.possibleLockDetected = true →
    sh.timerExpired = true) (pc : SorterPc) :
    (sh.setTimerExpired true).rank pc < sh.rank pc ∨
      (sh.setTimerExpired true).rank pc = sh.rank pc ∧
        (sh.setTimerExpired true).helpful pc = sh.helpful pc ∧ sh.helpful pc = .sorter := by
  have htest := pc.untilTest_lt
  by_cases hw : pc.waits = true
  · cases hl : sh.possibleLockDetected with
    | true => simp [Shared.rank, Shared.helpful, Shared.setTimerExpired, hw, hl, hlocked hl]
    | false =>
      left
      cases he : sh.timerExpired with
      | true => simpa [Shared.rank, Shared.setTimerExpired, hw, hl, he] using htest
      | false => simp [Shared.rank, Shared.setTimerExpired, hw, hl, he]
  · by_cases hidle : pc = .checkTimer ∧ sh.timerExpired = false
    · left
      simp [Shared.rank, Shared.setTimerExpired, SorterPc.waits, hidle]
    · right
      simp [Shared.rank, Shared.helpful, Shared.setTimerExpired, hw, hidle]

/-- The sorter goes on to the next stage, gets nearer to the test of `is_locked()`, or goes round in
a loop that it cannot end. -/
theorem Turn.rank {sh sh' : Shared} {move : Option (Fin clientMax × UserEntry)} {pc pc' : SorterPc}
    (h : Turn sh move pc sh' pc') : pc'.stage = pc.stage + 1 ∨ pc'.stage = pc.stage ∧
      (sh'.rank pc' < sh.rank pc ∨ sh'.rank pc' = sh.rank pc ∧
        sh'.helpful pc' = sh.helpful pc ∧
          (sh.helpful pc = .timer ∨ pc.stage = 6 ∧ move ≠ none)) := by
  cases h with
  | onward hstage => exact Or.inl hstage
  | idle hexpired => simp [Shared.helpful, SorterPc.waits, hexpired]
  | loop hstage hwaits hwaits' htest =>
    refine Or.inr ⟨hstage, ?_⟩
    cases hl : sh.possibleLockDetected with
    | true =>
      left
      simpa [Shared.rank, hwaits, hwaits', hl] using htest hl
    | false => simp [Shared.rank, Shared.helpful, hwaits, hwaits', hl]
  | moveRow n hmove hsh =>
    have hcongr := Shared.rank_congr hsh (.sort n)
    exact Or.inr ⟨rfl, Or.inr ⟨hcongr.1, hcongr.2, Or.inr ⟨rfl, hmove⟩⟩⟩

theorem rotationOk_init : RotationOk (System.init ι κ) := ⟨rfl, fun h => (nomatch h)⟩

theorem RotationOk.step (hok : RotationOk s) (h : ClockMove s a s') : RotationOk s' := by
  cases h with
  | timer hsh hpc =>
    refine ⟨?_, fun _ => by rw [hsh]; rfl⟩
    rw [hsh, hpc]
    exact hok.phase
  | sorter move countFirst hmove =>
    refine ⟨sorterStep_phase hmove hok.phase, ?_⟩
    rcases sorterStep_clock hmove with ⟨-, hsh⟩ | ⟨-, hexpired, hlocked⟩
    · rw [hsh]
      exact fun hl => (nomatch hl)
    · rw [hexpired, hlocked]
      exact hok.locked
  | observer o input hsh hpc =>
    exact ⟨by rw [hsh.serverState, hpc, hok.phase],
      by rw [hsh.possibleLockDetected, hsh.timerExpired]; exact hok.locked⟩
  | user u alive hsh hpc =>
    exact ⟨by rw [hsh.serverState, hpc, hok.phase],
      by rw [hsh.possibleLockDetected, hsh.timerExpired]; exact hok.locked⟩

/-- A step within a stage that does not help brings nothing back. -/
theorem ClockMove.rank (h : ClockMove s a s') (hok : RotationOk s) :
    s'.sorter.stage = s.sorter.stage + 1 ∨ s'.sorter.stage = s.sorter.stage ∧
      (s'.shared.rank s'.sorter < s.shared.rank s.sorter ∨
        s'.shared.rank s'.sorter = s.shared.rank s.sorter ∧
          s'.shared.helpful s'.sorter = s.shared.helpful s.sorter ∧
            ¬ (s.shared.helpful s.sorter).acts s a) := by
  cases h with
  | timer hsh hpc =>
    rw [hsh, hpc]
    refine Or.inr ⟨rfl, (Shared.rank_timer hok.locked s.sorter).imp id ?_⟩
    rintro ⟨hrank, hhelp, hsorter⟩
    exact ⟨hrank, hhelp, by rw [hsorter]; exact id⟩
  | sorter move countFirst hmove =>
    refine (turn_of_sorterStep hmove).rank.imp id (And.imp id (Or.imp id ?_))
    rintro ⟨hrank, hhelp, htimer | ⟨hsort, hne⟩⟩
    · exact ⟨hrank, hhelp, by rw [htimer]; exact id⟩
    · refine ⟨hrank, hhelp, ?_⟩
      cases hd : s.shared.helpful s.sorter with
      | timer => exact id
      | sorter => exact fun hact => hne (hact hsort)
  | observer o input hsh hpc =>
    rw [hpc]
    obtain ⟨hrank, hhelp⟩ := Shared.rank_congr hsh s.sorter
    refine Or.inr ⟨rfl, Or.inr ⟨hrank, hhelp, ?_⟩⟩
    cases s.shared.helpful s.sorter <;> exact id
  | user u alive hsh hpc =>
    rw [hpc]
    obtain ⟨hrank, hhelp⟩ := Shared.rank_congr hsh s.sorter
    refine Or.inr ⟨rfl, Or.inr ⟨hrank, hhelp, ?_⟩⟩
    cases s.shared.helpful s.sorter <;> exact id

/-! ## The server state goes round -/

/-- The state after this one. -/
def ServerState.succ : ServerState → ServerState
  | .done => .sorting
  | .sorting => .reading
  | .reading => .done

/-- Where `output_sorter` sets the state. -/
def ServerState.setter : ServerState → SorterPc
  | .sorting => .setSorting
  | .reading => .setReading
  | .done => .setDone

/-- The phase of a stage. -/
def stagePhase (k : Fin 11) : ServerState :=
  if k ≤ 3 then .done else if k ≤ 7 then .sorting else .reading

theorem stagePhase_stage (pc : SorterPc) : stagePhase pc.stage = pc.phase := by
  cases pc <;> rfl

theorem stage_iterate (j k : Fin 11) : ∃ i : Fin 11, (· + 1)^[i] j = k := by
  revert j k
  decide

theorem stagePhase_add_one (k : Fin 11) :
    stagePhase (k + 1) = stagePhase k ∨ stagePhase (k + 1) = (stagePhase k).succ := by
  revert k
  decide

theorem ServerState.eq_setter {status : ServerState} {pc : SorterPc}
    (h : pc.stage = status.setter.stage) : pc = status.setter := by
  cases status <;> cases pc <;> first | rfl | cases h

theorem ServerState.setter_stage_ne (status : ServerState) : status.setter.stage ≠ 6 := by
  cases status <;> decide

theorem ServerState.setter_phase_ne (status : ServerState) : status.setter.phase ≠ status := by
  cases status <;> decide

/-- A step leaves the server state as it is or sets the next one. -/
theorem RotationOk.serverState (hok : RotationOk s) (h : ClockMove s a s') :
    s'.shared.serverState = s.shared.serverState ∨
      s'.shared.serverState = s.shared.serverState.succ := by
  rw [(hok.step h).phase, hok.phase, ← stagePhase_stage, ← stagePhase_stage]
  rcases h.rank hok with hnext | ⟨hsame, -⟩
  · rw [hnext]
    exact stagePhase_add_one _
  · rw [hsame]
    exact Or.inl rfl

/-- The sorter stays where it sets a state until it is scheduled. -/
theorem ClockMove.setter {status : ServerState} (h : ClockMove s a s')
    (hpc : s.sorter = status.setter) (hnot : ¬ Driver.sorter.acts s a) :
    s'.sorter = status.setter := by
  cases h with
  | timer hsh hpc' => rw [hpc', hpc]
  | sorter move countFirst hmove =>
    refine absurd (fun hstage => ?_) hnot
    rw [hpc] at hstage
    exact absurd hstage status.setter_stage_ne
  | observer o input hsh hpc' => rw [hpc', hpc]
  | user u alive hsh hpc' => rw [hpc', hpc]

/-- And then it does set it. -/
theorem ClockMove.sets {status : ServerState} (h : ClockMove s a s')
    (hpc : s.sorter = status.setter) (hact : Driver.sorter.acts s a) :
    s'.shared.serverState = status := by
  cases h with
  | sorter move countFirst hmove =>
    rw [hpc] at hmove
    cases status <;> exact congrArg (·.1.serverState) (Option.some.inj hmove).symm
  | _ => exact hact.elim

section Forever

variable [DecidableEq ι] [DecidableEq κ] {atomicIncrement : Bool}
  {r : Run fun (s : System ι κ) a s' => s.next atomicIncrement a = some s'}

/-- The sorter leaves every stage for the next. -/
theorem stage_leadsTo (hok : ∀ n, RotationOk (r.state n)) (hfair : ∀ d : Driver, r.Often d.acts)
    (k : Fin 11) : r.LeadsTo (fun s => s.sorter.stage = k) (fun s => s.sorter.stage = k + 1) := by
  have hleads : r.LeadsTo (fun s => RotationOk s ∧ s.sorter.stage = k)
      (fun s => s.sorter.stage = k + 1) := by
    refine Run.leadsTo_of_rank (fun s => s.shared.rank s.sorter)
      (fun s => s.shared.helpful s.sorter) hfair fun s a s' hs hp => ?_
    have hmove := clockMove_of_next hs
    rcases hmove.rank hp.1 with hnext | ⟨hsame, hrank⟩
    · exact Or.inl (hnext.trans (by rw [hp.2]))
    · exact Or.inr ⟨⟨hp.1.step hmove, hsame.trans hp.2⟩, hrank⟩
  exact fun n hn => hleads n ⟨hok n, hn⟩

/-- Every stage comes again and again. -/
theorem exists_stage (hok : ∀ n, RotationOk (r.state n)) (hfair : ∀ d : Driver, r.Often d.acts)
    (k : Fin 11) (n : ℕ) : ∃ m ≥ n, (r.state m).sorter.stage = k := by
  obtain ⟨i, hi⟩ := stage_iterate (r.state n).sorter.stage k
  rw [← hi]
  exact r.exists_iterate (fun s => s.sorter.stage) (· + 1) (stage_leadsTo hok hfair) n i

/-- **The server goes round for ever**: in every infinite run in which the timer fires again and
again and the sorter is scheduled and returns from `qsort` again and again, every change of the
server state is to the next one, and each state is set infinitely often. -/
theorem rotates_forever (atomicIncrement : Bool)
    (r : Run fun (s : System ι κ) a s' => s.next atomicIncrement a = some s')
    (hinit : r.state 0 = System.init ι κ) (hfair : ∀ d : Driver, r.Often d.acts) :
    (∀ n, (r.state (n + 1)).shared.serverState = (r.state n).shared.serverState ∨
      (r.state (n + 1)).shared.serverState = (r.state n).shared.serverState.succ) ∧
    ∀ status n, ∃ m ≥ n, (r.state m).shared.serverState ≠ status ∧
      (r.state (m + 1)).shared.serverState = status := by
  have hok : ∀ n, RotationOk (r.state n) :=
    r.invariant (fun s a s' hs h => hs.step (clockMove_of_next h)) (hinit ▸ rotationOk_init)
  refine ⟨fun n => (hok n).serverState (clockMove_of_next (r.next n)), fun status n => ?_⟩
  obtain ⟨k, hk, hstage⟩ := exists_stage hok hfair status.setter.stage n
  obtain ⟨m, hm, hpc, hact⟩ := (hfair .sorter).exists_taken
    (fun s a s' h hpc hnot => (clockMove_of_next h).setter hpc hnot)
    (ServerState.eq_setter hstage)
  refine ⟨m, hk.trans hm, ?_, (clockMove_of_next (r.next m)).sets hpc hact⟩
  rw [(hok m).phase, hpc]
  exact status.setter_phase_ne

end Forever

/-! ## A user that never answers -/

/-- A user registers and is never heard of again; the timer and the sorter take turns. -/
def deadUser : ℕ → Action ℕ ℕ
  | 0 | 1 => .user 0 true
  | n + 2 => if n % 2 = 0 then .timer else .sorter none

theorem sorterStep_none_isSome (sh : Shared) (countFirst : Bool) (pc : SorterPc) :
    (sorterStep sh none countFirst pc).isSome = true := by
  cases pc <;> rfl

theorem deadUser_isSome (s : System ℕ ℕ) (n : ℕ) : (s.next true (deadUser (n + 2))).isSome := by
  simp only [deadUser]
  split
  · rfl
  · rw [System.next, Option.isSome_map]
    exact sorterStep_none_isSome _ _ _

/-- The run of these actions. -/
def deadUserRun : Run fun (s : System ℕ ℕ) a s' => s.next true a = some s' :=
  .ofActions (System.next true) (System.init ℕ ℕ) deadUser fun n =>
    match n with
    | 0 => rfl
    | 1 => rfl
    | n + 2 => deadUser_isSome _ n

theorem deadUser_next {s s' : System ℕ ℕ} {n : ℕ} (h : s.next true (deadUser (n + 2)) = some s') :
    s'.user = s.user := by
  simp only [deadUser] at h
  split at h
  · cases h
    rfl
  · obtain ⟨_, _, rfl⟩ := Option.map_eq_some_iff.mp h
    rfl

theorem deadUserRun_waits (n : ℕ) : (deadUserRun.state (n + 2)).user 0 = .waitReading := by
  induction n with
  | zero => rfl
  | succ n ih =>
    rw [← ih]
    exact congrFun (deadUser_next (deadUserRun.next (n + 2))) 0

theorem deadUserRun_often (d : Driver) : deadUserRun.Often d.acts := by
  refine frequently_atTop.mpr fun n => ?_
  cases d with
  | timer =>
    refine ⟨2 * n + 2, by omega, ?_⟩
    have haction : deadUserRun.action (2 * n + 2) = .timer := if_pos (by omega)
    rw [haction]
    trivial
  | sorter =>
    refine ⟨2 * n + 1 + 2, by omega, ?_⟩
    have haction : deadUserRun.action (2 * n + 1 + 2) = .sorter none := if_neg (by omega)
    rw [haction]
    exact fun _ => rfl

theorem rotates_forever_deadUser : (∀ n, (deadUserRun.state (n + 2)).user 0 = .waitReading) ∧
    ∀ status n, ∃ m ≥ n, (deadUserRun.state m).shared.serverState ≠ status ∧
      (deadUserRun.state (m + 1)).shared.serverState = status :=
  ⟨deadUserRun_waits, (rotates_forever true deadUserRun rfl deadUserRun_often).2⟩

end C380.Notapp
