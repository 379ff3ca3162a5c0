import C380.Lib.Transition
import C380.Notapp.ServerData

/-!
# The threads of the server (`Assignment02/server.c`, `Assignment02/server_data.c`)

One `output_sorter`, any number of `observer_thread`s and `user_thread`s, and the timer, over the
static variables of `server_data.c`. Every read or write of a shared variable is a step of its own,
and so is everything a mutex makes atomic by itself (`++writer_count`, `--writer_count`,
`++reader_count`, `--reader_count`, `set_server_state`, `set_timer_expired`). A run takes the steps
of the threads in any order.

* A place (`SorterPc`, `ObserverPc`, `UserPc`) is named after what the thread does next, with the
  local variables that are live there.
* `a && b` of two shared reads is two places. C leaves open which operand of
  `reader_done_count >= reader_count` is read first; `countFirst` chooses at every evaluation.
* `send_string` reads the row of `entry_array` twice, in `strlen` and in `send`.
* `register_observer` and `unregister_observer` are taken apart: only the first holds
  `entry_array_register_mutex`.
* In `sort_entry_array` the sorter reads `entry_array_size` and then writes rows below what it read:
  every array that `qsort` goes through, and more, since nothing here depends on the order it ends
  in.
* `++reader_done_count` has no mutex: it is a load and a store, or one step when
  `atomicIncrement` is set.
* An access past `entry_array` (index `-1`, or a count above `CLIENT_MAX`) has no step.

Out of scope: `print_logfile`, which only reads (`Logfile` adds it); a `strlen` or a `send` that
sees a row while `strcpy` or the `memcpy` of `qsort` is halfway through it, since a row's string is
read and written in one step; and weaker memory than one order of all steps.
-/

namespace C380.Notapp

/-- `enum server_state`. -/
inductive ServerState where
  | done
  | sorting
  | reading
  deriving DecidableEq, Repr

/-- The static variables of `server_data.c` that the threads share. -/
structure Shared where
  timerExpired : Bool
  possibleLockDetected : Bool
  serverState : ServerState
  readerDoneCount : Int
  readerCount : Int
  writerCount : Int
  registerMutex : Bool
  data : ServerData

/-- The static initialisers. -/
def Shared.init : Shared := ⟨false, false, .done, 0, 0, 0, false, emptyServerData⟩

/-- `set_timer_expired`. -/
def Shared.setTimerExpired (sh : Shared) (status : Bool) : Shared :=
  { sh with
    possibleLockDetected := status && sh.timerExpired
    timerExpired := status }

/-! ## `output_sorter` -/

/-- The places of `output_sorter`. -/
inductive SorterPc where
  | checkTimer
  | clearTimer
  | waitDone
  | waitDoneLock
  | setSorting
  | waitWriters
  | waitWritersLock
  | loadArraySize
  | sort (entryArraySize : Int)
  | setReading
  /- `are_readers_done` -/
  | loadReaders
  | testReaders (readerDone : Int)
  | testDone (readers : Int)
  | waitReadersLock
  | reset
  | setDone
  deriving DecidableEq, Repr

/-- One step of `output_sorter`. `move` is the row it writes next inside `sort_entry_array`, `none`
when it returns from there; `countFirst` says which operand `are_readers_done` reads first. -/
def sorterStep (sh : Shared) (move : Option (Fin clientMax × UserEntry)) (countFirst : Bool) :
    SorterPc → Option (Shared × SorterPc)
  | .checkTimer => some (sh, if sh.timerExpired then .clearTimer else .checkTimer)
  | .clearTimer => some (sh.setTimerExpired false, .waitDone)
  | .waitDone => some (sh, if sh.serverState ≠ .done then .waitDoneLock else .setSorting)
  | .waitDoneLock => some (sh, if sh.possibleLockDetected then .setSorting else .waitDone)
  | .setSorting => some ({ sh with serverState := .sorting }, .waitWriters)
  | .waitWriters => some (sh, if sh.writerCount ≠ 0 then .waitWritersLock else .loadArraySize)
  | .waitWritersLock => some (sh, if sh.possibleLockDetected then .loadArraySize else .waitWriters)
  | .loadArraySize => some (sh, .sort sh.data.entryArraySize)
  | .sort n =>
    match move with
    | some (index, row) =>
      if (index.val : Int) < n then
        some ({ sh with data := { sh.data with
          entryArray := Function.update sh.data.entryArray index row } }, .sort n)
      else none
    | none => some (sh, .setReading)
  | .setReading => some ({ sh with serverState := .reading }, .loadReaders)
  | .loadReaders =>
    some (sh, if countFirst then .testDone sh.readerCount else .testReaders sh.readerDoneCount)
  | .testReaders readerDone =>
    some (sh, if readerDone ≥ sh.readerCount then .reset else .waitReadersLock)
  | .testDone readers =>
    some (sh, if sh.readerDoneCount ≥ readers then .reset else .waitReadersLock)
  | .waitReadersLock => some (sh, if sh.possibleLockDetected then .reset else .loadReaders)
  | .reset => some ({ sh with readerDoneCount := 0 }, .setDone)
  | .setDone => some ({ sh with serverState := .done }, .checkTimer)

/-! ## `observer_thread` -/

/-- The places of `observer_thread`, with the functions it calls. -/
inductive ObserverPc where
  | absent
  /- `register_observer` -/
  | lockRegister
  | loadCount
  | storeCount (observerCount : Int)
  | scanSize (i : ℕ)
  | scanTaken (i : ℕ)
  | takeRow (index : Fin clientMax)
  | loadSize
  | storeSize (entryArraySize : Int)
  | testSize
  | loadIndex
  | loadSizeBack
  | storeSizeBack (entryArraySize : Int)
  | loadCountBack
  | storeCountBack (observerCount : Int)
  | unlockRegister (index : Option (Fin clientMax))
  /- `add_entry` -/
  | gate (index : Option (Fin clientMax)) (entry : UserEntry)
  | enter (index : Option (Fin clientMax)) (entry : UserEntry)
  | writeTv (index : Option (Fin clientMax)) (entry : UserEntry)
  | writeString (index : Fin clientMax) (entry : UserEntry)
  | leave (index : Fin clientMax)
  /- the loop of `observer_thread` -/
  | readSocket (index : Fin clientMax)
  /- `unregister_observer` -/
  | freeRow (index : Fin clientMax)
  | testLast (index : Fin clientMax)
  | loadSizeDown
  | storeSizeDown (entryArraySize : Int)
  | loadCountDown
  | storeCountDown (observerCount : Int)
  deriving DecidableEq

/-- One step of `observer_thread`. `input` is the next entry made from a notification of the
client, `none` when the client has gone; it is looked at only where the socket is read. -/
def observerStep (sh : Shared) (input : Option UserEntry) :
    ObserverPc → Option (Shared × ObserverPc)
  | .absent => some (sh, .lockRegister)
  | .lockRegister =>
    if sh.registerMutex then none else some ({ sh with registerMutex := true }, .loadCount)
  | .loadCount => some (sh, .storeCount sh.data.observerCount)
  | .storeCount n =>
    some ({ sh with data := { sh.data with observerCount := n + 1 } }, .scanSize 0)
  | .scanSize i =>
    some (sh, if (i : Int) < sh.data.entryArraySize then .scanTaken i else .loadSize)
  | .scanTaken i =>
    if h : i < clientMax then
      some (sh, if (sh.data.entryArray ⟨i, h⟩).isTaken then .scanSize (i + 1) else .takeRow ⟨i, h⟩)
    else none
  | .takeRow index =>
    some ({ sh with data := sh.data.setTaken index true }, .unlockRegister (some index))
  | .loadSize => some (sh, .storeSize sh.data.entryArraySize)
  | .storeSize n => some ({ sh with data := { sh.data with entryArraySize := n + 1 } }, .testSize)
  | .testSize =>
    some (sh, if sh.data.entryArraySize ≤ (clientMax : Int) then .loadIndex else .loadSizeBack)
  | .loadIndex =>
    if h : 1 ≤ sh.data.entryArraySize ∧ sh.data.entryArraySize ≤ (clientMax : Int) then
      some (sh, .takeRow ⟨(sh.data.entryArraySize - 1).toNat, ServerData.pred_lt_clientMax h⟩)
    else none
  | .loadSizeBack => some (sh, .storeSizeBack sh.data.entryArraySize)
  | .storeSizeBack n =>
    some ({ sh with data := { sh.data with entryArraySize := n - 1 } }, .loadCountBack)
  | .loadCountBack => some (sh, .storeCountBack sh.data.observerCount)
  | .storeCountBack n =>
    some ({ sh with data := { sh.data with observerCount := n - 1 } }, .unlockRegister none)
  | .unlockRegister index => some ({ sh with registerMutex := false }, .gate index emptyEntry)
  | .gate index entry =>
    some (sh, if sh.serverState ≠ .done then .gate index entry else .enter index entry)
  | .enter index entry =>
    some ({ sh with writerCount := sh.writerCount + 1 }, .writeTv index entry)
  | .writeTv none _ => none
  | .writeTv (some index) entry =>
    some ({ sh with data := { sh.data with
      entryArray := Function.update sh.data.entryArray index
        { sh.data.entryArray index with tv := entry.tv } } }, .writeString index entry)
  | .writeString index entry =>
    some ({ sh with data := { sh.data with
      entryArray := Function.update sh.data.entryArray index
        { sh.data.entryArray index with string := entry.string } } }, .leave index)
  | .leave index => some ({ sh with writerCount := sh.writerCount - 1 }, .readSocket index)
  | .readSocket index =>
    match input with
    | some entry => some (sh, .gate (some index) entry)
    | none => some (sh, .freeRow index)
  | .freeRow index => some ({ sh with data := sh.data.setTaken index false }, .testLast index)
  | .testLast index =>
    some (sh, if (index.val : Int) + 1 = sh.data.entryArraySize then .loadSizeDown
      else .loadCountDown)
  | .loadSizeDown => some (sh, .storeSizeDown sh.data.entryArraySize)
  | .storeSizeDown n =>
    some ({ sh with data := { sh.data with entryArraySize := n - 1 } }, .loadCountDown)
  | .loadCountDown => some (sh, .storeCountDown sh.data.observerCount)
  | .storeCountDown n =>
    some ({ sh with data := { sh.data with observerCount := n - 1 } }, .absent)

/-! ## `user_thread` -/

/-- The places of `user_thread`, with `send_entries`. -/
inductive UserPc where
  | absent
  | register
  | waitReading
  | waitReadingLock
  | readSocket
  /- `send_entries` -/
  | sendCount
  | loopTest (i : ℕ)
  | sendString (i : ℕ)
  | sendBytes (i strSize : ℕ)
  | loadDone
  | storeDone (readerDone : Int)
  /- after `send_entries` -/
  | waitEnd
  | waitEndLock
  | unregister
  deriving DecidableEq, Repr

/-- One step of `user_thread`. `alive` says whether the client still answers; it is looked at only
where the socket is read. -/
def userStep (atomicIncrement : Bool) (sh : Shared) (alive : Bool) :
    UserPc → Option (Shared × UserPc)
  | .absent => some (sh, .register)
  | .register => some ({ sh with readerCount := sh.readerCount + 1 }, .waitReading)
  | .waitReading =>
    some (sh, if sh.serverState ≠ .reading then .waitReadingLock else .readSocket)
  | .waitReadingLock => some (sh, if sh.possibleLockDetected then .readSocket else .waitReading)
  | .readSocket => some (sh, if alive then .sendCount else .unregister)
  | .sendCount => some (sh, .loopTest 0)
  | .loopTest i =>
    some (sh, if (i : Int) < sh.data.observerCount then .sendString i else .loadDone)
  | .sendString i =>
    if h : i < clientMax then
      some (sh, .sendBytes i ((sh.data.entryArray ⟨i, h⟩).string.length + 1))
    else none
  | .sendBytes i _ => some (sh, .loopTest (i + 1))
  | .loadDone =>
    if atomicIncrement then
      some ({ sh with readerDoneCount := sh.readerDoneCount + 1 }, .waitEnd)
    else some (sh, .storeDone sh.readerDoneCount)
  | .storeDone n => some ({ sh with readerDoneCount := n + 1 }, .waitEnd)
  | .waitEnd => some (sh, if sh.serverState = .reading then .waitEndLock else .waitReading)
  | .waitEndLock => some (sh, if sh.possibleLockDetected then .waitReading else .waitEnd)
  | .unregister => some ({ sh with readerCount := sh.readerCount - 1 }, .absent)

/-! ## The system -/

/-- The shared variables and the place of every thread; a thread that has not started, or has
ended, is `absent`. -/
structure System (ι κ : Type) where
  shared : Shared
  sorter : SorterPc
  observer : ι → ObserverPc
  user : κ → UserPc

/-- Before the first step. -/
def System.init (ι κ : Type) : System ι κ :=
  ⟨Shared.init, .checkTimer, fun _ => .absent, fun _ => .absent⟩

/-- Whose step is next. -/
inductive Action (ι κ : Type) where
  | timer
  | sorter (move : Option (Fin clientMax × UserEntry)) (countFirst : Bool := false)
  | observer (o : ι) (input : Option UserEntry)
  | user (u : κ) (alive : Bool)

variable {ι κ : Type} [DecidableEq ι] [DecidableEq κ]

/-- One step of the system. -/
def System.next (atomicIncrement : Bool) (s : System ι κ) : Action ι κ → Option (System ι κ)
  | .timer => some { s with shared := s.shared.setTimerExpired true }
  | .sorter move countFirst =>
    (sorterStep s.shared move countFirst s.sorter).map fun r =>
      { s with shared := r.1, sorter := r.2 }
  | .observer o input =>
    (observerStep s.shared input (s.observer o)).map fun r =>
      { s with shared := r.1, observer := Function.update s.observer o r.2 }
  | .user u alive =>
    (userStep atomicIncrement s.shared alive (s.user u)).map fun r =>
      { s with shared := r.1, user := Function.update s.user u r.2 }

/-- The number of the `READING` phase that the server is in, if any, when `n` have begun. -/
def Shared.readingPhase (sh : Shared) (n : ℕ) : Option ℕ :=
  if sh.serverState = .reading then some n else none

theorem readingPhase_eq_some_iff {sh : Shared} {n p : ℕ} :
    sh.readingPhase n = some p ↔ sh.serverState = .reading ∧ n = p := by
  rw [Shared.readingPhase, Option.ite_none_right_eq_some, Option.some_inj]

/-- A step taken while `is_locked()` is false. -/
def System.step (atomicIncrement : Bool) (s : System ι κ) (a : Action ι κ) :
    Option (System ι κ) :=
  if s.shared.possibleLockDetected then none else s.next atomicIncrement a

/-! ## What the steps of an observer leave alone -/

/-- Between the passing test of `add_entry` and `++writer_count`. -/
def ObserverPc.entering : ObserverPc → Bool
  | .enter _ _ => true
  | _ => false

/-- Between `++writer_count` and `--writer_count`. -/
def ObserverPc.writing : ObserverPc → Bool
  | .writeTv _ _ | .writeString _ _ | .leave _ => true
  | _ => false

/-- About to write `observer_count` or the string of a row. -/
def ObserverPc.writesBroadcast : ObserverPc → Bool
  | .storeCount _ | .storeCountBack _ | .storeCountDown _ | .writeString _ _ => true
  | _ => false

/-- The same `observer_count` and the same strings. -/
def ServerData.SameBroadcast (d d' : ServerData) : Prop :=
  d'.observerCount = d.observerCount ∧ ∀ i, (d'.entryArray i).string = (d.entryArray i).string

/-- What every step of an observer keeps. -/
structure ObserverFrame (sh : Shared) (pc : ObserverPc) (sh' : Shared) (pc' : ObserverPc) :
    Prop where
  possibleLockDetected : sh'.possibleLockDetected = sh.possibleLockDetected
  serverState : sh'.serverState = sh.serverState
  readerDoneCount : sh'.readerDoneCount = sh.readerDoneCount
  readerCount : sh'.readerCount = sh.readerCount
  writerCount : sh'.writerCount =
    sh.writerCount + (if pc'.writing then 1 else 0) - (if pc.writing then 1 else 0)
  entering : pc'.entering → sh.serverState = .done
  writing : pc'.writing → pc.writing ∨ pc.entering
  broadcast : pc.writesBroadcast = false → sh.data.SameBroadcast sh'.data

theorem sameBroadcast_update {d : ServerData} {i : Fin clientMax} {row : UserEntry} {n : Int}
    (h : row.string = (d.entryArray i).string) : d.SameBroadcast
      { d with entryArray := Function.update d.entryArray i row, entryArraySize := n } := by
  refine ⟨rfl, fun j => ?_⟩
  by_cases hj : j = i
  · rw [hj]
    simpa using h
  · simp [Function.update_of_ne hj]

theorem sameBroadcast_refl (d : ServerData) : d.SameBroadcast d := ⟨rfl, fun _ => rfl⟩

/-- A step between places outside `add_entry`'s critical section, on the data only. -/
theorem ObserverFrame.quiet {sh : Shared} {pc pc' : ObserverPc} {m : Bool} {d : ServerData}
    (hpc : pc.writing = false) (hpc' : pc'.writing = false) (hent : pc'.entering = false)
    (hd : pc.writesBroadcast = false → sh.data.SameBroadcast d) :
    ObserverFrame sh pc { sh with registerMutex := m, data := d } pc' := by
  refine ⟨rfl, rfl, rfl, rfl, ?_, ?_, ?_, hd⟩
  · simp [hpc, hpc']
  · simp [hent]
  · simp [hpc']

/-- **What a step of an observer can do to the variables of the others**: move `writer_count` with
the critical section, pass the test of `add_entry` in state `DONE`, and write `observer_count` and
strings at the places of `writesBroadcast`. -/
theorem observerStep_frame {sh sh' : Shared} {input : Option UserEntry} {pc pc' : ObserverPc}
    (h : observerStep sh input pc = some (sh', pc')) : ObserverFrame sh pc sh' pc' := by
  cases pc with
  | scanTaken i =>
    simp only [observerStep] at h
    split at h
    · cases h
      refine .quiet rfl ?_ ?_ fun _ => sameBroadcast_refl _ <;> split <;> rfl
    · cases h
  | takeRow index =>
    cases h
    exact .quiet rfl rfl rfl fun _ => sameBroadcast_update rfl
  | freeRow index =>
    cases h
    exact .quiet rfl rfl rfl fun _ => sameBroadcast_update rfl
  | gate index entry =>
    simp only [observerStep] at h
    split at h
    · cases h
      exact .quiet rfl rfl rfl fun _ => sameBroadcast_refl _
    · rename_i hdone
      cases h
      refine ⟨rfl, rfl, rfl, rfl, by simp [ObserverPc.writing], fun _ => not_not.mp hdone,
        fun hw => (nomatch hw), fun _ => sameBroadcast_refl _⟩
  | enter index entry =>
    cases h
    exact ⟨rfl, rfl, rfl, rfl, by simp [ObserverPc.writing], fun he => (nomatch he),
      fun _ => Or.inr rfl, fun _ => sameBroadcast_refl _⟩
  | writeTv index entry =>
    cases index with
    | none => cases h
    | some index =>
      cases h
      exact ⟨rfl, rfl, rfl, rfl, by simp [ObserverPc.writing], fun he => (nomatch he),
        fun _ => Or.inl rfl, fun _ => sameBroadcast_update rfl⟩
  | writeString index entry =>
    cases h
    exact ⟨rfl, rfl, rfl, rfl, by simp [ObserverPc.writing], fun he => (nomatch he),
      fun _ => Or.inl rfl, fun hb => (nomatch hb)⟩
  | leave index =>
    cases h
    exact ⟨rfl, rfl, rfl, rfl, by simp [ObserverPc.writing], fun he => (nomatch he),
      fun hw => (nomatch hw), fun _ => sameBroadcast_refl _⟩
  | storeCount n =>
    cases h
    exact .quiet rfl rfl rfl fun hb => (nomatch hb)
  | storeCountBack n =>
    cases h
    exact .quiet rfl rfl rfl fun hb => (nomatch hb)
  | storeCountDown n =>
    cases h
    exact .quiet rfl rfl rfl fun hb => (nomatch hb)
  | _ =>
    -- the other steps read, or write what no other thread looks at here
    simp only [observerStep] at h
    try split at h
    all_goals cases h
    all_goals exact .quiet rfl rfl rfl fun _ => ⟨rfl, fun _ => rfl⟩

/-! ## The steps of the sorter, case by case -/

/-- The server state that goes with each place of the sorter. -/
def SorterPc.phase : SorterPc → ServerState
  | .checkTimer | .clearTimer | .waitDone | .waitDoneLock | .setSorting => .done
  | .waitWriters | .waitWritersLock | .loadArraySize | .sort _ | .setReading => .sorting
  | _ => .reading

/-- The variables that the observers and users read and write, unchanged. -/
structure Shared.SameVars (sh sh' : Shared) : Prop where
  serverState : sh'.serverState = sh.serverState
  readerDoneCount : sh'.readerDoneCount = sh.readerDoneCount
  readerCount : sh'.readerCount = sh.readerCount
  writerCount : sh'.writerCount = sh.writerCount
  data : sh'.data = sh.data

theorem Shared.sameVars_refl (sh : Shared) : sh.SameVars sh := ⟨rfl, rfl, rfl, rfl, rfl⟩

theorem Shared.sameVars_setTimerExpired (sh : Shared) (status : Bool) :
    sh.SameVars (sh.setTimerExpired status) := ⟨rfl, rfl, rfl, rfl, rfl⟩

/-- A step of the sorter while `is_locked()` is false. -/
inductive SorterMove (sh : Shared) : SorterPc → Shared → SorterPc → Prop
  | idle {pc pc' : SorterPc} {sh' : Shared} (hpc : pc.phase = .done) (hpc' : pc'.phase = .done)
      (hsh : sh.SameVars sh') : SorterMove sh pc sh' pc'
  | setSorting : SorterMove sh .setSorting { sh with serverState := .sorting } .waitWriters
  | writersLeft (hne : sh.writerCount ≠ 0) : SorterMove sh .waitWriters sh .waitWritersLock
  | lookAgain : SorterMove sh .waitWritersLock sh .waitWriters
  | noWriters (hzero : sh.writerCount = 0) : SorterMove sh .waitWriters sh .loadArraySize
  | loadArraySize : SorterMove sh .loadArraySize sh (.sort sh.data.entryArraySize)
  | moveRow (n : Int) (index : Fin clientMax) (row : UserEntry) : SorterMove sh (.sort n)
      { sh with data := { sh.data with
        entryArray := Function.update sh.data.entryArray index row } } (.sort n)
  | sorted (n : Int) : SorterMove sh (.sort n) sh .setReading
  | setReading : SorterMove sh .setReading { sh with serverState := .reading } .loadReaders
  | loadReaderDone : SorterMove sh .loadReaders sh (.testReaders sh.readerDoneCount)
  | loadReaderCount : SorterMove sh .loadReaders sh (.testDone sh.readerCount)
  | readersLeft (readerDone : Int) (hlt : readerDone < sh.readerCount) :
      SorterMove sh (.testReaders readerDone) sh .waitReadersLock
  | readersDone (readerDone : Int) (hle : sh.readerCount ≤ readerDone) :
      SorterMove sh (.testReaders readerDone) sh .reset
  | doneLeft (readers : Int) (hlt : sh.readerDoneCount < readers) :
      SorterMove sh (.testDone readers) sh .waitReadersLock
  | doneEnough (readers : Int) (hle : readers ≤ sh.readerDoneCount) :
      SorterMove sh (.testDone readers) sh .reset
  | loadAgain : SorterMove sh .waitReadersLock sh .loadReaders
  | reset : SorterMove sh .reset { sh with readerDoneCount := 0 } .setDone
  | setDone : SorterMove sh .setDone { sh with serverState := .done } .checkTimer

theorem sorterMove_of_step {sh sh' : Shared} {move : Option (Fin clientMax × UserEntry)}
    {countFirst : Bool} {pc pc' : SorterPc} (hlock : sh.possibleLockDetected = false)
    (h : sorterStep sh move countFirst pc = some (sh', pc')) : SorterMove sh pc sh' pc' := by
  cases pc with
  | checkTimer =>
    cases h
    refine .idle rfl ?_ sh.sameVars_refl
    split <;> rfl
  | clearTimer =>
    cases h
    exact .idle rfl rfl (sh.sameVars_setTimerExpired false)
  | waitDone =>
    cases h
    refine .idle rfl ?_ sh.sameVars_refl
    split <;> rfl
  | waitDoneLock =>
    cases h
    rw [hlock]
    exact .idle rfl rfl sh.sameVars_refl
  | waitWriters =>
    cases h
    split
    · rename_i hne
      exact .writersLeft hne
    · rename_i hzero
      exact .noWriters (not_not.mp hzero)
  | waitWritersLock =>
    cases h
    rw [hlock]
    exact .lookAgain
  | loadArraySize =>
    cases h
    exact .loadArraySize
  | sort n =>
    cases move with
    | none =>
      cases h
      exact .sorted n
    | some m =>
      simp only [sorterStep, Option.ite_none_right_eq_some, Option.some.injEq, Prod.mk.injEq] at h
      obtain ⟨-, rfl, rfl⟩ := h
      exact .moveRow n _ _
  | testReaders readerDone =>
    cases h
    split
    · rename_i hle
      exact .readersDone readerDone hle
    · rename_i hlt
      exact .readersLeft readerDone (not_le.mp hlt)
  | testDone readers =>
    cases h
    split
    · rename_i hle
      exact .doneEnough readers hle
    · rename_i hlt
      exact .doneLeft readers (not_le.mp hlt)
  | waitReadersLock =>
    cases h
    rw [hlock]
    exact .loadAgain
  | setSorting =>
    cases h
    exact .setSorting
  | setReading =>
    cases h
    exact .setReading
  | loadReaders =>
    cases countFirst with
    | false =>
      cases h
      exact .loadReaderDone
    | true =>
      cases h
      exact .loadReaderCount
  | reset =>
    cases h
    exact .reset
  | setDone =>
    cases h
    exact .setDone

/-- **The server state follows the place of the sorter.** -/
theorem SorterMove.serverState {sh sh' : Shared} {pc pc' : SorterPc} (h : SorterMove sh pc sh' pc')
    (hs : sh.serverState = pc.phase) : sh'.serverState = pc'.phase := by
  cases h with
  | idle hpc hpc' hsh => rw [hsh.serverState, hs, hpc, hpc']
  | setSorting => rfl
  | setReading => rfl
  | setDone => rfl
  | _ => exact hs

/-! ## The steps of a user, case by case -/

/-- A step of a user while `is_locked()` is false. -/
inductive UserMove (atomicIncrement alive : Bool) (sh : Shared) : UserPc → Shared → UserPc → Prop
  | start : UserMove atomicIncrement alive sh .absent sh .register
  | register : UserMove atomicIncrement alive sh .register
      { sh with readerCount := sh.readerCount + 1 } .waitReading
  | refused (hne : sh.serverState ≠ .reading) :
      UserMove atomicIncrement alive sh .waitReading sh .waitReadingLock
  | lookAgain : UserMove atomicIncrement alive sh .waitReadingLock sh .waitReading
  | admitted (hreading : sh.serverState = .reading) :
      UserMove atomicIncrement alive sh .waitReading sh .readSocket
  | gone (hgone : alive = false) : UserMove atomicIncrement alive sh .readSocket sh .unregister
  | sendEntries (halive : alive = true) :
      UserMove atomicIncrement alive sh .readSocket sh .sendCount
  | sendCount : UserMove atomicIncrement alive sh .sendCount sh (.loopTest 0)
  | more (i : ℕ) (hlt : (i : Int) < sh.data.observerCount) :
      UserMove atomicIncrement alive sh (.loopTest i) sh (.sendString i)
  | noMore (i : ℕ) (hge : sh.data.observerCount ≤ i) :
      UserMove atomicIncrement alive sh (.loopTest i) sh .loadDone
  | sendString (i : ℕ) (h : i < clientMax) : UserMove atomicIncrement alive sh (.sendString i) sh
      (.sendBytes i ((sh.data.entryArray ⟨i, h⟩).string.length + 1))
  | sendBytes (i strSize : ℕ) :
      UserMove atomicIncrement alive sh (.sendBytes i strSize) sh (.loopTest (i + 1))
  | increment (hatomic : atomicIncrement = true) : UserMove atomicIncrement alive sh .loadDone
      { sh with readerDoneCount := sh.readerDoneCount + 1 } .waitEnd
  | loadDone (hsplit : atomicIncrement = false) :
      UserMove atomicIncrement alive sh .loadDone sh (.storeDone sh.readerDoneCount)
  | storeDone (readerDone : Int) : UserMove atomicIncrement alive sh (.storeDone readerDone)
      { sh with readerDoneCount := readerDone + 1 } .waitEnd
  | held (hreading : sh.serverState = .reading) :
      UserMove atomicIncrement alive sh .waitEnd sh .waitEndLock
  | waitAgain : UserMove atomicIncrement alive sh .waitEndLock sh .waitEnd
  | released (hne : sh.serverState ≠ .reading) :
      UserMove atomicIncrement alive sh .waitEnd sh .waitReading
  | unregister : UserMove atomicIncrement alive sh .unregister
      { sh with readerCount := sh.readerCount - 1 } .absent

theorem userMove_of_step {atomicIncrement alive : Bool} {sh sh' : Shared} {pc pc' : UserPc}
    (hlock : sh.possibleLockDetected = false)
    (h : userStep atomicIncrement sh alive pc = some (sh', pc')) :
    UserMove atomicIncrement alive sh pc sh' pc' := by
  cases pc with
  | absent =>
    cases h
    exact .start
  | register =>
    cases h
    exact .register
  | waitReading =>
    cases h
    split
    · rename_i hne
      exact .refused hne
    · rename_i heq
      exact .admitted (not_not.mp heq)
  | waitReadingLock =>
    cases h
    rw [hlock]
    exact .lookAgain
  | readSocket =>
    cases h
    cases alive with
    | false => exact .gone rfl
    | true => exact .sendEntries rfl
  | sendCount =>
    cases h
    exact .sendCount
  | loopTest i =>
    cases h
    split
    · rename_i hlt
      exact .more i hlt
    · rename_i hge
      exact .noMore i (not_lt.mp hge)
  | sendString i =>
    simp only [userStep, Option.dite_none_right_eq_some, Option.some.injEq, Prod.mk.injEq] at h
    obtain ⟨hlt, rfl, rfl⟩ := h
    exact .sendString i hlt
  | sendBytes i strSize =>
    cases h
    exact .sendBytes i strSize
  | loadDone =>
    cases atomicIncrement with
    | false =>
      cases h
      exact .loadDone rfl
    | true =>
      cases h
      exact .increment rfl
  | storeDone n =>
    cases h
    exact .storeDone n
  | waitEnd =>
    cases h
    split
    · rename_i heq
      exact .held heq
    · rename_i hne
      exact .released hne
  | waitEndLock =>
    cases h
    rw [hlock]
    exact .waitAgain
  | unregister =>
    cases h
    exact .unregister

/-- What every step of a user keeps. -/
structure UserFrame (sh sh' : Shared) : Prop where
  serverState : sh'.serverState = sh.serverState
  writerCount : sh'.writerCount = sh.writerCount
  data : sh'.data = sh.data

theorem UserMove.frame {atomicIncrement alive : Bool} {sh sh' : Shared} {pc pc' : UserPc}
    (h : UserMove atomicIncrement alive sh pc sh' pc') : UserFrame sh sh' := by
  cases h <;> exact ⟨rfl, rfl, rfl⟩

/-! ## The steps of the system, case by case -/

/-- A step of the system while `is_locked()` is false. -/
inductive SystemMove (atomicIncrement : Bool) (s : System ι κ) : Action ι κ → System ι κ → Prop
  | timer (sh' : Shared) (hsh : s.shared.SameVars sh') :
      SystemMove atomicIncrement s .timer { s with shared := sh' }
  | sorter (move : Option (Fin clientMax × UserEntry)) (countFirst : Bool) {sh' : Shared}
      {pc' : SorterPc} (h : SorterMove s.shared s.sorter sh' pc') :
      SystemMove atomicIncrement s (.sorter move countFirst) { s with shared := sh', sorter := pc' }
  | observer (o : ι) (input : Option UserEntry) {sh' : Shared} {pc' : ObserverPc}
      (h : ObserverFrame s.shared (s.observer o) sh' pc') :
      SystemMove atomicIncrement s (.observer o input)
        { s with shared := sh', observer := Function.update s.observer o pc' }
  | user (u : κ) (alive : Bool) {sh' : Shared} {pc' : UserPc}
      (h : UserMove atomicIncrement alive s.shared (s.user u) sh' pc') :
      SystemMove atomicIncrement s (.user u alive)
        { s with shared := sh', user := Function.update s.user u pc' }

theorem systemMove_of_step {atomicIncrement : Bool} {s s' : System ι κ} {a : Action ι κ}
    (h : s.step atomicIncrement a = some s') : SystemMove atomicIncrement s a s' := by
  simp only [System.step, Option.ite_none_left_eq_some, Bool.not_eq_true] at h
  obtain ⟨hlock, h⟩ := h
  cases a with
  | timer =>
    cases h
    exact .timer _ (s.shared.sameVars_setTimerExpired true)
  | sorter move countFirst =>
    obtain ⟨⟨sh', pc'⟩, hstep, rfl⟩ := Option.map_eq_some_iff.mp h
    exact .sorter move countFirst (sorterMove_of_step hlock hstep)
  | observer o input =>
    obtain ⟨⟨sh', pc'⟩, hstep, rfl⟩ := Option.map_eq_some_iff.mp h
    exact .observer o input (observerStep_frame hstep)
  | user u alive =>
    obtain ⟨⟨sh', pc'⟩, hstep, rfl⟩ := Option.map_eq_some_iff.mp h
    exact .user u alive (userMove_of_step hlock hstep)

end C380.Notapp
