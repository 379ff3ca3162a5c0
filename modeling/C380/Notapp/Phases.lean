import C380.Lib.ThreadCount
import C380.Notapp.Threads

/-!
# The phases of the traffic enforcer

`PhaseExclusion`: the observers inside `add_entry`, the users inside `send_entries` and the sorter
inside `sort_entry_array` keep out of each other's way.

* `phaseExclusion_lost`: an observer has passed the test of `add_entry` but has not counted itself
  yet, the sorter finds `writer_count` zero and sorts, and then the observer writes.
* `phaseExclusion_of_onTime`: **exclusion holds in every run whose threads enter on time**
  (`EntersOnTime`): `++writer_count` comes before the sorter has found the counter zero or after it
  has set `DONE`, `send_entries` is called in state `READING`, and `DONE` is set when no user is
  inside `send_entries`.

`PhaseOk` is the invariant: the state is the phase the sorter is in, `writer_count` counts the
observers inside `add_entry`, and the places past the test of the counter have no such observer.
-/

namespace C380.Notapp

open ThreadCount Transition

variable {ι κ : Type} [DecidableEq ι] [DecidableEq κ] {s s' : System ι κ}

/-- Inside `sort_entry_array`. -/
def SorterPc.sorting : SorterPc → Bool
  | .loadArraySize | .sort _ => true
  | _ => false

/-- From the test that finds `writer_count` zero up to `set_server_state(DONE)`. -/
def SorterPc.writersOut : SorterPc → Bool
  | .loadArraySize | .sort _ | .setReading | .loadReaders | .testReaders _ | .testDone _
  | .waitReadersLock | .reset | .setDone => true
  | _ => false

/-- Inside `send_entries`. -/
def UserPc.sending : UserPc → Bool
  | .sendCount | .loopTest _ | .sendString _ | .sendBytes _ _ | .loadDone | .storeDone _ => true
  | _ => false

/-- No two of the three kinds of threads are inside together. -/
structure PhaseExclusion (s : System ι κ) : Prop where
  writing_sorting : ∀ o, (s.observer o).writing = true → s.sorter.sorting = false
  writing_sending : ∀ o u, (s.observer o).writing = true → (s.user u).sending = false
  sending_sorting : ∀ u, (s.user u).sending = true → s.sorter.sorting = false

/-- The thread that enters its phase, or ends it for others, does so on time. -/
def EntersOnTime (s : System ι κ) : Action ι κ → Prop
  | .timer => True
  | .sorter _ _ => s.sorter = .setDone → ∀ u, (s.user u).sending = false
  | .observer o _ => (s.observer o).entering = true → s.sorter.writersOut = false
  | .user u alive => s.user u = .readSocket → alive = true → s.shared.serverState = .reading

/-- The invariant of the phases. -/
structure PhaseOk (s : System ι κ) : Prop where
  phase : s.shared.serverState = s.sorter.phase
  writers : Counts (fun o => (s.observer o).writing = true) s.shared.writerCount
  out : s.sorter.writersOut = true → ∀ o, (s.observer o).writing = false
  sending : ∀ u, (s.user u).sending = true → s.shared.serverState = .reading

omit [DecidableEq ι] [DecidableEq κ] in
theorem phaseOk_init : PhaseOk (System.init ι κ) := by
  refine ⟨rfl, counts_zero fun o => ?_, fun h => (nomatch h), fun u h => (nomatch h)⟩
  exact Bool.false_ne_true

theorem SorterPc.phase_of_sorting {pc : SorterPc} (h : pc.sorting = true) :
    pc.phase = .sorting := by
  cases pc <;> first | rfl | cases h

theorem SorterPc.writersOut_of_sorting {pc : SorterPc} (h : pc.sorting = true) :
    pc.writersOut = true := by
  cases pc <;> first | rfl | cases h

theorem SorterPc.writersOut_of_reading {pc : SorterPc} (h : pc.phase = .reading) :
    pc.writersOut = true := by
  cases pc <;> first | rfl | cases h

theorem SorterPc.writersOut_of_done {pc : SorterPc} (h : pc.phase = .done) :
    pc.writersOut = false := by
  cases pc <;> first | rfl | cases h

omit [DecidableEq ι] [DecidableEq κ] in
/-- **The invariant excludes.** -/
theorem PhaseOk.phaseExclusion (h : PhaseOk s) : PhaseExclusion s := by
  refine ⟨fun o hw => ?_, fun o u hw => ?_, fun u hu => ?_⟩
  · by_contra hne
    have hout := h.out (SorterPc.writersOut_of_sorting (Bool.eq_true_of_not_eq_false hne)) o
    rw [hw] at hout
    cases hout
  · by_contra hne
    have hreading := h.sending u (Bool.eq_true_of_not_eq_false hne)
    rw [h.phase] at hreading
    have hout := h.out (SorterPc.writersOut_of_reading hreading) o
    rw [hw] at hout
    cases hout
  · by_contra hne
    have hsorting := SorterPc.phase_of_sorting (Bool.eq_true_of_not_eq_false hne)
    rw [← h.phase, h.sending u hu] at hsorting
    cases hsorting

/-! ## The steps keep the invariant -/

omit [DecidableEq ι] [DecidableEq κ] in
/-- A step that moves no observer leaves the counter as it is. -/
theorem PhaseOk.writers_of_eq (h : PhaseOk s) {n : Int} (hn : n = s.shared.writerCount) :
    Counts (fun o => (s.observer o).writing = true) n := by
  rw [hn]
  exact h.writers

omit [DecidableEq ι] [DecidableEq κ] in
/-- What is past the test of `writer_count` after a step of the sorter was past it before, or the
counter was zero. -/
theorem SorterMove.writersOut {sh sh' : Shared} {pc pc' : SorterPc} (h : SorterMove sh pc sh' pc')
    (hout : pc'.writersOut = true) : pc.writersOut = true ∨ sh.writerCount = 0 := by
  cases h with
  | idle hpc hpc' hsh =>
    rw [SorterPc.writersOut_of_done hpc'] at hout
    cases hout
  | noWriters hzero => exact Or.inr hzero
  | setSorting => cases hout
  | writersLeft hne => cases hout
  | lookAgain => cases hout
  | setDone => cases hout
  | _ => exact Or.inl rfl

theorem SorterMove.writerCount {sh sh' : Shared} {pc pc' : SorterPc}
    (h : SorterMove sh pc sh' pc') : sh'.writerCount = sh.writerCount := by
  cases h with
  | idle hpc hpc' hsh => exact hsh.writerCount
  | _ => rfl

/-- A step of the sorter leaves the phase `READING` only by setting `DONE`. -/
theorem SorterMove.reading {sh sh' : Shared} {pc pc' : SorterPc} (h : SorterMove sh pc sh' pc')
    (hpc : pc.phase = .reading) : pc = .setDone ∨ pc'.phase = .reading := by
  cases h with
  | idle hdone hpc' hsh =>
    rw [hpc] at hdone
    cases hdone
  | setDone => exact Or.inl rfl
  | loadReaderDone => exact Or.inr rfl
  | loadReaderCount => exact Or.inr rfl
  | readersLeft readerDone hlt => exact Or.inr rfl
  | readersDone readerDone hle => exact Or.inr rfl
  | doneLeft readers hlt => exact Or.inr rfl
  | doneEnough readers hle => exact Or.inr rfl
  | loadAgain => exact Or.inr rfl
  | reset => exact Or.inr rfl
  | _ => cases hpc

omit [DecidableEq ι] [DecidableEq κ] in
theorem PhaseOk.sorter (h : PhaseOk s) {sh' : Shared} {pc' : SorterPc}
    (hmove : SorterMove s.shared s.sorter sh' pc')
    (hg : s.sorter = .setDone → ∀ u, (s.user u).sending = false) :
    PhaseOk { s with shared := sh', sorter := pc' } := by
  refine ⟨hmove.serverState h.phase, h.writers_of_eq hmove.writerCount, fun hout o => ?_,
    fun u hu => ?_⟩
  · rcases hmove.writersOut hout with hout | hzero
    · exact h.out hout o
    · have hcount := h.writers
      rw [hzero] at hcount
      exact Bool.eq_false_of_not_eq_true (hcount.not_of_zero o)
  · have hreading : s.sorter.phase = .reading := by rw [← h.phase, h.sending u hu]
    rcases hmove.reading hreading with hdone | hreading
    · have hnot := hg hdone u
      rw [hu] at hnot
      cases hnot
    · exact (hmove.serverState h.phase).trans hreading

omit [DecidableEq κ] in
theorem PhaseOk.observer (h : PhaseOk s) {o : ι} {sh' : Shared} {pc' : ObserverPc}
    (hframe : ObserverFrame s.shared (s.observer o) sh' pc')
    (hg : (s.observer o).entering = true → s.sorter.writersOut = false) :
    PhaseOk { s with shared := sh', observer := Function.update s.observer o pc' } := by
  refine ⟨hframe.serverState.trans h.phase, ?_, fun hout o' => ?_, fun u hu => ?_⟩
  · -- the counter moves with the critical section
    have hself : (Function.update s.observer o pc' o).writing = pc'.writing := by
      rw [Function.update_self]
    change Counts _ sh'.writerCount
    rw [hframe.writerCount, ← hself]
    exact h.writers.move o fun o' ho => by simp only [Function.update_of_ne ho]
  · by_cases ho : o' = o
    · subst ho
      by_contra hne
      simp only [Function.update_self] at hne
      -- an observer inside `add_entry` was there before, or has just entered
      rcases hframe.writing (Bool.eq_true_of_not_eq_false hne) with hw | hent
      · have := h.out hout o'
        rw [hw] at this
        cases this
      · have := hg hent
        rw [hout] at this
        cases this
    · simp only [Function.update_of_ne ho]
      exact h.out hout o'
  · exact hframe.serverState.trans (h.sending u hu)

/-- A user is inside `send_entries` after a step when it was inside before, or has just read its
socket. -/
theorem UserMove.sending {atomicIncrement alive : Bool} {sh sh' : Shared} {pc pc' : UserPc}
    (h : UserMove atomicIncrement alive sh pc sh' pc') (hs : pc'.sending = true) :
    pc.sending = true ∨ pc = .readSocket ∧ alive = true := by
  cases h with
  | sendEntries halive => exact Or.inr ⟨rfl, halive⟩
  | sendCount => exact Or.inl rfl
  | more i hlt => exact Or.inl rfl
  | noMore i hge => exact Or.inl rfl
  | sendString i hlt => exact Or.inl rfl
  | sendBytes i strSize => exact Or.inl rfl
  | loadDone hsplit => exact Or.inl rfl
  | _ => cases hs

omit [DecidableEq ι] in
theorem PhaseOk.user (h : PhaseOk s) {atomicIncrement alive : Bool} {u : κ} {sh' : Shared}
    {pc' : UserPc} (hmove : UserMove atomicIncrement alive s.shared (s.user u) sh' pc')
    (hg : s.user u = .readSocket → alive = true → s.shared.serverState = .reading) :
    PhaseOk { s with shared := sh', user := Function.update s.user u pc' } := by
  refine ⟨hmove.frame.serverState.trans h.phase, h.writers_of_eq hmove.frame.writerCount, h.out,
    fun u' hu' => hmove.frame.serverState.trans ?_⟩
  by_cases hu : u' = u
  · subst hu
    simp only [Function.update_self] at hu'
    rcases hmove.sending hu' with hs | ⟨hread, halive⟩
    · exact h.sending u' hs
    · exact hg hread halive
  · simp only [Function.update_of_ne hu] at hu'
    exact h.sending u' hu'

/-- Every step that `EntersOnTime` allows keeps the invariant. -/
theorem PhaseOk.step {atomicIncrement : Bool} {a : Action ι κ} (h : PhaseOk s)
    (hg : EntersOnTime s a) (hs : s.step atomicIncrement a = some s') : PhaseOk s' := by
  cases systemMove_of_step hs with
  | timer sh' hsh =>
    exact ⟨hsh.serverState.trans h.phase, h.writers_of_eq hsh.writerCount, h.out,
      fun u hu => hsh.serverState.trans (h.sending u hu)⟩
  | sorter move countFirst hmove => exact h.sorter hmove hg
  | observer o input hframe => exact h.observer hframe hg
  | user u alive hmove => exact h.user hmove hg

/-- **Phase exclusion** in every state of every run whose threads enter on time, with `++` of
`reader_done_count` one step or two. -/
theorem phaseExclusion_of_onTime (atomicIncrement : Bool) (s : System ι κ)
    (h : Reach (fun s a s' => System.step atomicIncrement s a = some s') EntersOnTime
      (System.init ι κ) s) : PhaseExclusion s :=
  (Reach.invariant phaseOk_init (fun _ _ _ hok hg hs => hok.step hg hs) h).phaseExclusion

/-! ## Two runs -/

instance [Fintype κ] (s : System ι κ) : (a : Action ι κ) → Decidable (EntersOnTime s a)
  | .timer => inferInstanceAs (Decidable True)
  | .sorter _ _ =>
    inferInstanceAs (Decidable (s.sorter = .setDone → ∀ u, (s.user u).sending = false))
  | .observer o _ =>
    inferInstanceAs (Decidable ((s.observer o).entering = true → s.sorter.writersOut = false))
  | .user u alive => inferInstanceAs (Decidable
      (s.user u = .readSocket → alive = true → s.shared.serverState = .reading))

/-- An observer registers and adds its first entry, the sorter goes on to `READING`, and a user
calls `send_entries`. -/
def onTimeRun : List (Action (Fin 1) (Fin 1)) :=
  List.replicate 16 (.observer 0 none) ++ [.timer] ++ List.replicate 8 (.sorter none) ++
    List.replicate 4 (.user 0 true)

theorem phaseExclusion_of_onTime_run : ∃ s : System (Fin 1) (Fin 1),
    (s.user 0).sending = true ∧ PhaseExclusion s := by
  obtain ⟨s, hs, hp⟩ := Reach.exists_of_foldlM (System.step false) EntersOnTime (System.init _ _)
    onTimeRun (fun s => (s.user 0).sending) rfl
  exact ⟨s, hp, phaseExclusion_of_onTime false s hs⟩

/-- An observer registers and passes the test of `add_entry` in state `DONE`; the sorter sets
`SORTING`, finds `writer_count` zero and calls `sort_entry_array`; the observer counts itself. -/
def lateWriterRun : List (Action ℕ ℕ) :=
  List.replicate 12 (.observer 0 none) ++ [.timer] ++ List.replicate 5 (.sorter none) ++
    [.observer 0 none]

/-- **A write during the sort.** -/
theorem phaseExclusion_lost : ∃ s : System ℕ ℕ,
    Reach (fun s a s' => System.step false s a = some s') (fun _ _ => True) (System.init ℕ ℕ) s ∧
      ¬ PhaseExclusion s := by
  obtain ⟨s, hs, hp⟩ := Reach.exists_of_foldlM (System.step false) (fun _ _ => True)
    (System.init ℕ ℕ) lateWriterRun (fun s => (s.observer 0).writing && s.sorter.sorting) rfl
  rw [Bool.and_eq_true] at hp
  refine ⟨s, hs, fun h => ?_⟩
  have hnot := h.writing_sorting 0 hp.1
  rw [hp.2] at hnot
  cases hnot

end C380.Notapp
