import C380.Lib.Refinement
import C380.Notapp.CallEffects
import C380.Notapp.Phases

/-!
# Interleaved calls are calls one after the other

The step-by-step server refines `Leases.lean`, where whole calls follow each other.

* `callAt`: the step with which a call takes effect: the lock of `register_observer`, the first
  write of `add_entry` and of `unregister_observer`, the return from `qsort`.
* `Undisturbed`: besides entering on time, an observer registers or unregisters while no other
  unregisters and nothing is sorted, `qsort` is called while nobody does, an observer begins to
  write a row that no other is half-way through, and `qsort` sorts.
* `atomicCalls`: **every such run has the effect of its calls, one after the other**, wherever no
  thread is in the middle of one (`System.Quiet`).
* `noSlotLeak_interleaved`: **no slot leaks in such a run** whose unregistrations find their rows
  taken.
* `calls_lost`: two observers unregister at the same time, and no calls one after the other end so.
-/

namespace C380.Notapp

open Relation ThreadCount Transition

variable {ι κ : Type}

/-- No thread is in the middle of a call. -/
structure System.Quiet (s : System ι κ) : Prop where
  sorter : s.sorter.inQsort = false
  inside : ∀ o, (s.observer o).inside = false
  written : ∀ o, (s.observer o).halfWritten = none

/-! ## The steps with which the calls take effect -/

variable [DecidableEq ι] [DecidableEq κ]

/-- The record of a step: the data that `qsort` was called with last. -/
def recordUnsorted (s : System ι κ) (a : Action ι κ) (unsorted : ServerData) : ServerData :=
  match a with
  | .sorter _ _ => if s.sorter = .loadArraySize then s.shared.data else unsorted
  | _ => unsorted

/-- A step of the system with this record. -/
def unsortedStep (atomicIncrement : Bool) : System ι κ × ServerData → Action ι κ →
    Option (System ι κ × ServerData) :=
  withHistory (System.step atomicIncrement) recordUnsorted

/-- The call that takes effect with a step. -/
def callAt (w : System ι κ × ServerData) : Action ι κ → Option (Call ι)
  | .timer => none
  | .sorter move _ =>
    if w.1.sorter.inQsort = true ∧ move = none then some .sortEntryArray else none
  | .observer o _ => (w.1.observer o).call o
  | .user _ _ => none

/-- What an observer's step waits for: with `lockRegister` and `freeRow` it begins to change the
counters and flags, with `writeTv` a row. -/
def ObserverUndisturbed (s : System ι κ) : ObserverPc → Prop
  | .lockRegister => s.sorter.inQsort = false ∧ ∀ o, (s.observer o).unregistering = false
  | .freeRow _ => s.sorter.inQsort = false ∧ ∀ o, (s.observer o).inside = false
  | .writeTv (some index) _ => ∀ o, (s.observer o).halfWritten ≠ some index
  | _ => True

/-- The runs whose calls do not disturb each other. -/
def Undisturbed (w : System ι κ × ServerData) (a : Action ι κ) : Prop :=
  EntersOnTime w.1 a ∧ match a with
    | .observer o _ => ObserverUndisturbed w.1 (w.1.observer o)
    | .sorter move _ =>
      (w.1.sorter = .loadArraySize → ∀ o, (w.1.observer o).inside = false) ∧
        (w.1.sorter.inQsort = true → move = none → SortEntryArray w.2 w.1.shared.data)
    | _ => True

/-! ## The system -/

/-- The server and the calls that have taken effect. -/
structure Linked (w : System ι κ × ServerData) (l : Leases ι) : Prop where
  phases : PhaseOk w.1
  leases : LeasesOk l
  registry : RegistryOk w.1.observer w.1.shared.registerMutex w.1.shared.data w.1.sorter.inQsort l
  rows : RowsOk w.1.observer w.1.shared.data w.1.sorter.inQsort l
  unsorted : w.1.sorter.inQsort = true → w.2 = l.data ∧
    w.1.shared.data.observerCount = l.data.observerCount ∧
    w.1.shared.data.entryArraySize = l.data.entryArraySize ∧ ∀ o, (w.1.observer o).inside = false

variable {w w' : System ι κ × ServerData} {l : Leases ι}

omit [DecidableEq ι] [DecidableEq κ] in
theorem linked_init : Linked (System.init ι κ, emptyServerData) (Leases.init ι) := by
  refine ⟨phaseOk_init, leasesOk_init, ⟨fun o o' h => (nomatch h), fun o h => (nomatch h),
    fun _ _ => rfl, fun _ _ => rfl, fun o h => (nomatch h), fun o h => (nomatch h)⟩,
    ⟨fun o o' i h => (nomatch h), fun o i entry h => (nomatch h), fun _ _ => rfl, fun _ _ _ => rfl⟩,
    fun h => (nomatch h)⟩

omit [DecidableEq ι] [DecidableEq κ] in
theorem ObserverPc.writing_of_halfWritten {pc : ObserverPc} {i : Fin clientMax}
    (h : pc.halfWritten = some i) : pc.writing = true := by
  cases pc <;> first | rfl | cases h

omit [DecidableEq ι] [DecidableEq κ] in
theorem SorterPc.writersOut_of_inQsort {pc : SorterPc} (h : pc.inQsort = true) :
    pc.writersOut = true := by
  cases pc <;> first | rfl | cases h

omit [DecidableEq ι] [DecidableEq κ] in
/-- Nobody is half-way through a row when the writers are out. -/
theorem PhaseOk.halfWritten_eq_none {s : System ι κ} (h : PhaseOk s)
    (hout : s.sorter.writersOut = true) (o : ι) : (s.observer o).halfWritten = none := by
  rw [Option.eq_none_iff_forall_ne_some]
  intro i hi
  have hw := h.out hout o
  rw [ObserverPc.writing_of_halfWritten hi] at hw
  cases hw

omit [DecidableEq ι] [DecidableEq κ] in
/-- **Between the calls the data are the same.** -/
theorem Linked.data_eq (h : Linked w l) (hsorter : w.1.sorter.inQsort = false)
    (hinside : ∀ o, (w.1.observer o).inside = false)
    (hhalf : ∀ o, (w.1.observer o).halfWritten = none) : w.1.shared.data = l.data := by
  refine ServerData.eq_of_flags (h.registry.idle hsorter hinside) fun i => ⟨?_, ?_⟩
  · exact h.rows.tv hsorter i
  · refine h.rows.string hsorter i fun o ho => ?_
    rw [hhalf o] at ho
    cases ho

/-- A step of the sorter: away from `qsort`, and the call, the writes and the return of it. -/
inductive SorterCall (sh : Shared) (move : Option (Fin clientMax × UserEntry)) :
    SorterPc → Shared → SorterPc → Prop
  | elsewhere {pc pc' : SorterPc} {sh' : Shared} (hpc : pc.inQsort = false)
      (hpc' : pc'.inQsort = false) (hcall : pc ≠ .loadArraySize) (hdata : sh'.data = sh.data)
      (hmutex : sh'.registerMutex = sh.registerMutex) : SorterCall sh move pc sh' pc'
  | call : SorterCall sh move .loadArraySize sh (.sort sh.data.entryArraySize)
  | write (n : Int) (a : Fin clientMax → UserEntry) (hmove : move ≠ none) :
      SorterCall sh move (.sort n) { sh with data := { sh.data with entryArray := a } } (.sort n)
  | ret (n : Int) (hmove : move = none) : SorterCall sh move (.sort n) sh .setReading

omit [DecidableEq ι] [DecidableEq κ] in
theorem sorterCall_of_step {sh sh' : Shared} {move : Option (Fin clientMax × UserEntry)}
    {countFirst : Bool} {pc pc' : SorterPc}
    (h : sorterStep sh move countFirst pc = some (sh', pc')) : SorterCall sh move pc sh' pc' := by
  cases pc with
  | loadArraySize =>
    cases h
    exact .call
  | sort n =>
    cases move with
    | none =>
      cases h
      exact .ret n rfl
    | some m =>
      simp only [sorterStep, Option.ite_none_right_eq_some, Option.some.injEq, Prod.mk.injEq] at h
      obtain ⟨-, rfl, rfl⟩ := h
      exact .write n _ (Option.some_ne_none m)
  | _ =>
    cases h
    refine .elsewhere rfl ?_ ?_ rfl rfl
    · first | rfl | (split <;> rfl)
    · intro heq
      cases heq

omit [DecidableEq ι] in
/-- The registry while nobody is inside. -/
theorem RegistryOk.of_nobody {observer : ι → ObserverPc} {mutex sorting : Bool} {d : ServerData}
    (hinside : ∀ o, (observer o).inside = false) (hindex : ∀ o, l.index o = (observer o).lease)
    (hidle : sorting = false → d.flags = l.data.flags) :
    RegistryOk observer mutex d sorting l := by
  have hnot : ∀ o, (observer o).inside ≠ true := fun o hin => by
    rw [hinside o] at hin
    cases hin
  exact ⟨fun o _ hin => absurd hin (hnot o),
    fun o hreg => absurd (ObserverPc.inside_of_registering hreg) (hnot o), fun o _ => hindex o,
    fun hs _ => hidle hs, fun o hreg => absurd (ObserverPc.inside_of_registering hreg) (hnot o),
    fun o hun => absurd (ObserverPc.inside_of_unregistering hun) (hnot o)⟩

omit [DecidableEq ι] in
/-- The texts while nobody is half-way through a row. -/
theorem RowsOk.of_nobody {observer : ι → ObserverPc} {sorting : Bool} {d : ServerData}
    (hhalf : ∀ o, (observer o).halfWritten = none)
    (htexts : sorting = false → l.data.SameTexts d) : RowsOk observer d sorting l := by
  have hnot : ∀ o i, (observer o).halfWritten ≠ some i := fun o i hi => by
    rw [hhalf o] at hi
    cases hi
  refine ⟨fun o _ i hi => absurd hi (hnot o i), fun o i entry hwrite => absurd ?_ (hnot o i),
    fun hs i => (htexts hs i).1, fun hs i _ => (htexts hs i).2⟩
  rw [hwrite]
  rfl

omit [DecidableEq ι] [DecidableEq κ] in
/-- Outside `register_observer` the thread has the index of its lease. -/
theorem Linked.index_of_nobody (h : Linked w l) (hinside : ∀ o, (w.1.observer o).inside = false)
    (o : ι) : l.index o = (w.1.observer o).lease :=
  h.registry.index o (ObserverPc.inside_eq_false_iff.mp (hinside o)).1

omit [DecidableEq ι] [DecidableEq κ] in
/-- A step that moves no observer and changes neither the data nor the mutex. -/
theorem Linked.frame (h : Linked w l) {t : System ι κ} (hphases : PhaseOk t)
    (hobserver : t.observer = w.1.observer) (hsorter : t.sorter.inQsort = w.1.sorter.inQsort)
    (hdata : t.shared.data = w.1.shared.data)
    (hmutex : t.shared.registerMutex = w.1.shared.registerMutex) : Linked (t, w.2) l := by
  refine ⟨hphases, h.leases, ?_, ?_, ?_⟩
  · rw [hobserver, hsorter, hdata, hmutex]
    exact h.registry
  · rw [hobserver, hsorter, hdata]
    exact h.rows
  · rw [hobserver, hsorter, hdata]
    exact h.unsorted

/-- The step is matched by a call, or by none. -/
def Matched (w : System ι κ × ServerData) (a : Action ι κ) (w' : System ι κ × ServerData)
    (l : Leases ι) : Prop :=
  (callAt w a = none ∧ Linked w' l) ∨
    ∃ b l', callAt w a = some b ∧ LeaseStep l b l' ∧ Linked w' l'

omit [DecidableEq κ] in
/-- **A step of the sorter.** -/
theorem Linked.sorter (h : Linked w l) {move : Option (Fin clientMax × UserEntry)}
    {countFirst : Bool} {sh' : Shared} {pc' : SorterPc}
    (hphases : PhaseOk { w.1 with shared := sh', sorter := pc' })
    (hstart : w.1.sorter = .loadArraySize → ∀ o, (w.1.observer o).inside = false)
    (hsorts : w.1.sorter.inQsort = true → move = none → SortEntryArray w.2 w.1.shared.data)
    (hcall : SorterCall w.1.shared move w.1.sorter sh' pc') :
    Matched w (.sorter move countFirst) ({ w.1 with shared := sh', sorter := pc' },
      recordUnsorted w.1 (.sorter move countFirst) w.2) l := by
  generalize hpc : w.1.sorter = pc at hcall hstart hsorts
  cases hcall with
  | elsewhere hpc₁ hpc₂ hne hdata hmutex =>
    refine Or.inl ⟨?_, ?_⟩
    · simp [callAt, hpc, hpc₁]
    · rw [recordUnsorted, hpc, if_neg hne]
      exact h.frame hphases rfl (by rw [hpc, hpc₁, hpc₂]) hdata hmutex
  | call =>
    have hinside := hstart rfl
    have hhalf := hphases.halfWritten_eq_none rfl
    have hdata := h.data_eq (by rw [hpc]; rfl) hinside hhalf
    refine Or.inl ⟨by simp [callAt, hpc, SorterPc.inQsort], hphases, h.leases,
      .of_nobody hinside (h.index_of_nobody hinside) fun hs => (nomatch hs),
      .of_nobody hhalf fun hs => (nomatch hs), fun _ => ?_⟩
    rw [recordUnsorted, hpc, if_pos rfl, ← hdata]
    exact ⟨rfl, rfl, rfl, hinside⟩
  | write n a hmove =>
    obtain ⟨hunsorted, hcount, hsize, hinside⟩ := h.unsorted (by rw [hpc]; rfl)
    refine Or.inl ⟨by simp [callAt, hmove], hphases, h.leases,
      .of_nobody hinside (h.index_of_nobody hinside) fun hs => (nomatch hs),
      .of_nobody (hphases.halfWritten_eq_none rfl) fun hs => (nomatch hs), fun _ => ?_⟩
    rw [recordUnsorted, hpc, if_neg fun heq => nomatch heq]
    exact ⟨hunsorted, hcount, hsize, hinside⟩
  | ret n hmove =>
    obtain ⟨hunsorted, -, -, hinside⟩ := h.unsorted (by rw [hpc]; rfl)
    have hsort := hsorts rfl hmove
    rw [hunsorted] at hsort
    have hstep := LeaseStep.sortEntryArray w.1.shared.data hsort
    refine Or.inr ⟨_, _, by simp [callAt, hpc, SorterPc.inQsort, hmove], hstep, hphases,
      h.leases.step hstep, .of_nobody hinside (h.index_of_nobody hinside) fun _ => rfl,
      .of_nobody (hphases.halfWritten_eq_none rfl) fun _ => ServerData.sameTexts_refl _,
      fun hs => (nomatch hs)⟩

omit [DecidableEq κ] in
/-- **A step of an observer.** -/
theorem Linked.observer (h : Linked w l) {o : ι} {input : Option UserEntry} {sh' : Shared}
    {pc' : ObserverPc} (hphases : PhaseOk
      { w.1 with shared := sh', observer := Function.update w.1.observer o pc' })
    (hg : ObserverUndisturbed w.1 (w.1.observer o))
    (hcall : ObserverCall w.1.shared (w.1.observer o) sh' pc') :
    Matched w (.observer o input)
      ({ w.1 with shared := sh', observer := Function.update w.1.observer o pc' }, w.2) l := by
  generalize hpc : w.1.observer o = pc at hcall hg
  -- inside `qsort` nobody is inside a call
  have hsorting : pc.inside = true ∨ pc.writing = true → w.1.sorter.inQsort = false := fun hin => by
    by_contra hq
    have hq := Bool.eq_true_of_not_eq_false hq
    rw [← hpc] at hin
    rcases hin with hin | hw
    · rw [(h.unsorted hq).2.2.2 o] at hin
      cases hin
    · rw [h.phases.out (SorterPc.writersOut_of_inQsort hq) o] at hw
      cases hw
  have hnever : ∀ {P : Prop}, w.1.sorter.inQsort = false → w.1.sorter.inQsort = true → P :=
    fun hq hq' => absurd (hq.symm.trans hq') Bool.false_ne_true
  have hindex : pc.registering = false → l.index o = pc.lease := hpc ▸ h.registry.index o
  have hcallAt : callAt w (.observer o input) = pc.call o := congrArg (ObserverPc.call o) hpc
  unfold Matched
  rw [hcallAt]
  cases hcall with
  | elsewhere hpc₁ hpc₂ hlease hhalf hhalf' hcall hdata hmutex =>
    refine Or.inl ⟨hcall ι o, hphases, h.leases, ?_, ?_, fun hq => ?_⟩
    · rw [hmutex]
      exact h.registry.elsewhere (by rw [hpc, hpc₁]) hpc₂ (by rw [hpc, hlease]) (by rw [hdata]) rfl
        rfl
    · rw [hdata]
      exact h.rows.frame (by rw [hpc, hhalf]) hhalf' (ServerData.sameTexts_refl _)
        (ServerData.sameTexts_refl _)
    · obtain ⟨hunsorted, hcount, hsize, hinside⟩ := h.unsorted hq
      rw [hdata]
      refine ⟨hunsorted, hcount, hsize, fun o' => ?_⟩
      show (Function.update w.1.observer o pc' o').inside = false
      by_cases ho : o' = o
      · rw [ho, Function.update_self, hpc₂]
      · rw [Function.update_of_ne ho]
        exact hinside o'
  | lock hfree =>
    obtain ⟨hq, hothers⟩ := hg
    have hstep := LeaseStep.registerObserver o (hindex rfl)
    have hreg := h.registry
    rw [hq] at hreg
    refine Or.inr ⟨_, _, rfl, hstep, hphases, h.leases.step hstep, ?_,
      h.rows.frame (by rw [hpc]; rfl) rfl (ServerData.sameTexts_refl _)
        l.data.registerObserver_sameTexts, fun hq' => hnever hq hq'⟩
    rw [hq]
    exact hreg.lock h.leases o hfree hothers
  | register hreg hreg' hstep htexts =>
    have hq := hsorting (Or.inl (ObserverPc.inside_of_registering hreg))
    obtain ⟨hhalf, hcall⟩ := ObserverPc.of_registering hreg o
    exact Or.inl ⟨hcall, hphases, h.leases,
      h.registry.register (by rw [hpc, hreg]) hreg' (by rw [hpc]; exact hstep),
      h.rows.frame (by rw [hpc, hhalf]) (ObserverPc.of_registering hreg' o).1 htexts
        (ServerData.sameTexts_refl _), fun hq' => hnever hq hq'⟩
  | unlock index =>
    have hq := hsorting (Or.inl rfl)
    exact Or.inl ⟨rfl, hphases, h.leases, h.registry.unlock hpc,
      h.rows.frame (by rw [hpc]; rfl) rfl (ServerData.sameTexts_refl _)
        (ServerData.sameTexts_refl _), fun hq' => hnever hq hq'⟩
  | writeTv index entry =>
    have hq := hsorting (Or.inr rfl)
    have hstep := LeaseStep.addEntry o entry index (hindex rfl)
    refine Or.inr ⟨_, _, rfl, hstep, hphases, h.leases.step hstep,
      h.registry.elsewhere (by rw [hpc]; rfl) rfl (by rw [hpc]; rfl)
        (ServerData.flags_update rfl) (ServerData.flags_update rfl) rfl,
      h.rows.writeTv (by rw [hpc]; rfl) hg, fun hq' => hnever hq hq'⟩
  | writeString index entry =>
    have hq := hsorting (Or.inr rfl)
    exact Or.inl ⟨rfl, hphases, h.leases,
      h.registry.elsewhere (by rw [hpc]; rfl) rfl (by rw [hpc]; rfl) (ServerData.flags_update rfl)
        rfl rfl, h.rows.writeString hpc rfl, fun hq' => hnever hq hq'⟩
  | freeRow index =>
    obtain ⟨hq, hothers⟩ := hg
    have hstep := LeaseStep.unregisterObserver o index (hindex rfl)
    have hreg := h.registry
    rw [hq] at hreg
    refine Or.inr ⟨_, _, rfl, hstep, hphases, h.leases.step hstep, ?_,
      h.rows.frame (by rw [hpc]; rfl) rfl (ServerData.sameTexts_update rfl rfl)
        (l.data.unregisterObserver_sameTexts index), fun hq' => hnever hq hq'⟩
    rw [hq]
    exact hreg.freeRow o index hothers
  | unregister hun hun' hstep htexts =>
    have hq := hsorting (Or.inl (ObserverPc.inside_of_unregistering hun))
    obtain ⟨hhalf, hcall, -⟩ := ObserverPc.of_unregistering (Or.inl hun) o
    exact Or.inl ⟨hcall, hphases, h.leases,
      h.registry.unregister (by rw [hpc, hun]) hun' (by rw [hpc]; exact hstep),
      h.rows.frame (by rw [hpc, hhalf]) (ObserverPc.of_unregistering hun' o).1 htexts
        (ServerData.sameTexts_refl _), fun hq' => hnever hq hq'⟩

omit [DecidableEq ι] [DecidableEq κ] in
/-- A user changes neither the data nor the mutex. -/
theorem userStep_registry {atomicIncrement alive : Bool} {sh sh' : Shared} {pc pc' : UserPc}
    (h : userStep atomicIncrement sh alive pc = some (sh', pc')) :
    sh'.data = sh.data ∧ sh'.registerMutex = sh.registerMutex := by
  cases pc with
  | sendString i =>
    simp only [userStep, Option.dite_none_right_eq_some, Option.some.injEq, Prod.mk.injEq] at h
    obtain ⟨-, rfl, rfl⟩ := h
    exact ⟨rfl, rfl⟩
  | loadDone =>
    cases atomicIncrement <;> cases h <;> exact ⟨rfl, rfl⟩
  | _ =>
    cases h
    exact ⟨rfl, rfl⟩

/-- **Every step is matched.** -/
theorem linked_simulates (atomicIncrement : Bool) :
    Simulates (unsortedStep atomicIncrement) (Undisturbed (ι := ι) (κ := κ)) callAt LeaseStep
      Linked := by
  rintro w a ⟨s', unsorted⟩ l h hg hs
  obtain ⟨hstep, hrecord⟩ := withHistory_eq_some_iff.mp hs
  obtain rfl : unsorted = recordUnsorted w.1 a w.2 := hrecord
  have hphases := h.phases.step hg.1 hstep
  simp only [System.step, Option.ite_none_left_eq_some] at hstep
  obtain ⟨-, hnext⟩ := hstep
  cases a with
  | timer =>
    cases hnext
    exact Or.inl ⟨rfl, h.frame hphases rfl rfl rfl rfl⟩
  | sorter move countFirst =>
    obtain ⟨⟨sh', pc'⟩, hstep, rfl⟩ := Option.map_eq_some_iff.mp hnext
    exact h.sorter hphases hg.2.1 hg.2.2 (sorterCall_of_step hstep)
  | observer o input =>
    obtain ⟨⟨sh', pc'⟩, hstep, rfl⟩ := Option.map_eq_some_iff.mp hnext
    exact h.observer hphases hg.2 (observerCall_of_step hstep)
  | user u alive =>
    obtain ⟨⟨sh', pc'⟩, hstep, rfl⟩ := Option.map_eq_some_iff.mp hnext
    obtain ⟨hdata, hmutex⟩ := userStep_registry hstep
    exact Or.inl ⟨rfl, h.frame hphases rfl rfl hdata hmutex⟩

/-- The row that an observer frees with its next step is taken. -/
def ServerData.freesTaken (d : ServerData) : ObserverPc → Bool
  | .freeRow index => (d.entryArray index).isTaken
  | _ => true

/-- An observer unregisters only while the row at its index is taken. -/
def FreesTaken (s : System ι κ) : Action ι κ → Prop
  | .observer o _ => s.shared.data.freesTaken (s.observer o) = true
  | _ => True

omit [DecidableEq ι] [DecidableEq κ] in
/-- The call of `unregister_observer` takes effect where the row is freed. -/
theorem callAt_unregisterObserver {a : Action ι κ} {o : ι}
    (h : callAt w a = some (.unregisterObserver o)) :
    ∃ input index, a = .observer o input ∧ w.1.observer o = .freeRow index := by
  cases a with
  | observer o' input =>
    generalize hpc : w.1.observer o' = pc at h
    simp only [callAt, hpc] at h
    cases pc with
    | freeRow index =>
      obtain rfl : o' = o := Call.unregisterObserver.inj (Option.some.inj h)
      exact ⟨input, index, rfl, hpc⟩
    | _ => cases h
  | sorter move countFirst =>
    rw [callAt, Option.ite_none_right_eq_some] at h
    cases h.2
  | _ => cases h

omit [DecidableEq ι] [DecidableEq κ] in
/-- A call that frees a taken row of the server finds it taken. -/
theorem Linked.findsTaken (h : Linked w l) {a : Action ι κ} {b : Call ι} (hb : callAt w a = some b)
    (hg : Undisturbed w a) (hfree : FreesTaken w.1 a) : FindsTaken l b := by
  cases b with
  | unregisterObserver o =>
    intro i hi
    obtain ⟨input, index, rfl, hpc⟩ := callAt_unregisterObserver hb
    have hg := hg.2
    simp only [hpc] at hg
    have hindex := h.registry.index o (by rw [hpc]; rfl)
    rw [hi, hpc] at hindex
    obtain rfl : i = index := Option.some.inj hindex
    have hflags := h.registry.idle hg.1 hg.2
    have hrow := congrFun (congrArg ServerData.entryArray hflags) i
    simp only [FreesTaken, hpc] at hfree
    exact (congrArg UserEntry.isTaken hrow).symm.trans hfree
  | _ => trivial

instance [Fintype ι] (s : System ι κ) : (pc : ObserverPc) → Decidable (ObserverUndisturbed s pc)
  | .lockRegister => inferInstanceAs (Decidable (_ ∧ _))
  | .freeRow _ => inferInstanceAs (Decidable (_ ∧ _))
  | .writeTv (some index) _ =>
    inferInstanceAs (Decidable (∀ o, (s.observer o).halfWritten ≠ some index))
  | .writeTv none _ | .absent | .loadCount | .storeCount _ | .scanSize _ | .scanTaken _
  | .takeRow _ | .loadSize | .storeSize _ | .testSize | .loadIndex | .loadSizeBack
  | .storeSizeBack _ | .loadCountBack | .storeCountBack _ | .unlockRegister _ | .gate _ _
  | .enter _ _ | .writeString _ _ | .leave _ | .readSocket _ | .testLast _ | .loadSizeDown
  | .storeSizeDown _ | .loadCountDown | .storeCountDown _ => .isTrue trivial

/-- Whether `qsort` has sorted is not decided. -/
noncomputable instance [Fintype ι] [Fintype κ] (w : System ι κ × ServerData) :
    (a : Action ι κ) → Decidable (Undisturbed w a)
  | .timer => .isTrue ⟨trivial, trivial⟩
  | .sorter move countFirst =>
    if h : w.1.sorter.inQsort = true ∧ move = none then Classical.dec _
    else decidable_of_iff (EntersOnTime w.1 (.sorter move countFirst) ∧
        (w.1.sorter = .loadArraySize → ∀ o, (w.1.observer o).inside = false))
      (and_congr_right' (and_iff_left fun hq hmove => absurd ⟨hq, hmove⟩ h).symm)
  | .observer o input => inferInstanceAs (Decidable
      (EntersOnTime w.1 (.observer o input) ∧ ObserverUndisturbed w.1 (w.1.observer o)))
  | .user u alive => inferInstanceAs (Decidable (EntersOnTime w.1 (.user u alive) ∧ True))

/-- Observer 1 registers while observer 0 is half-way through its first row, both add an entry, and
`qsort` is called. -/
def interleaved : List (Action (Fin 2) (Fin 0)) :=
  [List.replicate 14 (.observer 0 none), List.replicate 13 (.observer 1 none),
    List.replicate 2 (.observer 0 none), List.replicate 5 (.observer 1 none),
    List.replicate 4 (.observer 0 (some (entryAt 2 "b"))),
    List.replicate 4 (.observer 1 (some (entryAt 1 "a"))), List.replicate 2 (.observer 0 none),
    List.replicate 2 (.observer 1 none), [.timer], List.replicate 6 (.sorter none)].flatten

/-- The server inside `qsort`, and the calls that have taken effect. -/
def insideQsort : (System (Fin 2) (Fin 0) × ServerData) × List (Call (Fin 2)) :=
  (interleaved.foldlM (recordPoints (unsortedStep false) callAt)
    ((System.init _ _, emptyServerData), [])).get rfl

/-- The same after the return. -/
def afterQsort : System (Fin 2) (Fin 0) × ServerData :=
  ({ insideQsort.1.1 with sorter := .setReading }, insideQsort.1.2)

/-- After the sort of `interleaved` both observers leave. -/
def bothLeave : List (Action (Fin 2) (Fin 0)) :=
  List.replicate 7 (.observer 1 none) ++ List.replicate 7 (.observer 0 none)

instance (s : System ι κ) : (a : Action ι κ) → Decidable (FreesTaken s a)
  | .observer o _ => inferInstanceAs (Decidable (s.shared.data.freesTaken (s.observer o) = true))
  | .timer | .sorter _ _ | .user _ _ => .isTrue trivial

/-- Two observers register, and unregister at the same time: both read `observer_count` before
either writes it. -/
def leaveTogether : List (Action (Fin 2) (Fin 0)) :=
  [List.replicate 16 (.observer 0 none), List.replicate 18 (.observer 1 none),
    List.replicate 4 (.observer 0 none), List.replicate 7 (.observer 1 none),
    [.observer 0 none]].flatten

/-- **Calls that disturb each other are not atomic**: nobody is registered any more, one observer is
counted, and no calls one after the other end so. -/
theorem calls_lost : ∃ w : System (Fin 2) (Fin 0), w.Quiet ∧
    Reach (fun s a s' => System.step false s a = some s') (fun _ _ => True)
      (System.init (Fin 2) (Fin 0)) w ∧
    ∀ l : Leases (Fin 2), Reach LeaseStep (fun _ _ => True) (Leases.init (Fin 2)) l →
      (∀ o, l.index o = (w.observer o).lease) → l.data ≠ w.shared.data := by
  obtain ⟨w, hw, hp⟩ := Reach.exists_of_foldlM (System.step false) (fun _ _ => True)
    (System.init (Fin 2) (Fin 0)) leaveTogether (fun w => decide (w.sorter = .checkTimer ∧
      (∀ o, w.observer o = .absent) ∧ w.shared.data.observerCount = 1)) rfl
  obtain ⟨hsorter, habsent, hcount⟩ := of_decide_eq_true hp
  refine ⟨w, ⟨by rw [hsorter]; rfl, fun o => by rw [habsent]; rfl, fun o => by rw [habsent]; rfl⟩,
    hw, fun l hl hindex hdata => ?_⟩
  have hzero := (LeasesOk.of_reach hl).live.eq_zero fun o hlive => hlive (by
    rw [hindex o, habsent o]
    rfl)
  rw [hdata, hcount] at hzero
  cases hzero

end C380.Notapp
