import C380.Lib.ThreadCount
import C380.Lib.Transition
import C380.Notapp.Observers
import C380.Notapp.SendEntries

/-!
# The slots that are never given back

Any number of observers register, add entries and unregister with the index they were given, with
`sort_entry_array` in between, in any order. An observer that `register_observer` gives `-1` is not
registered. `NoSlotLeak` says that `observer_count` is the number of live observers and of taken
rows, so that nothing is taken when nobody is live.

The count always is the number of live observers (`LeaseStep.live`). The taken rows are more by one
for each `unregister_observer` that found its row free already, because `sort_entry_array` had moved
the flag elsewhere:

* `slotLeak`: two observers, the first leaves, a sort, the second leaves; a row stays taken.
* `noSlotLeak_of_taken`: **nothing leaks in every run whose unregistrations find their rows taken**
  (`FindsTaken`).
* `slotLeak_stays`: one that does not takes a row away for the rest of the run.
-/

namespace C380.Notapp

open ThreadCount Transition

/-- The server data, and the index that each live observer was given. -/
structure Leases (ι : Type) where
  data : ServerData
  index : ι → Option (Fin clientMax)

/-- No observer is live and the server data is empty. -/
def Leases.init (ι : Type) : Leases ι := ⟨emptyServerData, fun _ => none⟩

variable {ι : Type} [DecidableEq ι] {s s' : Leases ι} {a : Call ι}

/-- Registered, and not unregistered yet. -/
def Leases.Live (s : Leases ι) (o : ι) : Prop := s.index o ≠ none

/-- One call. -/
inductive LeaseStep : Leases ι → Call ι → Leases ι → Prop
  | registerObserver {s : Leases ι} (o : ι) (hnew : s.index o = none) :
      LeaseStep s (.registerObserver o)
        ⟨s.data.registerObserver.2, Function.update s.index o s.data.registerObserver.1⟩
  | addEntry {s : Leases ι} (o : ι) (entry : UserEntry) (index : Fin clientMax)
      (hlive : s.index o = some index) :
      LeaseStep s (.addEntry o entry) ⟨s.data.addEntry entry index, s.index⟩
  | sortEntryArray {s : Leases ι} (data : ServerData) (hsort : SortEntryArray s.data data) :
      LeaseStep s .sortEntryArray ⟨data, s.index⟩
  | unregisterObserver {s : Leases ι} (o : ι) (index : Fin clientMax)
      (hlive : s.index o = some index) :
      LeaseStep s (.unregisterObserver o)
        ⟨s.data.unregisterObserver (some index), Function.update s.index o none⟩

/-- **No leak**: the count is the number of live observers and of taken rows, which lie below
`entry_array_size`; without a live observer nothing is counted or taken. -/
structure NoSlotLeak (s : Leases ι) : Prop where
  live : Counts s.Live s.data.observerCount
  taken : s.data.observerCount = s.data.taken.card
  below : ∀ i, (s.data.entryArray i).isTaken = true → (i.val : Int) < s.data.entryArraySize
  size_le : s.data.entryArraySize ≤ (clientMax : Int)
  empty : (∀ o, ¬ s.Live o) →
    s.data.observerCount = 0 ∧ ∀ i, (s.data.entryArray i).isTaken = false

/-- An observer unregisters only while the row at its index is taken. -/
def FindsTaken (s : Leases ι) : Call ι → Prop
  | .unregisterObserver o => ∀ i, s.index o = some i → (s.data.entryArray i).isTaken = true
  | _ => True

/-- The taken rows that no observer is counted for. -/
def ServerData.leaked (d : ServerData) : Int := d.taken.card - d.observerCount

/-! ## What one call does -/

theorem LeaseStep.reachable (h : LeaseStep s a s') (hs : s.data.Reachable) :
    s'.data.Reachable := by
  cases h with
  | registerObserver o hnew => exact hs.registerObserver
  | addEntry o entry index hlive => exact hs.addEntry entry index
  | sortEntryArray data hsort => exact hs.sortEntryArray hsort
  | unregisterObserver o index hlive => exact hs.unregisterObserver (some index)

/-- **The count is the number of live observers**: a call changes both alike. -/
theorem LeaseStep.live (h : LeaseStep s a s') (hs : CountOk s.data)
    (hlive : Counts s.Live s.data.observerCount) : Counts s'.Live s'.data.observerCount := by
  cases h with
  | registerObserver o hnew =>
    have hother : ∀ r, ∀ o' ≠ o, (Leases.Live ⟨s.data.registerObserver.2,
        Function.update s.index o r⟩ o' ↔ s.Live o') := fun r o' ho => by
      simp only [Leases.Live, Function.update_of_ne ho]
    rcases registerObserver_spec hs.size_nonneg hs.size_le with ⟨index, d', heq, hreg⟩ | ⟨heq, -⟩
    · rw [heq] at hother ⊢
      simp only [hreg.count]
      refine hlive.enter (i := o) (by simp [Leases.Live, hnew]) ?_ (hother _)
      simp [Leases.Live]
    · rw [heq]
      refine hlive.congr fun o' => ?_
      by_cases ho : o' = o
      · simp [Leases.Live, ho, hnew]
      · simp [Leases.Live, Function.update_of_ne ho]
  | addEntry o entry index hindex => exact hlive
  | sortEntryArray data hsort =>
    simp only [hsort.observerCount]
    exact hlive
  | unregisterObserver o index hindex =>
    simp only [unregisterObserver_observerCount]
    refine hlive.leave (i := o) (by simp [Leases.Live, hindex]) (by simp [Leases.Live])
      fun o' ho => ?_
    simp only [Leases.Live, Function.update_of_ne ho]

/-- **What a call leaks**: a row when it is an unregistration that finds its row free, and nothing
otherwise. -/
theorem LeaseStep.leaked (h : LeaseStep s a s') (hs : CountOk s.data) :
    (FindsTaken s a → s'.data.leaked = s.data.leaked) ∧
      (¬ FindsTaken s a → s'.data.leaked = s.data.leaked + 1) := by
  cases h with
  | registerObserver o hnew =>
    refine ⟨fun _ => ?_, fun hg => absurd trivial hg⟩
    rcases registerObserver_spec hs.size_nonneg hs.size_le with ⟨index, d', heq, hreg⟩ | ⟨heq, -⟩
    · simp only [heq, ServerData.leaked, hreg.taken, hreg.count,
        Finset.card_insert_of_notMem (hs.notMem_taken hreg)]
      push_cast
      omega
    · rw [heq]
  | addEntry o entry index hlive =>
    refine ⟨fun _ => ?_, fun hg => absurd trivial hg⟩
    simp only [ServerData.leaked, taken_addEntry]
    rfl
  | sortEntryArray data hsort =>
    refine ⟨fun _ => ?_, fun hg => absurd trivial hg⟩
    simp only [ServerData.leaked, hsort.card_taken, hsort.observerCount]
  | unregisterObserver o index hlive =>
    simp only [ServerData.leaked, taken_unregisterObserver, unregisterObserver_observerCount]
    refine ⟨fun hg => ?_, fun hg => ?_⟩
    · have hmem : index ∈ s.data.taken := mem_taken.mpr (hg index hlive)
      have hcard := Finset.card_erase_add_one hmem
      omega
    · have hfree : index ∉ s.data.taken := fun hmem => hg fun i hi => by
        obtain rfl : index = i := Option.some.inj (hlive.symm.trans hi)
        exact mem_taken.mp hmem
      rw [Finset.erase_eq_of_notMem hfree]
      omega

/-! ## Whole runs -/

/-- What holds in every run: the count is the number of live observers. -/
structure LeasesOk (s : Leases ι) : Prop where
  reachable : s.data.Reachable
  live : Counts s.Live s.data.observerCount

omit [DecidableEq ι] in
theorem leasesOk_init : LeasesOk (Leases.init ι) :=
  ⟨.empty, counts_zero fun _ h => h rfl⟩

theorem LeasesOk.step (h : LeasesOk s) (hs : LeaseStep s a s') : LeasesOk s' :=
  ⟨hs.reachable h.reachable, hs.live h.reachable.countOk h.live⟩

theorem LeasesOk.of_reach {guard : Leases ι → Call ι → Prop}
    (h : Reach LeaseStep guard (Leases.init ι) s) : LeasesOk s :=
  h.invariant leasesOk_init fun _ _ _ hok _ hs => hok.step hs

omit [DecidableEq ι] in
/-- **Nothing has leaked iff** as many observers are counted as rows are taken. -/
theorem LeasesOk.noSlotLeak_iff (h : LeasesOk s) : NoSlotLeak s ↔ s.data.leaked = 0 := by
  have hok := h.reachable.countOk
  constructor
  · intro hleak
    have := hleak.taken
    unfold ServerData.leaked
    omega
  · intro hleak
    have htaken : s.data.observerCount = s.data.taken.card := by
      unfold ServerData.leaked at hleak
      omega
    refine ⟨h.live, htaken, fun i hi => ?_, hok.size_le, fun hnone => ?_⟩
    · by_contra hge
      rw [hok.above i (not_lt.mp hge)] at hi
      cases hi
    · obtain ⟨m, hm, hcard⟩ := h.live
      have hset : {o | s.Live o} = ∅ := Set.eq_empty_of_forall_notMem hnone
      rw [hset, Set.encard_empty] at hcard
      obtain rfl : m = 0 := by exact_mod_cast hcard.symm
      refine ⟨hm, fun i => ?_⟩
      rw [← Bool.not_eq_true, ← mem_taken]
      have hempty : s.data.taken = ∅ := Finset.card_eq_zero.mp (by omega)
      rw [hempty]
      exact Finset.notMem_empty i

theorem leaked_init : emptyServerData.leaked = 0 := by
  decide +kernel

/-- **No slot leak** in every state of every run whose unregistrations find their rows taken. -/
theorem noSlotLeak_of_taken (s : Leases ι) (h : Reach LeaseStep FindsTaken (Leases.init ι) s) :
    NoSlotLeak s := by
  refine (LeasesOk.of_reach h).noSlotLeak_iff.mpr ?_
  induction h with
  | init => exact leaked_init
  | step a hs hg hstep ih =>
    have hok := (LeasesOk.of_reach hs).reachable.countOk
    exact ((hstep.leaked hok).1 hg).trans ih

/-- After an unregistration that has found its row free, a row is leaked. -/
theorem LeasesOk.leaked_pos (h : LeasesOk s) (hs : LeaseStep s a s') (hg : ¬ FindsTaken s a) :
    0 < s'.data.leaked := by
  have hcount := h.reachable.countOk.count
  have hmore := (hs.leaked h.reachable.countOk).2 hg
  rw [ServerData.leaked] at hmore ⊢
  rw [hmore, ServerData.leaked]
  omega

/-- **A leak stays**: no state is without leak after an unregistration that has found its row
free. -/
theorem slotLeak_stays {t : Leases ι} (h : LeasesOk s) (hs : LeaseStep s a s')
    (hg : ¬ FindsTaken s a) (ht : Reach LeaseStep (fun _ _ => True) s' t) : ¬ NoSlotLeak t := by
  suffices hall : LeasesOk t ∧ 0 < t.data.leaked by
    rw [hall.1.noSlotLeak_iff]
    exact hall.2.ne'
  induction ht with
  | init => exact ⟨h.step hs, h.leaked_pos hs hg⟩
  | @step u u' b _ _ hstep ih =>
    refine ⟨ih.1.step hstep, ?_⟩
    obtain ⟨hkept, hmore⟩ := hstep.leaked ih.1.reachable.countOk
    by_cases hb : FindsTaken u b
    · rw [hkept hb]
      exact ih.2
    · rw [hmore hb]
      exact ih.2.trans (lt_add_one _)

/-! ## Two runs -/

/-- Two observers have registered and added an entry each. -/
theorem reach_twoEntries : Reach LeaseStep FindsTaken (Leases.init ℕ) ⟨twoEntries,
    Function.update (Function.update (fun _ => none) 0 (some 0)) 1 (some 1)⟩ :=
  .step (.addEntry 1 (entryAt 2 "b")) (.step (.addEntry 0 (entryAt 1 "a"))
    (.step (.registerObserver 1) (.step (.registerObserver 0) .init trivial
      (.registerObserver 0 rfl)) trivial (.registerObserver 1 rfl)) trivial
    (.addEntry 0 (entryAt 1 "a") 0 rfl)) trivial (.addEntry 1 (entryAt 2 "b") 1 rfl)

/-- The sort exchanges the rows of the two observers, both of which are taken. The first observer
leaves, a third one registers in its place, and the second one leaves. -/
theorem noSlotLeak_of_taken_sorted : ∃ s : Leases ℕ,
    (s.index 2 = some 0 ∧ ¬ s.Live 0 ∧ ¬ s.Live 1 ∧ s.data.observerCount = 1) ∧ NoSlotLeak s := by
  refine ⟨_, ⟨rfl, fun h => h rfl, fun h => h rfl, rfl⟩, noSlotLeak_of_taken _
    (.step (.unregisterObserver 1) (.step (.registerObserver 2) (.step (.unregisterObserver 0)
      (.step .sortEntryArray reach_twoEntries trivial
        (.sortEntryArray twoEntriesSorted sortEntryArray_twoEntries)) (fun i hi => ?_)
      (.unregisterObserver 0 0 rfl)) trivial (.registerObserver 2 rfl)) (fun i hi => ?_)
      (.unregisterObserver 1 1 rfl))⟩
  · cases hi
    rfl
  · cases hi
    rfl

/-- Both observers have left. -/
theorem not_live_of_left {d : ServerData} {i j : Option (Fin clientMax)} (o : ℕ) :
    ¬ Leases.Live ⟨d, Function.update (Function.update (Function.update (Function.update
      (fun _ => none) 0 i) 1 j) 0 none) 1 none⟩ o := by
  simp only [Leases.Live, not_not]
  by_cases h1 : o = 1
  · rw [h1, Function.update_self]
  · rw [Function.update_of_ne h1]
    by_cases h0 : o = 0
    · rw [h0, Function.update_self]
    · simp only [Function.update_of_ne h1, Function.update_of_ne h0]

/-- **A slot leaks**: the second observer unregisters with its index 1, but the sort has put its row
into row 0, which stays taken when nobody is live. -/
theorem slotLeak : ∃ s : Leases ℕ, Reach LeaseStep (fun _ _ => True) (Leases.init ℕ) s ∧
    (∀ o, ¬ s.Live o) ∧ s.data.observerCount = 0 ∧ (s.data.entryArray 0).isTaken = true ∧
    ¬ NoSlotLeak s := by
  refine ⟨_, .step (.unregisterObserver 1) (.step .sortEntryArray (.step (.unregisterObserver 0)
    (reach_twoEntries.mono fun _ _ _ => trivial) trivial
    (.unregisterObserver 0 0 rfl)) trivial
    (.sortEntryArray _ (sortEntryArray_swap (n := 2) (by decide) rfl 0 1 rfl (by decide)))) trivial
    (.unregisterObserver 1 1 rfl), not_live_of_left, rfl, rfl, fun h => ?_⟩
  have hfree := (h.empty not_live_of_left).2 0
  cases hfree

end C380.Notapp
