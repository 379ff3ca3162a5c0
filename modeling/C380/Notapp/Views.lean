import C380.Notapp.Calls
import C380.Notapp.Leases

/-!
# The user view and the log view (`send_entries`, `print_logfile`, `Assignment02/server_data.c`)

After a sort `send_entries` sends the first `observer_count` rows, and `print_logfile` writes the
taken rows below `entry_array_size`. `ViewsAgree` says that both show the taken rows, from latest to
oldest.

`print_logfile` always does (`logged_eq`). `send_entries` does when no free row stands before a
taken one, and as many rows are taken as observers counted:

* `viewsDiffer`: an observer that has left keeps its time, and a user is sent its string in place of
  the one of an observer that is still there.
* `viewsAgree_of_freeLast`: **the views agree after a sort, in every run whose unregistrations find
  their rows taken**, when the free rows are older than the taken ones before the sort, or the same
  (`FreeLast`).
* `not_viewsAgree`, `not_viewsAgree_of_leak`: where all strings are different, a free row before a
  taken one makes them differ, and they never agree again after an unregistration that has found its
  row free.
-/

namespace C380.Notapp

open Transition

/-- `CLIENT_HEADER`. -/
def clientHeader : String := "TIME\t\t\t\tHOST\t\t\tMONITORED\t\tEVENT\n"

/-- The strings that the loop of `print_logfile` writes. -/
def ServerData.logged (d : ServerData) : List String :=
  ((List.finRange clientMax).filter fun i =>
    decide ((i.val : Int) < d.entryArraySize) && (d.entryArray i).isTaken).map fun i =>
      (d.entryArray i).string

/-- `print_logfile`: what is appended, nothing when the file cannot be opened. -/
def printLogfile (opened : Bool) (d : ServerData) : List String :=
  if opened then "\n" :: clientHeader :: d.logged.map fun string => " " ++ string ++ "\n" else []

/-- `slots` are the taken rows, from latest to oldest. -/
structure LatestFirst (d : ServerData) (slots : List (Fin clientMax)) : Prop where
  nodup : slots.Nodup
  mem : ∀ i, i ∈ slots ↔ (d.entryArray i).isTaken = true
  sorted : slots.Pairwise fun i j => sortEntryArrayComp (d.entryArray i) (d.entryArray j) ≤ 0

/-- **The views agree**: `send_entries` sends, and `print_logfile` writes, the strings of the taken
rows from latest to oldest. -/
def ViewsAgree (d : ServerData) : Prop :=
  ∃ slots, LatestFirst d slots ∧
    (∃ header, sendEntries (fun _ => d) =
      some (header, slots.map fun i => (d.entryArray i).string)) ∧
    printLogfile true d =
      "\n" :: clientHeader :: slots.map fun i => " " ++ (d.entryArray i).string ++ "\n"

/-- Every free row below `entry_array_size` is older than every taken row, or has the same time and
string. -/
def FreeLast (d : ServerData) : Prop :=
  ∀ i j : Fin clientMax, (i.val : Int) < d.entryArraySize → (d.entryArray i).isTaken = false →
    (d.entryArray j).isTaken = true →
    sortEntryArrayComp (d.entryArray j) (d.entryArray i) < 0 ∨
      ((d.entryArray i).tv = (d.entryArray j).tv ∧
        (d.entryArray i).string = (d.entryArray j).string)

/-! ## The two views -/

section Views

variable {d d' : ServerData}

/-- The taken rows in the order of the array. -/
def ServerData.takenSlots (d : ServerData) : List (Fin clientMax) :=
  (List.finRange clientMax).filter fun i => (d.entryArray i).isTaken

theorem mem_takenSlots {i : Fin clientMax} :
    i ∈ d.takenSlots ↔ (d.entryArray i).isTaken = true := by
  simp [ServerData.takenSlots]

/-- A list of the taken rows is as long as there are any. -/
theorem length_eq_card_taken {slots : List (Fin clientMax)} (hnodup : slots.Nodup)
    (hmem : ∀ i, i ∈ slots ↔ (d.entryArray i).isTaken = true) : slots.length = d.taken.card := by
  rw [← List.toFinset_card_of_nodup hnodup]
  congr 1
  ext i
  rw [List.mem_toFinset, hmem, mem_taken]

theorem length_takenSlots : d.takenSlots.length = d.taken.card :=
  length_eq_card_taken ((List.nodup_finRange _).filter _) fun _ => mem_takenSlots

/-- A taken row lies below `entry_array_size`. -/
theorem CountOk.lt_of_taken (h : CountOk d) {i : Fin clientMax}
    (hi : (d.entryArray i).isTaken = true) : (i.val : Int) < d.entryArraySize := by
  by_contra hge
  rw [h.above i (not_lt.mp hge)] at hi
  cases hi

/-- **`print_logfile`** writes the taken rows. -/
theorem logged_eq (h : CountOk d) :
    d.logged = d.takenSlots.map fun i => (d.entryArray i).string := by
  unfold ServerData.logged ServerData.takenSlots
  congr 1
  refine List.filter_congr fun i _ => ?_
  cases hi : (d.entryArray i).isTaken with
  | false => rw [Bool.and_false]
  | true => rw [Bool.and_true, decide_eq_true (h.lt_of_taken hi)]

/-- After a sort the taken rows are in order. -/
theorem SortEntryArray.latestFirst (hs : SortEntryArray d d') (h : CountOk d') :
    LatestFirst d' d'.takenSlots := by
  have hlt : d'.takenSlots.Pairwise (· < ·) := (List.pairwise_lt_finRange _).filter _
  refine ⟨hlt.imp ne_of_lt, fun i => mem_takenSlots, ?_⟩
  refine hlt.imp_of_mem fun {i j} _ hj hij => hs.sorted i j hij ?_
  rw [← hs.entryArraySize]
  exact h.lt_of_taken (mem_takenSlots.mp hj)

/-- The strings of the first `n` rows. -/
theorem strings_eq_take {n : ℕ} (hn : n ≤ clientMax) :
    d.strings n = ((List.finRange clientMax).take n).map fun i => (d.entryArray i).string := by
  refine List.ext_getElem ?_ fun i hi hi' => ?_
  · simp only [ServerData.strings, List.length_map, List.length_range, List.length_take,
      List.length_finRange]
    omega
  · have hlt : i < clientMax := by
      simp only [ServerData.strings, List.length_map, List.length_range] at hi
      omega
    simp [ServerData.strings, ServerData.rowString, hlt]

/-- **After the sort a free row looks like every taken row behind it.** -/
theorem FreeLast.string_eq (h : FreeLast d) (hs : SortEntryArray d d') (hok : CountOk d')
    {i j : Fin clientMax} (hij : i < j) (hi : (d'.entryArray i).isTaken = false)
    (hj : (d'.entryArray j).isTaken = true) :
    (d'.entryArray i).string = (d'.entryArray j).string := by
  have hjlt : (j.val : Int) < d.entryArraySize := hs.entryArraySize ▸ hok.lt_of_taken hj
  have hsorted := hs.sorted i j hij hjlt
  obtain ⟨-, -, ⟨p, hfix, ha⟩, -⟩ := hs
  rw [ha] at hi hj hsorted ⊢
  rw [ha] at hsorted ⊢
  have hpi : ((p i).val : Int) < d.entryArraySize := by
    by_contra hge
    have hpp := p.injective (hfix (p i) (not_lt.mp hge))
    rw [hpp] at hge
    have := Fin.lt_def.mp hij
    omega
  rcases h (p i) (p j) hpi hi hj with hlt | ⟨-, hstring⟩
  · exact absurd (UserEntry.rank_lt.mpr hlt) (not_lt.mpr (UserEntry.rank_le.mpr hsorted))
  · exact hstring

/-- **`send_entries`** sends the taken rows when the free ones come last. -/
theorem strings_eq_takenSlots (h : FreeLast d) (hs : SortEntryArray d d') (hok : CountOk d') :
    d'.strings d'.taken.card = d'.takenSlots.map fun i => (d'.entryArray i).string := by
  have hle : d'.taken.card ≤ clientMax := by
    have := Finset.card_le_univ d'.taken
    rwa [Fintype.card_fin] at this
  rw [strings_eq_take hle, ← length_takenSlots]
  refine SortedSlots.map_take_filter (fun i => (d'.entryArray i).isTaken)
    (fun i => (d'.entryArray i).string) _ ?_
  exact (List.pairwise_lt_finRange _).imp fun {i j} hij hi hj => h.string_eq hs hok hij hi hj

/-- A free row before a taken one is among those that `send_entries` sends for the taken ones. -/
theorem exists_free_lt_card {i j : Fin clientMax} (hij : i < j)
    (hi : (d.entryArray i).isTaken = false) (hj : (d.entryArray j).isTaken = true) :
    ∃ k : Fin clientMax, k < j ∧ (d.entryArray k).isTaken = false ∧ k.val < d.taken.card := by
  obtain ⟨k, hki, hk⟩ := exists_minimal_le_of_wellFoundedLT
    (fun k => (d.entryArray k).isTaken = false) i hi
  have hkj : k < j := hki.trans_lt hij
  have hsub : insert j (Finset.Iio k) ⊆ d.taken := by
    intro m hm
    rw [mem_taken]
    rcases Finset.mem_insert.mp hm with rfl | hm
    · exact hj
    · by_contra hfree
      exact absurd (hk.2 (Bool.eq_false_of_not_eq_true hfree) (Finset.mem_Iio.mp hm).le)
        (not_le.mpr (Finset.mem_Iio.mp hm))
  have hcard := Finset.card_le_card hsub
  rw [Finset.card_insert_of_notMem (by simp [hkj.le]), Fin.card_Iio] at hcard
  exact ⟨k, hkj, hk.1, hcard⟩

/-- The views agree only when as many rows are taken as observers counted. -/
theorem ViewsAgree.observerCount (h : ViewsAgree d) (hok : CountOk d) :
    d.observerCount.toNat = d.taken.card := by
  obtain ⟨slots, hslots, ⟨header, hsent⟩, -⟩ := h
  rw [sendEntries_quiet hok.count_le] at hsent
  have hlength := congrArg List.length (Prod.mk.inj (Option.some.inj hsent)).2
  rw [← length_eq_card_taken hslots.nodup hslots.mem]
  simpa [ServerData.strings] using hlength

/-- **The views differ** where all strings are different and a free row stands before a taken
one. -/
theorem not_viewsAgree (hok : CountOk d) (hdistinct : ∀ i j : Fin clientMax,
      (i.val : Int) < d.entryArraySize → (j.val : Int) < d.entryArraySize →
      (d.entryArray i).string = (d.entryArray j).string → i = j)
    {i j : Fin clientMax} (hij : i < j) (hi : (d.entryArray i).isTaken = false)
    (hj : (d.entryArray j).isTaken = true) : ¬ ViewsAgree d := by
  intro h
  have hcount := h.observerCount hok
  obtain ⟨slots, hslots, ⟨header, hsent⟩, -⟩ := h
  obtain ⟨k, hkj, hk, hcard⟩ := exists_free_lt_card hij hi hj
  rw [sendEntries_quiet hok.count_le] at hsent
  have hstrings := (Prod.mk.inj (Option.some.inj hsent)).2
  have hmem : (d.entryArray k).string ∈ d.strings d.observerCount.toNat :=
    List.mem_map.mpr ⟨k.val, List.mem_range.mpr (by omega), by simp [ServerData.rowString]⟩
  rw [hstrings] at hmem
  obtain ⟨m, hm, heq⟩ := List.mem_map.mp hmem
  have hmtaken := (hslots.mem m).mp hm
  have hjlt := hok.lt_of_taken hj
  have hklt : (k.val : Int) < d.entryArraySize := by
    have := Fin.lt_def.mp hkj
    omega
  obtain rfl := hdistinct m k (hok.lt_of_taken hmtaken) hklt heq
  rw [hk] at hmtaken
  cases hmtaken

end Views

variable {ι : Type} [DecidableEq ι] {s s' : Leases ι}

/-- **The views agree** after a sort in every run whose unregistrations find their rows taken, when
no free row is at least as new as a taken one, unless it looks the same. -/
theorem viewsAgree_of_freeLast (s s' : Leases ι)
    (h : Reach LeaseStep FindsTaken (Leases.init ι) s) (hlast : FreeLast s.data)
    (hs : LeaseStep s .sortEntryArray s') : ViewsAgree s'.data := by
  have hleak := noSlotLeak_of_taken s' (.step .sortEntryArray h trivial hs)
  have hok := (LeasesOk.of_reach (h.step .sortEntryArray trivial hs)).reachable.countOk
  cases hs with
  | sortEntryArray data hsort =>
    have hcount : data.observerCount = data.taken.card := hleak.taken
    refine ⟨data.takenSlots, hsort.latestFirst hok, ⟨data.observerCount, ?_⟩, ?_⟩
    · rw [sendEntries_quiet hok.count_le, hcount, Int.toNat_natCast,
        strings_eq_takenSlots hlast hsort hok]
    · unfold printLogfile
      rw [if_pos rfl, logged_eq hok, List.map_map]
      rfl

/-- **The views never agree again** after an unregistration that has found its row free. -/
theorem not_viewsAgree_of_leak {a : Call ι} {t : Leases ι} (h : LeasesOk s) (hs : LeaseStep s a s')
    (hg : ¬ FindsTaken s a) (ht : Reach LeaseStep (fun _ _ => True) s' t) :
    ¬ ViewsAgree t.data := by
  intro hviews
  have hok : LeasesOk t := ht.invariant (h.step hs) fun _ _ _ hok _ hstep => hok.step hstep
  refine slotLeak_stays h hs hg ht (hok.noSlotLeak_iff.mpr ?_)
  have hcount := hviews.observerCount hok.reachable.countOk
  obtain ⟨n, hn, -⟩ := hok.live
  unfold ServerData.leaked
  omega

/-! ## Two runs -/

/-- The calls that lead to `firstLeft`. -/
theorem reach_firstLeft : Reach LeaseStep FindsTaken (Leases.init ℕ) ⟨firstLeft,
    Function.update (Function.update (Function.update (Function.update (fun _ => none) 0 (some 0))
      1 (some 1)) 2 (some 2)) 0 none⟩ := by
  refine .step (.unregisterObserver 0) (.step (.addEntry 2 (entryAt 3 "c"))
    (.step (.registerObserver 2) reach_twoEntries trivial (.registerObserver 2 rfl)) trivial
    (.addEntry 2 (entryAt 3 "c") 2 rfl)) (fun i hi => ?_) (.unregisterObserver 0 0 rfl)
  cases hi
  rfl

theorem freeLast_firstLeft : FreeLast firstLeft := by
  intro i j hi hfree htaken
  have hj := (LeasesOk.of_reach reach_firstLeft).reachable.countOk.lt_of_taken htaken
  have hsize : firstLeft.entryArraySize = (3 : ℕ) := rfl
  rw [hsize, Int.ofNat_lt] at hi hj
  have hall : ∀ i j : Fin 3, (firstLeft.entryArray (i.castLE (by decide))).isTaken = false →
      (firstLeft.entryArray (j.castLE (by decide))).isTaken = true →
      sortEntryArrayComp (firstLeft.entryArray (j.castLE (by decide)))
        (firstLeft.entryArray (i.castLE (by decide))) < 0 := by decide
  exact Or.inl (hall ⟨i.val, hi⟩ ⟨j.val, hj⟩ hfree htaken)

/-- The observer that has left has the oldest row: a user is sent the strings of the other two. -/
theorem viewsAgree_of_freeLast_firstLeft :
    sendEntries (fun _ => firstLeftSorted) = some (2, ["c", "b"]) ∧ ViewsAgree firstLeftSorted :=
  ⟨by decide +kernel, viewsAgree_of_freeLast (ι := ℕ) ⟨firstLeft, _⟩ ⟨firstLeftSorted, _⟩
    reach_firstLeft freeLast_firstLeft (.sortEntryArray firstLeftSorted
      (sortEntryArray_swap (n := 3) (by decide) rfl 0 2 rfl (by decide)))⟩

/-- **The views differ**: the observer that has left keeps the later time, and the user is sent its
string instead of the one of the observer that is still there. -/
theorem viewsDiffer : ∃ s s' : Leases ℕ,
    Reach LeaseStep (fun _ _ => True) (Leases.init ℕ) s ∧ LeaseStep s .sortEntryArray s' ∧
      sendEntries (fun _ => s'.data) = some (1, ["b"]) ∧ s'.data.logged = ["a"] ∧
      ¬ ViewsAgree s'.data := by
  refine ⟨_, _, .step (.unregisterObserver 0) (.step (.addEntry 1 (entryAt 1 "a"))
    (.step (.addEntry 0 (entryAt 2 "b")) (.step (.registerObserver 1)
      (.step (.registerObserver 0) .init trivial (.registerObserver 0 rfl)) trivial
      (.registerObserver 1 rfl)) trivial
      (.addEntry 0 (entryAt 2 "b") 0 rfl)) trivial
    (.addEntry 1 (entryAt 1 "a") 1 rfl)) trivial (.unregisterObserver 0 0 rfl),
    .sortEntryArray _ (sortEntryArray_refl (n := 2) (by decide) rfl (by decide)),
    by decide +kernel, by decide +kernel,
    ?_⟩
  refine not_viewsAgree (ServerData.Reachable.countOk ?_) (fun i j hi hj heq => ?_)
    (show (0 : Fin clientMax) < 1 by decide) rfl rfl
  · exact .unregisterObserver (some 0) (.addEntry (entryAt 1 "a") 1 (.addEntry (entryAt 2 "b") 0
      (.registerObserver (.registerObserver .empty))))
  · rcases eq_zero_or_one hi with rfl | rfl <;> rcases eq_zero_or_one hj with rfl | rfl
    · rfl
    · exact absurd heq (by decide)
    · exact absurd heq (by decide)
    · rfl

end C380.Notapp
