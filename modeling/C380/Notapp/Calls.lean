import Mathlib.Logic.Relation
import C380.Notapp.Broadcast
import C380.Notapp.SendEntries

/-!
# The calls as steps of the threads

`ServerData.lean` has the functions of `server_data.c` as calls, `Threads.lean` has them step by
step. A thread that nobody interrupts goes from the first step of a function to its return with the
result of the call.

* `registerObserver_steps`, `addEntry_steps`, `unregisterObserver_steps`: **the steps of
  `observer_thread` are the calls.**
* `sortEntryArray_steps`: every result of `sort_entry_array` is one the sorter can write.
* `sendEntries_quiet`: with no call in between, `send_entries` sends what the calls of a quiet
  phase send.
-/

namespace C380.Notapp

open Relation

/-- An observer goes from one place to another without being interrupted. -/
def ObserverRuns : Shared × ObserverPc → Shared × ObserverPc → Prop :=
  ReflTransGen fun x y => observerStep x.1 none x.2 = some y

/-- The sorter goes from one place to another without being interrupted. -/
def SorterRuns : Shared × SorterPc → Shared × SorterPc → Prop :=
  ReflTransGen fun x y => ∃ move, sorterStep x.1 move false x.2 = some y

/-! ## `register_observer` -/

theorem findFree_some_first {d : ServerData} {index j : Fin clientMax}
    (h : d.findFree = some index) (hj : j < index) : (d.entryArray j).isTaken = true := by
  obtain ⟨hlt, -⟩ := findFree_some h
  rw [ServerData.findFree, List.find?_eq_some_iff_getElem] at h
  obtain ⟨-, i, hi, hindex, hfirst⟩ := h
  rw [List.getElem_finRange] at hindex
  have hval : i = index.val := by rw [← hindex]; rfl
  have hfree := hfirst j.val (by rw [hval]; exact hj)
  have hjlt : (j.val : Int) < d.entryArraySize := by
    have := Fin.lt_def.mp hj
    omega
  simpa [hjlt] using hfree

section Scan

variable (sh : Shared)

/-- The loop goes past taken rows. -/
theorem scan_taken : ∀ (k i : ℕ), i + k ≤ clientMax → ((i + k : ℕ) : Int) ≤ sh.data.entryArraySize →
    (∀ j : Fin clientMax, j.val < i + k → (sh.data.entryArray j).isTaken = true) →
    ObserverRuns (sh, .scanSize i) (sh, .scanSize (i + k))
  | 0, i, _, _, _ => .refl
  | k + 1, i, hmax, hsize, htaken => by
    have hi : i < clientMax := by omega
    have hlook : observerStep sh none (.scanSize i) = some (sh, .scanTaken i) := by
      rw [observerStep, if_pos (by omega)]
    have hpass : observerStep sh none (.scanTaken i) = some (sh, .scanSize (i + 1)) := by
      rw [observerStep, dif_pos hi, if_pos (htaken ⟨i, hi⟩ (by simp only; omega))]
    have hrest := scan_taken k (i + 1) (by omega) (by omega) fun j hj => htaken j (by omega)
    rw [show i + 1 + k = i + (k + 1) by omega] at hrest
    exact .head hlook (.head hpass hrest)

/-- The loop ends at the first free row. -/
theorem scan_free {index : Fin clientMax} (h : sh.data.findFree = some index) :
    ObserverRuns (sh, .scanSize 0) (sh, .takeRow index) := by
  obtain ⟨hlt, hfree⟩ := findFree_some h
  have hindex := index.isLt
  have hrest := scan_taken sh index.val 0 (by omega) (by omega) fun j hj =>
    findFree_some_first h (Fin.lt_def.mpr (by omega))
  rw [Nat.zero_add] at hrest
  refine hrest.trans (.head (b := (sh, .scanTaken index.val)) ?_ (.single ?_))
  · rw [observerStep, if_pos hlt]
  · rw [observerStep, dif_pos hindex]
    simp only [hfree, Bool.false_eq_true, if_false]

/-- The loop ends at `entry_array_size` when no row below it is free. -/
theorem scan_full (h : sh.data.findFree = none) (h0 : 0 ≤ sh.data.entryArraySize)
    (hmax : sh.data.entryArraySize ≤ (clientMax : Int)) :
    ObserverRuns (sh, .scanSize 0) (sh, .loadSize) := by
  have hrest := scan_taken sh sh.data.entryArraySize.toNat 0 (by omega) (by omega)
    fun j hj => findFree_none h (by omega)
  rw [Nat.zero_add] at hrest
  have hstop : ¬ ((sh.data.entryArraySize.toNat : Int) < sh.data.entryArraySize) := by omega
  refine hrest.trans (.single ?_)
  simp only [observerStep, if_neg hstop]

end Scan

/-- **`register_observer`**, from the lock to the return with the index. -/
theorem registerObserver_steps {sh : Shared} (hfree : sh.registerMutex = false)
    (h0 : 0 ≤ sh.data.entryArraySize) (hmax : sh.data.entryArraySize ≤ (clientMax : Int)) :
    ObserverRuns (sh, .lockRegister) ({ sh with data := sh.data.registerObserver.2 },
      .gate sh.data.registerObserver.1 emptyEntry) := by
  obtain ⟨timerExpired, lockDetected, serverState, readerDone, readers, writers, mutex, d⟩ := sh
  obtain rfl : mutex = false := hfree
  -- the variables inside the critical section, with the data `d`
  let locked (d : ServerData) : Shared :=
    ⟨timerExpired, lockDetected, serverState, readerDone, readers, writers, true, d⟩
  let d₁ : ServerData := { d with observerCount := d.observerCount + 1 }
  let d₂ : ServerData := { d₁ with entryArraySize := d.entryArraySize + 1 }
  refine .head (b := (locked d, .loadCount)) rfl (.head rfl
    (.head (b := (locked d₁, .scanSize 0)) rfl ?_))
  cases hf : d.findFree with
  | some index =>
    simp only [registerObserver_of_free hf]
    exact (scan_free (locked d₁) hf).trans (.head rfl (.single rfl))
  | none =>
    refine (scan_full (locked d₁) hf h0 hmax).trans
      (.head rfl (.head (b := (locked d₂, .testSize)) rfl ?_))
    by_cases hroom : 1 ≤ d.entryArraySize + 1 ∧ d.entryArraySize + 1 ≤ (clientMax : Int)
    · simp only [registerObserver_of_room hf hroom]
      refine .head (b := (locked d₂, .loadIndex)) ?_ (.head (b := (locked d₂, .takeRow
        ⟨(d.entryArraySize + 1 - 1).toNat, ServerData.pred_lt_clientMax hroom⟩)) ?_
          (.head rfl (.single rfl)))
      · exact congrArg some (congrArg (Prod.mk _) (if_pos hroom.2))
      · exact dif_pos hroom
    · have hfull : ¬ d.entryArraySize + 1 ≤ (clientMax : Int) := by
        simp only at h0
        omega
      simp only [registerObserver_of_full hf hroom]
      refine .head (b := (locked d₂, .loadSizeBack)) ?_ (.head rfl (.head rfl (.head rfl
        (.head (b := (locked d, .unlockRegister none)) ?_ (.single rfl)))))
      · exact congrArg some (congrArg (Prod.mk _) (if_neg hfull))
      · simp [observerStep, locked, d₂, d₁]

/-! ## `add_entry` and `unregister_observer` -/

/-- **`add_entry`**, in state `DONE`. -/
theorem addEntry_steps {sh : Shared} (hdone : sh.serverState = .done) (index : Fin clientMax)
    (entry : UserEntry) : ObserverRuns (sh, .gate (some index) entry)
      ({ sh with data := sh.data.addEntry entry index }, .readSocket index) := by
  have hgate : observerStep sh none (.gate (some index) entry) =
      some (sh, .enter (some index) entry) := by
    simp only [observerStep, hdone, ne_eq, not_true_eq_false, if_false]
  refine .head hgate (.head rfl (.head rfl (.head rfl (.single ?_))))
  simp only [observerStep, ServerData.addEntry, Function.update_self, Function.update_idem,
    Int.add_sub_cancel]

/-- **`unregister_observer`**, with an index. -/
theorem unregisterObserver_steps (sh : Shared) (index : Fin clientMax) :
    ObserverRuns (sh, .freeRow index)
      ({ sh with data := sh.data.unregisterObserver (some index) }, .absent) := by
  have htest : observerStep sh none (.freeRow index) =
      some ({ sh with data := sh.data.setTaken index false }, .testLast index) := rfl
  refine .head htest ?_
  by_cases hlast : (index.val : Int) + 1 = sh.data.entryArraySize
  · refine .head (b := ({ sh with data := sh.data.setTaken index false }, .loadSizeDown)) ?_
      (.head rfl (.head rfl (.head rfl (.single ?_))))
    · exact congrArg some (congrArg (Prod.mk _) (if_pos hlast))
    · simp only [observerStep, ServerData.unregisterObserver, ServerData.setTaken_entryArraySize,
        hlast, ↓reduceIte]
  · refine .head (b := ({ sh with data := sh.data.setTaken index false }, .loadCountDown)) ?_
      (.head rfl (.single ?_))
    · exact congrArg some (congrArg (Prod.mk _) (if_neg hlast))
    · simp only [observerStep, ServerData.unregisterObserver, ServerData.setTaken_entryArraySize,
        hlast, ↓reduceIte]

/-! ## `sort_entry_array` -/

/-- The sorter can write any rows below the size it has read. -/
theorem writeRows_steps {n : Int} (rows : Fin clientMax → UserEntry) :
    ∀ (is : List (Fin clientMax)) (sh : Shared), (∀ i ∈ is, (i.val : Int) < n) →
    SorterRuns (sh, .sort n) ({ sh with data := { sh.data with
      entryArray := is.foldl (fun a i => Function.update a i (rows i)) sh.data.entryArray } },
      .sort n)
  | [], sh, _ => .refl
  | i :: is, sh, h => by
    let sh₁ : Shared := { sh with data := { sh.data with
      entryArray := Function.update sh.data.entryArray i (rows i) } }
    have hwrite : sorterStep sh (some (i, rows i)) false (.sort n) = some (sh₁, .sort n) :=
      if_pos (h i List.mem_cons_self)
    exact .head ⟨_, hwrite⟩
      (writeRows_steps rows is sh₁ fun j hj => h j (List.mem_cons_of_mem _ hj))

theorem foldl_update_apply (rows : Fin clientMax → UserEntry) (j : Fin clientMax) :
    ∀ (is : List (Fin clientMax)) (a : Fin clientMax → UserEntry),
    is.foldl (fun a i => Function.update a i (rows i)) a j = if j ∈ is then rows j else a j
  | [], a => by simp
  | i :: is, a => by
    rw [List.foldl_cons, foldl_update_apply rows j is]
    by_cases hj : j ∈ is
    · simp [hj]
    · by_cases hji : j = i
      · subst hji
        simp [hj]
      · simp [hj, hji]

/-- **`sort_entry_array`**: the sorter can end in every array that `qsort` may leave. -/
theorem sortEntryArray_steps {sh : Shared} {d : ServerData} (h : SortEntryArray sh.data d) :
    SorterRuns (sh, .loadArraySize) ({ sh with data := d }, .setReading) := by
  have hwrite := writeRows_steps (n := sh.data.entryArraySize) d.entryArray
    ((List.finRange clientMax).filter fun i => decide ((i.val : Int) < sh.data.entryArraySize)) sh
    (fun i hi => by simpa using hi)
  refine .head ⟨none, rfl⟩ (hwrite.trans (.single ⟨none, ?_⟩))
  obtain ⟨hcount, hsize, ⟨p, hfix, ha⟩, -⟩ := h
  have harray : ((List.finRange clientMax).filter fun i =>
      decide ((i.val : Int) < sh.data.entryArraySize)).foldl
      (fun a i => Function.update a i (d.entryArray i)) sh.data.entryArray = d.entryArray := by
    funext j
    rw [foldl_update_apply]
    split
    · rfl
    · rename_i hj
      have hge : sh.data.entryArraySize ≤ j.val := by simpa using hj
      rw [ha j, hfix j hge]
  rw [harray]
  simp only [sorterStep, ← hcount, ← hsize]

/-! ## `send_entries` -/

/-- The loop of `send_entries` from the test of `i` on, with no call in between. -/
theorem sendLoop_quiet {d : ServerData} (hmax : d.observerCount ≤ (clientMax : Int)) :
    ∀ (fuel i : ℕ), d.observerCount.toNat < i + fuel → i ≤ d.observerCount.toNat →
    sendLoop (fun _ => d) fuel i =
      some ((List.range' i (d.observerCount.toNat - i)).map d.rowString)
  | 0, i, hfuel, hi => by omega
  | fuel + 1, i, hfuel, hi => by
    unfold sendLoop
    by_cases htest : (i : Int) < d.observerCount
    · have hrow : i < clientMax := by omega
      have hrest := sendLoop_quiet hmax fuel (i + 1) (by omega) (by omega)
      rw [if_pos htest, dif_pos hrow, hrest,
        show d.observerCount.toNat - i = d.observerCount.toNat - (i + 1) + 1 by omega,
        List.range'_succ]
      simp [ServerData.rowString, hrow]
    · rw [if_neg htest, show d.observerCount.toNat - i = 0 by omega]
      rfl

/-- **`send_entries`** with no call in between sends what the calls of a quiet phase send. -/
theorem sendEntries_quiet {d : ServerData} (hmax : d.observerCount ≤ (clientMax : Int)) :
    sendEntries (fun _ => d) =
      some (d.observerCount, d.strings d.observerCount.toNat) := by
  rw [sendEntries, sendLoop_quiet hmax (clientMax + 1) 0 (by omega) (Nat.zero_le _),
    ServerData.strings, List.range_eq_range']
  rfl

end C380.Notapp
