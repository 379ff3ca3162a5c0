import Mathlib.Data.List.TakeWhile
import C380.Notapp.Calls

/-!
# The life of a refused observer (`Assignment02/server.c`, `server_data.c`)

`register_observer` gives `-1` when all `CLIENT_MAX` rows are taken. `observer_thread` and
`unregister_observer` test for it, and `add_entry`, which is called once before the loop, does not.

* `observerThread` is the whole life of one `observer_thread` while no other thread changes the
  server data, with the index of every access to `entry_array`. What a write outside the array
  changes is not defined; here it changes none of the variables.
* `observerThread_refused`: the life of a refused observer restores the counters and changes no
  row, and its accesses are the 256 rows the search looks at and two writes at index `-1`.
* `refused_not_harmless`: **so every refused observer accesses the array outside its bounds**,
  whatever the state and whatever the client sends.
* `refused_thread`: the thread of `Threads.lean` comes to the same write, and has no step there.
-/

namespace C380.Notapp

/-- What `observer_thread` works on, and the indices of `entry_array` it has accessed, in order. -/
structure ThreadLife where
  data : ServerData
  writerCount : Int
  accesses : List Int

/-- An index as `register_observer` returns it. -/
def indexValue : Option (Fin clientMax) → Int
  | some index => index.val
  | none => -1

/-- The rows whose `is_taken` the loop of `register_observer` reads. -/
def ServerData.scanned (d : ServerData) : List (Fin clientMax) :=
  let rows := (List.finRange clientMax).filter fun i => decide ((i.val : Int) < d.entryArraySize)
  rows.takeWhile (fun i => (d.entryArray i).isTaken) ++
    (rows.find? fun i => !(d.entryArray i).isTaken).toList

namespace ThreadLife

/-- `register_observer`: it reads rows, and writes the one it takes. -/
def registerObserver (s : ThreadLife) : Option (Fin clientMax) × ThreadLife :=
  let r := s.data.registerObserver
  (r.1, { s with
    data := r.2
    accesses := s.accesses ++ s.data.scanned.map (fun i => indexValue (some i)) ++
      r.1.toList.map fun i => indexValue (some i) })

/-- `add_entry`: two writes, to `tv` and to `string`, between `++writer_count` and
`--writer_count`. -/
def addEntry (s : ThreadLife) (entry : UserEntry) (index : Option (Fin clientMax)) : ThreadLife :=
  let s := { s with writerCount := s.writerCount + 1 }
  let s := { s with
    data := match index with
      | some i => s.data.addEntry entry i
      | none => s.data
    accesses := s.accesses ++ [indexValue index, indexValue index] }
  { s with writerCount := s.writerCount - 1 }

/-- `unregister_observer`, which returns at once for `-1`. -/
def unregisterObserver (s : ThreadLife) (index : Option (Fin clientMax)) : ThreadLife :=
  { s with
    data := s.data.unregisterObserver index
    accesses := s.accesses ++ index.toList.map fun i => indexValue (some i) }

end ThreadLife

/-- `observer_thread`, whose client sends the notifications of these entries and leaves. -/
def observerThread (s : ThreadLife) (messages : List UserEntry) : ThreadLife :=
  let (observerIndex, s) := s.registerObserver
  let s := s.addEntry emptyEntry observerIndex
  let s := match observerIndex with
    | some _ => messages.foldl (fun s entry => ThreadLife.addEntry s entry observerIndex) s
    | none => s
  s.unregisterObserver observerIndex

/-- `CLIENT_MAX` observers hold slots. -/
def ServerData.Full (d : ServerData) : Prop := ∀ i, (d.entryArray i).isTaken = true

/-- The life of the observer leaves everything as it was and stays inside the array. -/
def Harmless (d : ServerData) (writerCount : Int) (messages : List UserEntry) : Prop :=
  (observerThread ⟨d, writerCount, []⟩ messages).data = d ∧
    (observerThread ⟨d, writerCount, []⟩ messages).writerCount = writerCount ∧
    ∀ a ∈ (observerThread ⟨d, writerCount, []⟩ messages).accesses, 0 ≤ a ∧ a < (clientMax : Int)

section Refused

variable {d : ServerData}

/-- All rows below the size are taken only if there are `CLIENT_MAX` of them. -/
theorem CountOk.size_of_full (h : CountOk d) (hfull : d.Full) :
    d.entryArraySize = (clientMax : Int) := by
  have hle := h.size_le
  by_contra hne
  have hlt : d.entryArraySize.toNat < clientMax := by
    have := h.size_nonneg
    omega
  have hfree := h.above ⟨d.entryArraySize.toNat, hlt⟩ (Int.self_le_toNat _)
  rw [hfull] at hfree
  cases hfree

/-- A full array refuses the registration, and everything is as before. -/
theorem CountOk.registerObserver_full (h : CountOk d) (hfull : d.Full) :
    d.registerObserver = (none, d) := by
  rcases registerObserver_spec h.size_nonneg h.size_le with ⟨index, d', -, hreg⟩ | ⟨hnone, -⟩
  · have hfree := hreg.free (by rw [h.size_of_full hfull]; have := index.isLt; omega)
    rw [hfull] at hfree
    cases hfree
  · exact hnone

/-- The search looks at every row. -/
theorem CountOk.scanned_full (h : CountOk d) (hfull : d.Full) :
    d.scanned = List.finRange clientMax := by
  have hrows : ((List.finRange clientMax).filter fun i =>
      decide ((i.val : Int) < d.entryArraySize)) = List.finRange clientMax := by
    refine List.filter_eq_self.mpr fun i _ => ?_
    rw [h.size_of_full hfull]
    have := i.isLt
    exact decide_eq_true (by omega)
  have htake : (List.finRange clientMax).takeWhile (fun i => (d.entryArray i).isTaken) =
      List.finRange clientMax := List.takeWhile_eq_self_iff.mpr fun i _ => hfull i
  have hfind : (List.finRange clientMax).find? (fun i => !(d.entryArray i).isTaken) = none :=
    List.find?_eq_none.mpr fun i _ => by rw [hfull i]; exact Bool.false_ne_true
  simp only [ServerData.scanned, hrows, htake, hfind, Option.toList_none, List.append_nil]

/-- **The life of a refused observer.** -/
theorem observerThread_refused (h : CountOk d) (hfull : d.Full) (writerCount : Int)
    (messages : List UserEntry) : observerThread ⟨d, writerCount, []⟩ messages =
      ⟨d, writerCount, (List.finRange clientMax).map (fun i => (i.val : Int)) ++ [-1, -1]⟩ := by
  have hreg : ThreadLife.registerObserver ⟨d, writerCount, []⟩ = (none, ⟨d, writerCount,
      (List.finRange clientMax).map fun i => (i.val : Int)⟩) := by
    simp only [ThreadLife.registerObserver, h.registerObserver_full hfull, h.scanned_full hfull,
      Option.toList_none, List.map_nil, List.append_nil, List.nil_append]
    rfl
  have hnone : indexValue none = -1 := rfl
  simp only [observerThread, hreg, ThreadLife.addEntry, ThreadLife.unregisterObserver,
    ServerData.unregisterObserver, Int.add_sub_cancel, hnone, Option.toList_none, List.map_nil,
    List.append_nil]

theorem CountOk.not_harmless (h : CountOk d) (hfull : d.Full) (writerCount : Int)
    (messages : List UserEntry) : ¬ Harmless d writerCount messages := by
  intro hharmless
  have hmem : (-1 : Int) ∈ (observerThread ⟨d, writerCount, []⟩ messages).accesses := by
    rw [observerThread_refused h hfull writerCount messages]
    exact List.mem_append_right _ List.mem_cons_self
  have hlow := (hharmless.2.2 (-1) hmem).1
  omega

/-- **No refused observer is harmless**: each writes to `entry_array[-1]`. -/
theorem refused_not_harmless (d : ServerData) (hd : d.Reachable) (hfull : d.Full)
    (writerCount : Int) (messages : List UserEntry) : ¬ Harmless d writerCount messages :=
  hd.countOk.not_harmless hfull writerCount messages

end Refused

/-! ## The thread -/

/-- **A refused thread comes to the write at index `-1`**, with everything but `writer_count` as it
was, and has no step there. -/
theorem refused_thread {sh : Shared} (h : CountOk sh.data) (hfull : sh.data.Full)
    (hmutex : sh.registerMutex = false) (hdone : sh.serverState = .done) :
    ObserverRuns (sh, .lockRegister)
      ({ sh with writerCount := sh.writerCount + 1 }, .writeTv none emptyEntry) ∧
    ∀ input, observerStep { sh with writerCount := sh.writerCount + 1 } input
      (.writeTv none emptyEntry) = none := by
  have hregister := registerObserver_steps hmutex h.size_nonneg h.size_le
  rw [h.registerObserver_full hfull] at hregister
  have hgate : observerStep sh none (.gate none emptyEntry) =
      some (sh, .enter none emptyEntry) := by
    simp only [observerStep, hdone, ne_eq, not_true_eq_false, if_false]
  exact ⟨hregister.trans (.head hgate (.single rfl)), fun _ => rfl⟩

/-! ## A full server -/

/-- The server data after `n` registrations. -/
def registrations : ℕ → ServerData
  | 0 => emptyServerData
  | n + 1 => (registrations n).registerObserver.2

theorem registrations_reachable : ∀ n, (registrations n).Reachable
  | 0 => .empty
  | n + 1 => (registrations_reachable n).registerObserver

/-- Each registration takes the next row. -/
theorem registrations_taken : ∀ n : ℕ, n ≤ clientMax → (registrations n).entryArraySize = n ∧
    ∀ i : Fin clientMax, ((registrations n).entryArray i).isTaken = true ↔ i.val < n
  | 0, _ => ⟨rfl, fun i => iff_of_false Bool.false_ne_true (Nat.not_lt_zero _)⟩
  | n + 1, hn => by
    obtain ⟨hsize, htaken⟩ := registrations_taken n (by omega)
    have hnone : (registrations n).findFree = none := by
      refine List.find?_eq_none.mpr fun i _ hfree => ?_
      rw [Bool.and_eq_true, decide_eq_true_eq, Bool.not_eq_true', hsize] at hfree
      have hlt := (htaken i).mpr (by omega)
      rw [hfree.2] at hlt
      cases hlt
    have hroom : 1 ≤ (registrations n).entryArraySize + 1 ∧
        (registrations n).entryArraySize + 1 ≤ (clientMax : Int) := by omega
    have hnext := congrArg Prod.snd (registerObserver_of_room hnone hroom)
    rw [registrations, hnext]
    refine ⟨?_, fun i => ?_⟩
    · show (registrations n).entryArraySize + 1 = _
      rw [hsize]
      rfl
    · simp only [ServerData.setTaken, Function.update_apply]
      have hindex : i = ⟨((registrations n).entryArraySize + 1 - 1).toNat,
          ServerData.pred_lt_clientMax hroom⟩ ↔ i.val = n := by
        rw [Fin.ext_iff]
        simp only
        omega
      by_cases hi : i.val = n
      · rw [if_pos (hindex.mpr hi)]
        exact iff_of_true rfl (by omega)
      · rw [if_neg (mt hindex.mp hi), htaken i]
        omega

theorem registrations_full : (registrations clientMax).Full := fun i =>
  ((registrations_taken clientMax le_rfl).2 i).mpr i.isLt

/-- A client that sends a notification before it leaves. -/
theorem refused_not_harmless_full :
    ¬ Harmless (registrations clientMax) 0 [⟨false, ⟨1, 0⟩, "IN_OPEN "⟩] :=
  refused_not_harmless _ (registrations_reachable clientMax) registrations_full 0 _

/-- **The 257th observer**, whose client leaves without a notification. -/
theorem refused_writes_outside : (registrations clientMax).Reachable ∧
    (registrations clientMax).Full ∧ ¬ Harmless (registrations clientMax) 0 [] :=
  ⟨registrations_reachable clientMax, registrations_full,
    (registrations_reachable clientMax).countOk.not_harmless registrations_full 0 []⟩

end C380.Notapp
