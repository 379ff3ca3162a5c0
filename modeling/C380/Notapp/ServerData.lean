import Mathlib.Data.Int.Order.Basic
import Mathlib.Data.Prod.Lex
import Mathlib.Logic.Function.Basic
import C380.Lib.SortedSlots

/-!
# The observers' part of the server data (`Assignment02/server_data.c`)

The static variables `observer_count`, `entry_array_size` and `entry_array`, and the four functions
that change them, each as one call: `register_observer`, `add_entry` (what it writes once it has
passed its wait for `DONE`), `sort_entry_array` and `unregister_observer`.

* An index is a position of `entry_array`; `register_observer` gives `none` for `-1`.
* The order `qsort` gives to rows that compare equal is unspecified, so `sort_entry_array` is a
  relation: any permutation of the first `entry_array_size` rows that is sorted by
  `sort_entry_array_comp`.
-/

namespace C380.Notapp

/-- `CLIENT_MAX`. -/
abbrev clientMax : Nat := 256

/-- `struct timeval`. -/
structure Timeval where
  tvSec : Int
  tvUsec : Int
  deriving DecidableEq, Repr

/-- `struct user_entry`. -/
structure UserEntry where
  isTaken : Bool
  tv : Timeval
  string : String
  deriving DecidableEq, Repr

/-- A row of the zero-initialised array. -/
def emptyEntry : UserEntry := ⟨false, ⟨0, 0⟩, ""⟩

/-- `observer_count`, `entry_array_size` and `entry_array`. -/
structure ServerData where
  observerCount : Int
  entryArraySize : Int
  entryArray : Fin clientMax → UserEntry

/-- The static initialisers. -/
def emptyServerData : ServerData := ⟨0, 0, fun _ => emptyEntry⟩

namespace ServerData

/-- `entry_array[index].is_taken = taken`. -/
def setTaken (d : ServerData) (index : Fin clientMax) (taken : Bool) : ServerData :=
  { d with
    entryArray := Function.update d.entryArray index
      { d.entryArray index with isTaken := taken } }

@[simp] theorem setTaken_entryArraySize (d : ServerData) (index : Fin clientMax) (taken : Bool) :
    (d.setTaken index taken).entryArraySize = d.entryArraySize := rfl

@[simp] theorem setTaken_observerCount (d : ServerData) (index : Fin clientMax) (taken : Bool) :
    (d.setTaken index taken).observerCount = d.observerCount := rfl

/-- The loop of `register_observer`: the first free row below `entry_array_size`. -/
def findFree (d : ServerData) : Option (Fin clientMax) :=
  (List.finRange clientMax).find? fun i =>
    decide ((i.val : Int) < d.entryArraySize) && !(d.entryArray i).isTaken

theorem pred_lt_clientMax {n : Int} (h : 1 ≤ n ∧ n ≤ (clientMax : Int)) :
    (n - 1).toNat < clientMax := by
  omega

/-- `register_observer`. The size is never negative. -/
def registerObserver (d : ServerData) : Option (Fin clientMax) × ServerData :=
  let d : ServerData := { d with observerCount := d.observerCount + 1 }
  match d.findFree with
  | some index => (some index, d.setTaken index true)
  | none =>
    let d : ServerData := { d with entryArraySize := d.entryArraySize + 1 }
    if h : 1 ≤ d.entryArraySize ∧ d.entryArraySize ≤ (clientMax : Int) then
      let index := ⟨(d.entryArraySize - 1).toNat, pred_lt_clientMax h⟩
      (some index, d.setTaken index true)
    else
      (none, { d with
        entryArraySize := d.entryArraySize - 1
        observerCount := d.observerCount - 1 })

/-- `unregister_observer`. -/
def unregisterObserver (d : ServerData) : Option (Fin clientMax) → ServerData
  | none => d
  | some index =>
    let d := d.setTaken index false
    let d : ServerData := if (index.val : Int) + 1 = d.entryArraySize then
      { d with entryArraySize := d.entryArraySize - 1 } else d
    { d with observerCount := d.observerCount - 1 }

/-- The two writes of `add_entry`. -/
def addEntry (d : ServerData) (entry : UserEntry) (index : Fin clientMax) : ServerData :=
  { d with
    entryArray := Function.update d.entryArray index
      { d.entryArray index with tv := entry.tv, string := entry.string } }

end ServerData

/-- `sort_entry_array_comp`. -/
def sortEntryArrayComp (entry1 entry2 : UserEntry) : Int :=
  if entry1.tv.tvSec > entry2.tv.tvSec then -1
  else if entry1.tv.tvSec < entry2.tv.tvSec then 1
  else if entry1.tv.tvUsec > entry2.tv.tvUsec then -1
  else if entry1.tv.tvUsec < entry2.tv.tvUsec then 1
  else 0

/-- `sort_entry_array`, whatever order `qsort` gives to rows that compare equal. -/
structure SortEntryArray (d d' : ServerData) : Prop where
  observerCount : d'.observerCount = d.observerCount
  entryArraySize : d'.entryArraySize = d.entryArraySize
  perm : ∃ p : Equiv.Perm (Fin clientMax),
    (∀ i, d.entryArraySize ≤ i.val → p i = i) ∧ ∀ i, d'.entryArray i = d.entryArray (p i)
  sorted : ∀ i j, i < j → (j.val : Int) < d.entryArraySize →
    sortEntryArrayComp (d'.entryArray i) (d'.entryArray j) ≤ 0

/-! ## The order of the rows -/

/-- The order of `sort_entry_array_comp` as a linear order: latest time first. -/
def UserEntry.rank (e : UserEntry) : (Int ×ₗ Int)ᵒᵈ :=
  OrderDual.toDual (toLex (e.tv.tvSec, e.tv.tvUsec))

theorem UserEntry.rank_lt {e f : UserEntry} : e.rank < f.rank ↔ sortEntryArrayComp e f < 0 := by
  simp only [rank, OrderDual.toDual_lt_toDual, Prod.Lex.toLex_lt_toLex, sortEntryArrayComp]
  split_ifs <;> omega

theorem UserEntry.rank_le {e f : UserEntry} : e.rank ≤ f.rank ↔ sortEntryArrayComp e f ≤ 0 := by
  simp only [rank, OrderDual.toDual_le_toDual, Prod.Lex.toLex_le_toLex, sortEntryArrayComp]
  split_ifs <;> omega

/-- `sort_entry_array` sorts the first `entry_array_size` rows by rank. -/
theorem SortEntryArray.sortsTo {d d' : ServerData} (h : SortEntryArray d d') :
    SortedSlots.SortsTo UserEntry.rank d.entryArraySize.toNat d.entryArray d'.entryArray := by
  obtain ⟨-, -, ⟨p, hfix, ha⟩, hsorted⟩ := h
  exact ⟨⟨p, fun i hi => hfix i (by omega), ha⟩,
    fun i j hij hj => UserEntry.rank_le.mpr (hsorted i j hij (by omega))⟩

/-! ## Registration -/

section Register

variable {d : ServerData}

theorem findFree_some {index : Fin clientMax} (h : d.findFree = some index) :
    (index.val : Int) < d.entryArraySize ∧ (d.entryArray index).isTaken = false := by
  have := List.find?_some h
  simpa using this

theorem findFree_none (h : d.findFree = none) {i : Fin clientMax}
    (hi : (i.val : Int) < d.entryArraySize) : (d.entryArray i).isTaken = true := by
  have := List.find?_eq_none.mp h i (List.mem_finRange i)
  simpa [hi] using this

/-- A row is free. -/
theorem registerObserver_of_free {index : Fin clientMax} (h : d.findFree = some index) :
    d.registerObserver =
      (some index, { d with observerCount := d.observerCount + 1 }.setTaken index true) := by
  have hsame : ServerData.findFree { d with observerCount := d.observerCount + 1 } = some index := h
  simp only [ServerData.registerObserver, hsame]

/-- No row is free, and the array can grow. -/
theorem registerObserver_of_room (h : d.findFree = none)
    (hroom : 1 ≤ d.entryArraySize + 1 ∧ d.entryArraySize + 1 ≤ (clientMax : Int)) :
    d.registerObserver =
      (some ⟨(d.entryArraySize + 1 - 1).toNat, ServerData.pred_lt_clientMax hroom⟩, { d with
        observerCount := d.observerCount + 1
        entryArraySize := d.entryArraySize + 1 }.setTaken
          ⟨(d.entryArraySize + 1 - 1).toNat, ServerData.pred_lt_clientMax hroom⟩ true) := by
  have hsame : ServerData.findFree { d with observerCount := d.observerCount + 1 } = none := h
  simp only [ServerData.registerObserver, hsame, dif_pos hroom]

/-- No row is free, and the array is full: everything is as before. -/
theorem registerObserver_of_full (h : d.findFree = none)
    (hfull : ¬ (1 ≤ d.entryArraySize + 1 ∧ d.entryArraySize + 1 ≤ (clientMax : Int))) :
    d.registerObserver = (none, d) := by
  have hsame : ServerData.findFree { d with observerCount := d.observerCount + 1 } = none := h
  simp only [ServerData.registerObserver, hsame, dif_neg hfull, Int.add_sub_cancel]

/-- What a successful registration does: a row that was free, below the new size, is taken. -/
structure Registered (d : ServerData) (index : Fin clientMax) (d' : ServerData) : Prop where
  free : (index.val : Int) < d.entryArraySize → (d.entryArray index).isTaken = false
  size : d'.entryArraySize = max d.entryArraySize (index.val + 1)
  array : d'.entryArray = Function.update d.entryArray index
    { d.entryArray index with isTaken := true }
  count : d'.observerCount = d.observerCount + 1

/-- **`register_observer` takes a free row**, or finds all `CLIENT_MAX` rows taken and changes
nothing. -/
theorem registerObserver_spec (h0 : 0 ≤ d.entryArraySize)
    (h : d.entryArraySize ≤ (clientMax : Int)) :
    (∃ index d', d.registerObserver = (some index, d') ∧ Registered d index d') ∨
      (d.registerObserver = (none, d) ∧ ∀ i, (d.entryArray i).isTaken = true) := by
  cases hf : d.findFree with
  | some index =>
    obtain ⟨hlt, hfree⟩ := findFree_some hf
    refine Or.inl ⟨index, _, registerObserver_of_free hf, fun _ => hfree, ?_, rfl, rfl⟩
    show d.entryArraySize = _
    omega
  | none =>
    by_cases hroom : 1 ≤ d.entryArraySize + 1 ∧ d.entryArraySize + 1 ≤ (clientMax : Int)
    · refine Or.inl ⟨_, _, registerObserver_of_room hf hroom, fun hlt => ?_, ?_, rfl, rfl⟩
      · simp only at hlt
        omega
      · show d.entryArraySize + 1 = _
        simp only
        omega
    · refine Or.inr ⟨registerObserver_of_full hf hroom, fun i => findFree_none hf ?_⟩
      have := i.isLt
      omega

theorem unregisterObserver_entryArray (d : ServerData) (index : Fin clientMax) :
    (d.unregisterObserver (some index)).entryArray = Function.update d.entryArray index
      { d.entryArray index with isTaken := false } := by
  simp only [ServerData.unregisterObserver]
  split <;> rfl

theorem unregisterObserver_entryArraySize (d : ServerData) (index : Fin clientMax) :
    (d.unregisterObserver (some index)).entryArraySize =
      if (index.val : Int) + 1 = d.entryArraySize then d.entryArraySize - 1
      else d.entryArraySize := by
  by_cases h : (index.val : Int) + 1 = d.entryArraySize <;>
    simp [ServerData.unregisterObserver, h]

end Register

end C380.Notapp
