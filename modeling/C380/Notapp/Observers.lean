import Mathlib.Data.Set.Card
import C380.Lib.Transition
import C380.Notapp.ServerData

/-!
# Who owns a row of the entry array

Any number of observers call `register_observer`, `add_entry` with the index they were given, and
`unregister_observer`, with `sort_entry_array` in between, in any order. `SlotOwnership` says that
no two live observers hold one index and that each keeps its most recent entry in a taken row.

The indices are handed out once, and `sort_entry_array` moves the rows under them:

* `slotOwnership_lost`: two observers, an entry each, one sort, and the next entry of the first
  observer overwrites the entry of the second.
* `slotOwnership_of_inPlace`: **ownership holds in every run whose sorts find the row of each live
  observer in place** (`RowInPlace`): no row that is older comes before it, none that is newer
  after it, and a row of the same time is the same row. `SlotsOk.sortEntryArray` is where this is
  used; the other three calls keep the invariant unconditionally.
-/

namespace C380.Notapp

open Transition

/-- A live observer: the index `register_observer` gave it and the last entry it added. -/
structure Observer where
  index : Option (Fin clientMax)
  last : Option UserEntry

/-- The server data and the live observers. -/
structure Slots (ι : Type) where
  data : ServerData
  live : ι → Option Observer

/-- The calls of `observer_thread` and `output_sorter` that touch the entry array. -/
inductive Call (ι : Type) where
  | registerObserver (o : ι)
  | addEntry (o : ι) (entry : UserEntry)
  | sortEntryArray
  | unregisterObserver (o : ι)

variable {ι : Type} [DecidableEq ι] {s s' : Slots ι}

/-- The live observers. -/
def Slots.liveSet (s : Slots ι) : Set ι := {o | s.live o ≠ none}

/-- One call. At most `CLIENT_MAX` observers are live, and an observer without an index adds no
entry. -/
inductive CallStep : Slots ι → Call ι → Slots ι → Prop
  | registerObserver {s : Slots ι} (o : ι) (hnew : s.live o = none)
      (hroom : s.liveSet.encard < clientMax) :
      CallStep s (.registerObserver o) ⟨s.data.registerObserver.2,
        Function.update s.live o (some ⟨s.data.registerObserver.1, none⟩)⟩
  | addEntry {s : Slots ι} (o : ι) (entry : UserEntry) (index : Fin clientMax)
      (last : Option UserEntry) (hlive : s.live o = some ⟨some index, last⟩) :
      CallStep s (.addEntry o entry) ⟨s.data.addEntry entry index,
        Function.update s.live o (some ⟨some index, some entry⟩)⟩
  | sortEntryArray {s : Slots ι} (data : ServerData) (hsort : SortEntryArray s.data data) :
      CallStep s .sortEntryArray ⟨data, s.live⟩
  | unregisterObserver {s : Slots ι} (o : ι) (x : Observer) (hlive : s.live o = some x) :
      CallStep s (.unregisterObserver o) ⟨s.data.unregisterObserver x.index,
        Function.update s.live o none⟩

/-- No observer is live and the server data is empty. -/
def Slots.init : Slots ι := ⟨emptyServerData, fun _ => none⟩

/-- A row holds an entry. -/
def UserEntry.Holds (row entry : UserEntry) : Prop :=
  row.tv = entry.tv ∧ row.string = entry.string

/-- **Ownership**: different live observers hold different indices, and the most recent entry of
each is in a taken row below `entry_array_size`. -/
structure SlotOwnership (s : Slots ι) : Prop where
  distinct : ∀ o o' x x', s.live o = some x → s.live o' = some x' → x.index = x'.index → o = o'
  stored : ∀ o x entry, s.live o = some x → x.last = some entry →
    ∃ i : Fin clientMax, (i.val : Int) < s.data.entryArraySize ∧
      (s.data.entryArray i).isTaken = true ∧ (s.data.entryArray i).Holds entry

/-- Row `i` is in place: every other row below `entry_array_size` is the same row, or strictly
before or after it in the order of `sort_entry_array_comp` where it stands. -/
def RowInPlace (d : ServerData) (i : Fin clientMax) : Prop :=
  ∀ j : Fin clientMax, (j.val : Int) < d.entryArraySize →
    d.entryArray j = d.entryArray i ∨
      (j < i ∧ sortEntryArrayComp (d.entryArray j) (d.entryArray i) < 0) ∨
      (i < j ∧ sortEntryArrayComp (d.entryArray i) (d.entryArray j) < 0)

/-- A sort is called only when the row of every live observer is in place. -/
def SortsInPlace (s : Slots ι) : Call ι → Prop
  | .sortEntryArray => ∀ o x i, s.live o = some x → x.index = some i → RowInPlace s.data i
  | _ => True

/-! ## The invariant -/

/-- The taken rows are the rows of the live observers, one each, and hold their entries. -/
structure SlotsOk (s : Slots ι) : Prop where
  size_nonneg : 0 ≤ s.data.entryArraySize
  size_le : s.data.entryArraySize ≤ (clientMax : Int)
  index : ∀ o x, s.live o = some x → ∃ i : Fin clientMax, x.index = some i ∧
    (i.val : Int) < s.data.entryArraySize ∧ (s.data.entryArray i).isTaken = true
  distinct : ∀ o o' x x', s.live o = some x → s.live o' = some x' → x.index = x'.index → o = o'
  owned : ∀ i, (s.data.entryArray i).isTaken = true → ∃ o x, s.live o = some x ∧ x.index = some i
  stored : ∀ o x i entry, s.live o = some x → x.index = some i → x.last = some entry →
    (s.data.entryArray i).Holds entry

omit [DecidableEq ι] in
theorem slotsOk_init : SlotsOk (Slots.init : Slots ι) := by
  refine ⟨le_rfl, Int.natCast_nonneg _, ?_, ?_, ?_, ?_⟩
  · intro o x h
    cases h
  · intro o o' x x' h
    cases h
  · intro i h
    cases h
  · intro o x i entry h
    cases h

omit [DecidableEq ι] in
theorem SlotsOk.slotOwnership (h : SlotsOk s) : SlotOwnership s := by
  refine ⟨h.distinct, fun o x entry hlive hlast => ?_⟩
  obtain ⟨i, hi, hsize, htaken⟩ := h.index o x hlive
  exact ⟨i, hsize, htaken, h.stored o x i entry hlive hi hlast⟩

omit [DecidableEq ι] in
/-- With room for one more observer, some row is free. -/
theorem SlotsOk.exists_free (h : SlotsOk s) (hroom : s.liveSet.encard < clientMax) :
    ∃ i, (s.data.entryArray i).isTaken = false := by
  by_contra hall
  have htaken : ∀ i, (s.data.entryArray i).isTaken = true := fun i => by
    by_contra hi
    exact hall ⟨i, Bool.eq_false_iff.mpr hi⟩
  choose owner x hlive hindex using fun i => h.owned i (htaken i)
  have hinj : Function.Injective owner := by
    intro i j hij
    have hx : x i = x j := Option.some.inj ((hlive i).symm.trans (hij ▸ hlive j))
    exact Option.some.inj ((hindex i).symm.trans (hx ▸ hindex j))
  have hsub : Set.range owner ⊆ s.liveSet := by
    rintro o ⟨i, rfl⟩
    unfold Slots.liveSet
    rw [Set.mem_ofPred_eq, hlive i]
    exact Option.some_ne_none _
  have hle := hinj.encard_range.trans (Set.encard_le_encard hsub)
  rw [ENat.card_eq_coe_fintype_card, Fintype.card_fin] at hle
  exact absurd hroom (not_lt.mpr hle)

/-- One observer changes: a live observer afterwards is that one or an unchanged one. -/
theorem update_live {live : ι → Option Observer} {o o' : ι} {new : Option Observer} {x : Observer}
    (h : Function.update live o new o' = some x) :
    (o' = o ∧ new = some x) ∨ (o' ≠ o ∧ live o' = some x) := by
  by_cases ho : o' = o
  · subst ho
    rw [Function.update_self] at h
    exact Or.inl ⟨rfl, h⟩
  · rw [Function.update_of_ne ho] at h
    exact Or.inr ⟨ho, h⟩

/-- **`register_observer` hands out a row that no live observer holds.** -/
theorem SlotsOk.registerObserver (h : SlotsOk s) {o : ι} (hnew : s.live o = none)
    (hroom : s.liveSet.encard < clientMax) :
    SlotsOk ⟨s.data.registerObserver.2,
      Function.update s.live o (some ⟨s.data.registerObserver.1, none⟩)⟩ := by
  rcases registerObserver_spec h.size_nonneg h.size_le with ⟨index, d', heq, hreg⟩ | ⟨-, hfull⟩
  · rw [heq]
    obtain ⟨hfree, hsize, harray, -⟩ := hreg
    have hbound := index.isLt
    have hrow : ∀ i, i ≠ index → d'.entryArray i = s.data.entryArray i := fun i hi => by
      rw [harray, Function.update_of_ne hi]
    have hself : (d'.entryArray index).isTaken = true := by rw [harray, Function.update_self]
    -- no live observer holds the new index
    have hne : ∀ o' x i, s.live o' = some x → x.index = some i → i ≠ index := by
      rintro o' x i hlive hi rfl
      obtain ⟨j, hj, hlt, htaken⟩ := h.index o' x hlive
      obtain rfl : i = j := Option.some.inj (hi.symm.trans hj)
      rw [hfree hlt] at htaken
      cases htaken
    have hsize0 := h.size_nonneg
    have hsize1 := h.size_le
    refine ⟨by simp only; omega, by simp only; omega, ?_, ?_, ?_, ?_⟩
    · intro o' x hlive
      rcases update_live hlive with ⟨rfl, hx⟩ | ⟨-, hlive⟩
      · cases hx
        exact ⟨index, rfl, by simp only; omega, hself⟩
      · obtain ⟨i, hi, hlt, htaken⟩ := h.index o' x hlive
        refine ⟨i, hi, by simp only; omega, ?_⟩
        rw [hrow i (hne o' x i hlive hi)]
        exact htaken
    · intro o₁ o₂ x₁ x₂ h₁ h₂ hindex
      rcases update_live h₁ with ⟨ho₁, hx₁⟩ | ⟨-, hl₁⟩ <;>
        rcases update_live h₂ with ⟨ho₂, hx₂⟩ | ⟨-, hl₂⟩
      · exact ho₁.trans ho₂.symm
      · cases hx₁
        exact absurd rfl (hne o₂ x₂ index hl₂ hindex.symm)
      · cases hx₂
        exact absurd rfl (hne o₁ x₁ index hl₁ hindex)
      · exact h.distinct o₁ o₂ x₁ x₂ hl₁ hl₂ hindex
    · intro i hi
      by_cases hidx : i = index
      · subst hidx
        exact ⟨o, _, Function.update_self _ _ _, rfl⟩
      · simp only [hrow i hidx] at hi
        obtain ⟨o', x, hlive, hx⟩ := h.owned i hi
        refine ⟨o', x, (Function.update_of_ne ?_ _ _).trans hlive, hx⟩
        rintro rfl
        rw [hnew] at hlive
        cases hlive
    · intro o' x i entry hlive hi hlast
      rcases update_live hlive with ⟨rfl, hx⟩ | ⟨-, hlive⟩
      · cases hx
        cases hlast
      · simp only [hrow i (hne o' x i hlive hi)]
        exact h.stored o' x i entry hlive hi hlast
  · obtain ⟨i, hi⟩ := h.exists_free hroom
    rw [hfull i] at hi
    cases hi

/-- **`add_entry` writes the row of its observer** and no other. -/
theorem SlotsOk.addEntry (h : SlotsOk s) {o : ι} (entry : UserEntry) {index : Fin clientMax}
    {last : Option UserEntry} (hlive : s.live o = some ⟨some index, last⟩) :
    SlotsOk ⟨s.data.addEntry entry index,
      Function.update s.live o (some ⟨some index, some entry⟩)⟩ := by
  have hrow : ∀ i, i ≠ index →
      (s.data.addEntry entry index).entryArray i = s.data.entryArray i := fun i hi =>
    Function.update_of_ne hi _ _
  have hself : (s.data.addEntry entry index).entryArray index =
      { s.data.entryArray index with tv := entry.tv, string := entry.string } :=
    Function.update_self _ _ _
  have htaken_eq : ∀ i, ((s.data.addEntry entry index).entryArray i).isTaken =
      (s.data.entryArray i).isTaken := by
    intro i
    by_cases hi : i = index
    · rw [hi, hself]
    · rw [hrow i hi]
  -- the observers and their indices are the same as before
  have hback : ∀ o' x, Function.update s.live o (some ⟨some index, some entry⟩) o' = some x →
      ∃ x₀, s.live o' = some x₀ ∧ x₀.index = x.index := by
    intro o' x hx
    rcases update_live hx with ⟨rfl, hnew⟩ | ⟨-, hold⟩
    · cases hnew
      exact ⟨_, hlive, rfl⟩
    · exact ⟨x, hold, rfl⟩
  refine ⟨h.size_nonneg, h.size_le, ?_, ?_, ?_, ?_⟩
  · intro o' x hx
    obtain ⟨x₀, hx₀, hidx⟩ := hback o' x hx
    obtain ⟨i, hi, hlt, htaken⟩ := h.index o' x₀ hx₀
    exact ⟨i, hidx ▸ hi, hlt, (htaken_eq i).trans htaken⟩
  · intro o₁ o₂ x₁ x₂ h₁ h₂ hindex
    obtain ⟨y₁, hy₁, hi₁⟩ := hback o₁ x₁ h₁
    obtain ⟨y₂, hy₂, hi₂⟩ := hback o₂ x₂ h₂
    exact h.distinct o₁ o₂ y₁ y₂ hy₁ hy₂ (hi₁.trans (hindex.trans hi₂.symm))
  · intro i hi
    obtain ⟨o', x, hx, hidx⟩ := h.owned i ((htaken_eq i).symm.trans hi)
    by_cases ho : o' = o
    · subst ho
      obtain rfl : x = ⟨some index, last⟩ := Option.some.inj (hx.symm.trans hlive)
      exact ⟨o', _, Function.update_self _ _ _, hidx⟩
    · exact ⟨o', x, (Function.update_of_ne ho _ _).trans hx, hidx⟩
  · intro o' x i e hx hi hlast
    rcases update_live hx with ⟨-, hnew⟩ | ⟨ho, hold⟩
    · cases hnew
      cases hi
      cases hlast
      simp only [hself]
      exact ⟨rfl, rfl⟩
    · have hne : i ≠ index := by
        rintro rfl
        exact ho (h.distinct o' o x _ hold hlive hi)
      simp only [hrow i hne]
      exact h.stored o' x i e hold hi hlast

theorem rowInPlace_inPlace {d : ServerData} {i : Fin clientMax} (h : RowInPlace d i) :
    SortedSlots.InPlace UserEntry.rank d.entryArraySize.toNat d.entryArray i := by
  intro j hj
  simp only [UserEntry.rank_lt]
  exact h j (by omega)

omit [DecidableEq ι] in
/-- **A sort that finds the rows of the live observers in place leaves them there.** -/
theorem SlotsOk.sortEntryArray (h : SlotsOk s) {data : ServerData}
    (hsort : SortEntryArray s.data data) (hplace : SortsInPlace s .sortEntryArray) :
    SlotsOk ⟨data, s.live⟩ := by
  have hstay : ∀ o x i, s.live o = some x → x.index = some i →
      data.entryArray i = s.data.entryArray i := by
    intro o x i hlive hi
    obtain ⟨j, hj, hlt, -⟩ := h.index o x hlive
    obtain rfl : i = j := Option.some.inj (hi.symm.trans hj)
    exact (rowInPlace_inPlace (hplace o x i hlive hi)).eq hsort.sortsTo (by omega)
  refine ⟨hsort.entryArraySize ▸ h.size_nonneg, hsort.entryArraySize ▸ h.size_le, ?_, h.distinct,
    ?_, ?_⟩
  · intro o x hlive
    obtain ⟨i, hi, hlt, htaken⟩ := h.index o x hlive
    exact ⟨i, hi, hsort.entryArraySize ▸ hlt, (hstay o x i hlive hi) ▸ htaken⟩
  · intro i hi
    refine h.owned i (hsort.sortsTo.of_stay (fun e => e.isTaken = true) (fun j hj => ?_) i hi)
    obtain ⟨o, x, hlive, hj⟩ := h.owned j hj
    exact hstay o x j hlive hj
  · intro o x i entry hlive hi hlast
    simp only [hstay o x i hlive hi]
    exact h.stored o x i entry hlive hi hlast

/-- **`unregister_observer` frees the row of its observer.** -/
theorem SlotsOk.unregisterObserver (h : SlotsOk s) {o : ι} {x : Observer}
    (hlive : s.live o = some x) :
    SlotsOk ⟨s.data.unregisterObserver x.index, Function.update s.live o none⟩ := by
  obtain ⟨index, hindex, hlt, htaken⟩ := h.index o x hlive
  have hsize0 := h.size_nonneg
  have hsize1 := h.size_le
  rw [hindex]
  set d' := s.data.unregisterObserver (some index) with hd'
  have harray := unregisterObserver_entryArray s.data index
  have hsize := unregisterObserver_entryArraySize s.data index
  rw [← hd'] at harray hsize
  have hrow : ∀ i, i ≠ index → d'.entryArray i = s.data.entryArray i := fun i hi => by
    rw [harray, Function.update_of_ne hi]
  have hself : (d'.entryArray index).isTaken = false := by rw [harray, Function.update_self]
  have hback : ∀ o' x', Function.update s.live o none o' = some x' →
      s.live o' = some x' ∧ ∀ i, x'.index = some i → i ≠ index := by
    intro o' x' hx'
    rcases update_live hx' with ⟨-, hx'⟩ | ⟨ho, hx'⟩
    · cases hx'
    · refine ⟨hx', ?_⟩
      rintro i hi rfl
      exact ho (h.distinct o' o x' x hx' hlive (hi.trans hindex.symm))
  refine ⟨by simp only; split at hsize <;> omega, by simp only; split at hsize <;> omega,
    ?_, ?_, ?_, ?_⟩
  · intro o' x' hx'
    obtain ⟨hx', hne⟩ := hback o' x' hx'
    obtain ⟨i, hi, hlt', htaken'⟩ := h.index o' x' hx'
    have hval : i.val ≠ index.val := fun he => hne i hi (Fin.ext he)
    refine ⟨i, hi, ?_, by rw [hrow i (hne i hi)]; exact htaken'⟩
    simp only
    split at hsize <;> omega
  · intro o₁ o₂ x₁ x₂ h₁ h₂ hidx
    exact h.distinct o₁ o₂ x₁ x₂ (hback o₁ x₁ h₁).1 (hback o₂ x₂ h₂).1 hidx
  · intro i hi
    have hne : i ≠ index := by
      rintro rfl
      rw [hself] at hi
      cases hi
    simp only [hrow i hne] at hi
    obtain ⟨o', x', hx', hidx⟩ := h.owned i hi
    refine ⟨o', x', (Function.update_of_ne ?_ _ _).trans hx', hidx⟩
    rintro rfl
    obtain rfl : x' = x := Option.some.inj (hx'.symm.trans hlive)
    exact hne (Option.some.inj (hidx.symm.trans hindex))
  · intro o' x' i entry hx' hi hlast
    obtain ⟨hx', hne⟩ := hback o' x' hx'
    simp only [hrow i (hne i hi)]
    exact h.stored o' x' i entry hx' hi hlast

/-- Every call that `SortsInPlace` allows keeps the invariant. -/
theorem SlotsOk.step {a : Call ι} (h : SlotsOk s) (hg : SortsInPlace s a) (hs : CallStep s a s') :
    SlotsOk s' := by
  cases hs with
  | registerObserver o hnew hroom => exact h.registerObserver hnew hroom
  | addEntry o entry index last hlive => exact h.addEntry entry hlive
  | sortEntryArray data hsort => exact h.sortEntryArray hsort hg
  | unregisterObserver o x hlive => exact h.unregisterObserver hlive

/-- **Slot ownership** in every state of every run whose sorts find the rows of the live observers
in place. -/
theorem slotOwnership_of_inPlace (s : Slots ι) (h : Reach CallStep SortsInPlace Slots.init s) :
    SlotOwnership s :=
  (Reach.invariant slotsOk_init (fun _ _ _ hok hg hs => hok.step hg hs) h).slotOwnership

omit [DecidableEq ι] in
/-- The live observers are among finitely many. -/
theorem liveSet_encard_lt (T : Finset ι) (h : ∀ o, s.live o ≠ none → o ∈ T)
    (hT : T.card < clientMax) : s.liveSet.encard < clientMax := by
  have hle : s.liveSet.encard ≤ (T : Set ι).encard := Set.encard_le_encard fun o ho => h o ho
  rw [Set.encard_coe_eq_coe_finsetCard] at hle
  exact hle.trans_lt (Nat.cast_lt.mpr hT)

/-- An entry of second `n`. -/
def entryAt (n : Int) (string : String) : UserEntry := ⟨false, ⟨n, 0⟩, string⟩

/-- Two observers with an entry each. -/
def twoEntries : ServerData :=
  ((emptyServerData.registerObserver.2.registerObserver.2.addEntry (entryAt 1 "a") 0).addEntry
    (entryAt 2 "b") 1)

/-- The same after the sort: the later entry is in row 0. -/
def twoEntriesSorted : ServerData :=
  { twoEntries with entryArray := fun i => twoEntries.entryArray (Equiv.swap 0 1 i) }

/-- A third observer has added the latest entry, and the first one has left. -/
def firstLeft : ServerData :=
  (twoEntries.registerObserver.2.addEntry (entryAt 3 "c") 2).unregisterObserver (some 0)

/-- The same after the sort: the free row is the last one. -/
def firstLeftSorted : ServerData :=
  { firstLeft with entryArray := fun i => firstLeft.entryArray (Equiv.swap 0 2 i) }

/-- The first two positions. -/
theorem eq_zero_or_one {i : Fin clientMax} (h : (i.val : Int) < 2) : i = 0 ∨ i = 1 := by
  rcases Nat.lt_or_ge i.val 1 with hlt | hge
  · exact Or.inl (Fin.ext (by simp only [Fin.val_zero]; omega))
  · exact Or.inr (Fin.ext (by simp only [Fin.val_one]; omega))

/-- Rows are sorted when the first `n` are. -/
theorem sorted_of_fin {n : ℕ} (hn : n ≤ clientMax) {rows : Fin clientMax → UserEntry}
    (h : ∀ i j : Fin n, i < j →
      sortEntryArrayComp (rows (i.castLE hn)) (rows (j.castLE hn)) ≤ 0) {i j : Fin clientMax}
    (hij : i < j) (hj : (j.val : Int) < n) : sortEntryArrayComp (rows i) (rows j) ≤ 0 := by
  have hj : j.val < n := Int.ofNat_lt.mp hj
  exact h ⟨i.val, lt_trans (Fin.lt_def.mp hij) hj⟩ ⟨j.val, hj⟩ hij

/-- A sort that leaves the first `n` rows where they are. -/
theorem sortEntryArray_refl {d : ServerData} {n : ℕ} (hn : n ≤ clientMax)
    (hsize : d.entryArraySize = n) (h : ∀ i j : Fin n, i < j →
      sortEntryArrayComp (d.entryArray (i.castLE hn)) (d.entryArray (j.castLE hn)) ≤ 0) :
    SortEntryArray d d :=
  ⟨rfl, rfl, ⟨1, fun _ _ => rfl, fun _ => rfl⟩,
    fun _ _ hij hj => sorted_of_fin hn h hij (hsize ▸ hj)⟩

/-- A sort that exchanges two of the first `n` rows. -/
theorem sortEntryArray_swap {d : ServerData} {n : ℕ} (hn : n ≤ clientMax)
    (hsize : d.entryArraySize = n) (a b : Fin n) {rows : Fin clientMax → UserEntry}
    (hrows : rows = fun i => d.entryArray (Equiv.swap (a.castLE hn) (b.castLE hn) i))
    (h : ∀ i j : Fin n, i < j →
      sortEntryArrayComp (rows (i.castLE hn)) (rows (j.castLE hn)) ≤ 0) :
    SortEntryArray d { d with entryArray := rows } := by
  refine ⟨rfl, rfl, ⟨Equiv.swap (a.castLE hn) (b.castLE hn), fun i hi => ?_, congrFun hrows⟩,
    fun _ _ hij hj => sorted_of_fin hn h hij (hsize ▸ hj)⟩
  have hbound : n ≤ i.val := by omega
  refine Equiv.swap_apply_of_ne_of_ne ?_ ?_
  · rintro rfl
    exact absurd a.isLt (not_lt.mpr hbound)
  · rintro rfl
    exact absurd b.isLt (not_lt.mpr hbound)

/-- Two observers with an entry each, the later one in row 0. -/
def inOrder : ServerData :=
  ((emptyServerData.registerObserver.2.registerObserver.2.addEntry (entryAt 2 "a") 0).addEntry
    (entryAt 1 "b") 1)

/-- Their rows are in place. -/
theorem rowInPlace_inOrder {i : Fin clientMax} (hi : (i.val : Int) < 2) : RowInPlace inOrder i := by
  intro j hj
  rcases eq_zero_or_one hi with rfl | rfl <;> rcases eq_zero_or_one hj with rfl | rfl
  · exact Or.inl rfl
  · exact Or.inr (Or.inr ⟨by decide, by decide⟩)
  · exact Or.inr (Or.inl ⟨by decide, by decide⟩)
  · exact Or.inl rfl

/-- Two observers have registered. -/
def twoRegistered : Slots ℕ :=
  ⟨emptyServerData.registerObserver.2.registerObserver.2, Function.update (Function.update
    (fun _ => none) 0 (some ⟨some 0, none⟩)) 1 (some ⟨some 1, none⟩)⟩

theorem reach_twoRegistered : Reach CallStep SortsInPlace Slots.init twoRegistered := by
  refine .step (.registerObserver 1) (.step (.registerObserver 0) .init trivial
    (.registerObserver 0 rfl ?_)) trivial (.registerObserver 1 rfl ?_)
  · exact liveSet_encard_lt ∅ (fun o ho => absurd rfl ho) (by decide)
  · refine liveSet_encard_lt {0} (fun o ho => ?_) (by decide)
    by_contra hne
    exact ho (Function.update_of_ne (fun h0 => hne (Finset.mem_singleton.mpr h0)) _ _)

/-- Two observers add an entry each, the sort finds both rows in place, and the second observer
adds a later entry. -/
theorem slotOwnership_of_inPlace_inOrder : ∃ s : Slots ℕ,
    (s.live 0 = some ⟨some 0, some (entryAt 2 "a")⟩ ∧
      s.live 1 = some ⟨some 1, some (entryAt 3 "c")⟩) ∧ SlotOwnership s := by
  have hreach : Reach CallStep SortsInPlace Slots.init (⟨inOrder, _⟩ : Slots ℕ) :=
    .step (.addEntry 1 (entryAt 1 "b")) (.step (.addEntry 0 (entryAt 2 "a")) reach_twoRegistered
      trivial (.addEntry 0 (entryAt 2 "a") 0 none rfl)) trivial
      (.addEntry 1 (entryAt 1 "b") 1 none rfl)
  have hok := hreach.invariant slotsOk_init fun _ _ _ hok hg hs => hok.step hg hs
  refine ⟨_, ⟨rfl, rfl⟩, slotOwnership_of_inPlace _ (.step (.addEntry 1 (entryAt 3 "c"))
    (.step .sortEntryArray hreach (fun o x i hlive hi => ?_)
      (.sortEntryArray inOrder (sortEntryArray_refl (n := 2) (by decide) rfl (by decide)))) trivial
    (.addEntry 1 (entryAt 3 "c") 1 (some (entryAt 1 "b")) rfl))⟩
  obtain ⟨i', hi', hlt, -⟩ := hok.index o x hlive
  obtain rfl : i = i' := Option.some.inj (hi.symm.trans hi')
  exact rowInPlace_inOrder hlt

theorem sortEntryArray_twoEntries : SortEntryArray twoEntries twoEntriesSorted :=
  sortEntryArray_swap (n := 2) (by decide) rfl 0 1 rfl (by decide)

/-- **An entry overwritten**: observers 0 and 1 register and add an entry each, the sort swaps
their rows, and the next entry of observer 0 destroys the entry of observer 1. -/
theorem slotOwnership_lost : ∃ s : Slots ℕ,
    Reach CallStep (fun _ _ => True) Slots.init s ∧ ¬ SlotOwnership s := by
  refine ⟨_, .step (.addEntry 0 (entryAt 3 "c")) (.step .sortEntryArray
    (.step (.addEntry 1 (entryAt 2 "b")) (.step (.addEntry 0 (entryAt 1 "a"))
      (reach_twoRegistered.mono fun _ _ _ => trivial) trivial
      (.addEntry 0 (entryAt 1 "a") 0 none rfl)) trivial
    (.addEntry 1 (entryAt 2 "b") 1 none rfl)) trivial
    (.sortEntryArray twoEntriesSorted sortEntryArray_twoEntries)) trivial
    (.addEntry 0 (entryAt 3 "c") 0 (some (entryAt 1 "a")) rfl), fun h => ?_⟩
  obtain ⟨i, hi, -, hholds⟩ := h.stored 1 ⟨some 1, some (entryAt 2 "b")⟩ (entryAt 2 "b") rfl rfl
  rcases eq_zero_or_one hi with rfl | rfl
  · exact absurd hholds.2 (by decide)
  · exact absurd hholds.2 (by decide)

end C380.Notapp
