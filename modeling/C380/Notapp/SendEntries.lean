import Mathlib.Data.Fintype.Card
import C380.Notapp.Threads

/-!
# The framing of a broadcast (`send_entries`, `Assignment02/server_data.c`)

`send_entries` sends `observer_count`, then a string for every `i` while `i < observer_count`: the
header and every test of the loop read the variable anew. Between two atomic steps of the sender
other threads take any steps of any `register_observer` and `unregister_observer` calls: `steps k`
are those before the `k`-th one, so a function `steps` is one interleaving, and every interleaving
is one. The steps of a call are those of `observerStep`.

* `sendLoop_eq_some_iff`: when the loop ends, and with how many strings.
* `sendEntries_framed_iff`: **the call ends with as many strings as its header says iff** the steps
  between the header and each test leave the count above the loop index before the header is
  reached, and not above the header then (`Framed`).
* `sendEntries_unframed`: one registration after the header makes the sender send one string more
  than it announced.

`CountOk` is what the calls keep when none interrupts another: the count never exceeds the number of
taken rows, which all lie below `entry_array_size`.
-/

namespace C380.Notapp

section Send

variable (found : ℕ → ServerData)

/-- The loop of `send_entries` from the test of `i` on. The `k`-th atomic step of the sender finds
the server data `found k`: the test is step `2 * i + 1`, sending string `i` is step `2 * i + 2`. A
row past the array is not there to read. -/
def sendLoop : ℕ → ℕ → Option (List String)
  | 0, _ => none
  | fuel + 1, i =>
    if (i : Int) < (found (2 * i + 1)).observerCount then
      if h : i < clientMax then do
        let strings ← sendLoop fuel (i + 1)
        some (((found (2 * i + 2)).entryArray ⟨i, h⟩).string :: strings)
      else none
    else some []

/-- `send_entries`: the header and the strings. The loop ends at `CLIENT_MAX` at the latest. -/
def sendEntries : Option (Int × List String) := do
  let strings ← sendLoop found (clientMax + 1) 0
  some ((found 0).observerCount, strings)

end Send

/-! ## The count and the taken rows -/

/-- The server data after any calls, in any order. -/
inductive ServerData.Reachable : ServerData → Prop
  | empty : Reachable emptyServerData
  | registerObserver {d : ServerData} (h : Reachable d) : Reachable d.registerObserver.2
  | addEntry {d : ServerData} (entry : UserEntry) (index : Fin clientMax) (h : Reachable d) :
      Reachable (d.addEntry entry index)
  | sortEntryArray {d d' : ServerData} (h : Reachable d) (hs : SortEntryArray d d') : Reachable d'
  | unregisterObserver {d : ServerData} (index : Option (Fin clientMax)) (h : Reachable d) :
      Reachable (d.unregisterObserver index)

/-- The taken rows. -/
def ServerData.taken (d : ServerData) : Finset (Fin clientMax) :=
  Finset.univ.filter fun i => (d.entryArray i).isTaken = true

/-- No more observers are counted than rows are taken, and no row above the size is taken. -/
structure CountOk (d : ServerData) : Prop where
  size_nonneg : 0 ≤ d.entryArraySize
  size_le : d.entryArraySize ≤ (clientMax : Int)
  above : ∀ i : Fin clientMax, d.entryArraySize ≤ i.val → (d.entryArray i).isTaken = false
  count : d.observerCount ≤ d.taken.card

section CountOk

variable {d : ServerData}

theorem mem_taken {i : Fin clientMax} : i ∈ d.taken ↔ (d.entryArray i).isTaken = true := by
  simp [ServerData.taken]

/-- A registration takes a row that was not. -/
theorem CountOk.notMem_taken (h : CountOk d) {index : Fin clientMax} {d' : ServerData}
    (hreg : Registered d index d') : index ∉ d.taken := by
  rw [mem_taken, Bool.not_eq_true]
  rcases lt_or_ge (index.val : Int) d.entryArraySize with hlt | hge
  · exact hreg.free hlt
  · exact h.above index hge

theorem Registered.taken {index : Fin clientMax} {d' : ServerData} (h : Registered d index d') :
    d'.taken = insert index d.taken := by
  ext i
  rw [Finset.mem_insert, mem_taken, mem_taken, h.array]
  by_cases hi : i = index
  · simp [hi]
  · simp [hi]

theorem addEntry_isTaken (d : ServerData) (entry : UserEntry) (index i : Fin clientMax) :
    ((d.addEntry entry index).entryArray i).isTaken = (d.entryArray i).isTaken := by
  by_cases hi : i = index
  · subst hi
    simp [ServerData.addEntry]
  · simp [ServerData.addEntry, Function.update_of_ne hi]

theorem taken_addEntry (d : ServerData) (entry : UserEntry) (index : Fin clientMax) :
    (d.addEntry entry index).taken = d.taken := by
  ext i
  rw [mem_taken, mem_taken, addEntry_isTaken]

/-- A sort moves the flags, and leaves their number as it is. -/
theorem SortEntryArray.card_taken {d' : ServerData} (hs : SortEntryArray d d') :
    d'.taken.card = d.taken.card := by
  obtain ⟨-, -, ⟨p, -, ha⟩, -⟩ := hs
  refine Finset.card_bij (fun i _ => p i) (fun i hi => ?_) (fun i _ j _ hij => p.injective hij)
    fun i hi => ⟨p.symm i, ?_, p.apply_symm_apply i⟩
  · rw [mem_taken] at hi ⊢
    rwa [ha] at hi
  · rw [mem_taken] at hi ⊢
    rwa [ha, p.apply_symm_apply]

theorem taken_unregisterObserver (d : ServerData) (index : Fin clientMax) :
    (d.unregisterObserver (some index)).taken = d.taken.erase index := by
  ext i
  rw [Finset.mem_erase, mem_taken, mem_taken, unregisterObserver_entryArray]
  by_cases hi : i = index
  · simp [hi]
  · simp [hi]

theorem unregisterObserver_observerCount (d : ServerData) (index : Fin clientMax) :
    (d.unregisterObserver (some index)).observerCount = d.observerCount - 1 := by
  simp only [ServerData.unregisterObserver]
  split <;> rfl

theorem CountOk.registerObserver (h : CountOk d) : CountOk d.registerObserver.2 := by
  rcases registerObserver_spec h.size_nonneg h.size_le with ⟨index, d', heq, hreg⟩ | ⟨heq, -⟩
  · rw [heq]
    have hbound := index.isLt
    have hsize := hreg.size
    have hsize0 := h.size_nonneg
    have hsize1 := h.size_le
    refine ⟨by simp only; omega, by simp only; omega, fun i hi => ?_, ?_⟩
    · simp only at hi
      have hne : i ≠ index := by
        rintro rfl
        omega
      simp only [hreg.array, Function.update_of_ne hne]
      exact h.above i (by omega)
    · simp only
      rw [hreg.taken, Finset.card_insert_of_notMem (h.notMem_taken hreg), hreg.count]
      have := h.count
      push_cast
      omega
  · rw [heq]
    exact h

theorem CountOk.addEntry (h : CountOk d) (entry : UserEntry) (index : Fin clientMax) :
    CountOk (d.addEntry entry index) :=
  ⟨h.size_nonneg, h.size_le, fun i hi => (addEntry_isTaken d entry index i).trans (h.above i hi), by
    rw [taken_addEntry]
    exact h.count⟩

theorem CountOk.sortEntryArray {d' : ServerData} (h : CountOk d) (hs : SortEntryArray d d') :
    CountOk d' := by
  have htaken := hs.card_taken
  obtain ⟨hcount, hsize, ⟨p, hfix, ha⟩, -⟩ := hs
  refine ⟨hsize ▸ h.size_nonneg, hsize ▸ h.size_le, fun i hi => ?_, ?_⟩
  · rw [hsize] at hi
    rw [ha, hfix i hi]
    exact h.above i hi
  · rw [hcount, htaken]
    exact h.count

theorem CountOk.unregisterObserver (h : CountOk d) (index : Option (Fin clientMax)) :
    CountOk (d.unregisterObserver index) := by
  cases index with
  | none => exact h
  | some index =>
    have harray := unregisterObserver_entryArray d index
    have hsize := unregisterObserver_entryArraySize d index
    have hsize0 := h.size_nonneg
    have hsize1 := h.size_le
    have hbound := index.isLt
    refine ⟨by split at hsize <;> omega, by split at hsize <;> omega, fun i hi => ?_, ?_⟩
    · rw [harray]
      by_cases hidx : i = index
      · rw [hidx, Function.update_self]
      · rw [Function.update_of_ne hidx]
        refine h.above i ?_
        have : i.val ≠ index.val := fun he => hidx (Fin.ext he)
        split at hsize <;> omega
    · rw [taken_unregisterObserver, unregisterObserver_observerCount]
      have hpred : d.taken.card - 1 ≤ (d.taken.erase index).card := Finset.pred_card_le_card_erase
      have := h.count
      omega

theorem ServerData.Reachable.countOk (h : d.Reachable) : CountOk d := by
  induction h with
  | empty => exact ⟨le_rfl, Int.natCast_nonneg _, fun _ _ => rfl, Int.natCast_nonneg _⟩
  | registerObserver _ ih => exact ih.registerObserver
  | addEntry entry index _ ih => exact ih.addEntry entry index
  | sortEntryArray _ hs ih => exact ih.sortEntryArray hs
  | unregisterObserver index _ ih => exact ih.unregisterObserver index

/-- The count fits the array. -/
theorem CountOk.count_le (h : CountOk d) : d.observerCount ≤ (clientMax : Int) := by
  have hcard : d.taken.card ≤ clientMax := by
    have := Finset.card_le_univ d.taken
    rwa [Fintype.card_fin] at this
  have := h.count
  omega

end CountOk

/-! ## The loop -/

section Loop

variable (found : ℕ → ServerData)

/-- The loop reads no row past the array. -/
theorem sendLoop_length_le : ∀ (fuel i : ℕ) (strings : List String), i ≤ clientMax →
    sendLoop found fuel i = some strings → i + strings.length ≤ clientMax
  | 0, i, strings, _, h => by
    unfold sendLoop at h
    cases h
  | fuel + 1, i, strings, hi, h => by
    unfold sendLoop at h
    split at h
    · split at h
      · rename_i hlt
        obtain ⟨rest, hrest, hcons⟩ := Option.bind_eq_some_iff.mp h
        obtain rfl := Option.some.inj hcons
        have hle := sendLoop_length_le fuel (i + 1) rest hlt hrest
        rw [List.length_cons]
        omega
      · cases h
    · obtain rfl := Option.some.inj h
      simpa using hi

/-- **The loop ends with `m` strings** when the first `m` tests hold and the next one does not. -/
theorem sendLoop_eq_some_iff : ∀ (fuel i m : ℕ), clientMax < fuel + i → i + m ≤ clientMax →
    ((∃ strings, sendLoop found fuel i = some strings ∧ strings.length = m) ↔
      (∀ j, i ≤ j → j < i + m → (j : Int) < (found (2 * j + 1)).observerCount) ∧
      ¬ ((i + m : ℕ) : Int) < (found (2 * (i + m) + 1)).observerCount)
  | 0, i, m, hfuel, hm => by omega
  | fuel + 1, i, m, hfuel, hm => by
    unfold sendLoop
    by_cases htest : (i : Int) < (found (2 * i + 1)).observerCount
    · rw [if_pos htest]
      cases m with
      | zero =>
        -- the test of `i` holds, so there is a string
        refine iff_of_false ?_ fun hall => hall.2 htest
        rintro ⟨strings, hs, hlen⟩
        obtain rfl := List.eq_nil_of_length_eq_zero hlen
        split at hs
        · obtain ⟨rest, -, hcons⟩ := Option.bind_eq_some_iff.mp hs
          cases hcons
        · cases hs
      | succ m =>
        have hlt : i < clientMax := by omega
        have ih := sendLoop_eq_some_iff fuel (i + 1) m (by omega) (by omega)
        rw [dif_pos hlt, show i + (m + 1) = i + 1 + m by omega]
        refine Iff.trans ⟨?_, ?_⟩ (ih.trans (and_congr_left fun _ => ⟨?_, ?_⟩))
        · rintro ⟨strings, hs, hlen⟩
          obtain ⟨rest, hrest, hcons⟩ := Option.bind_eq_some_iff.mp hs
          obtain rfl := Option.some.inj hcons
          exact ⟨rest, hrest, Nat.succ_inj.mp hlen⟩
        · rintro ⟨rest, hrest, hlen⟩
          exact ⟨_, Option.bind_eq_some_iff.mpr ⟨rest, hrest, rfl⟩, congrArg Nat.succ hlen⟩
        · intro hall j hj hjm
          rcases hj.eq_or_lt with rfl | hj
          · exact htest
          · exact hall j hj hjm
        · exact fun hall j hj hjm => hall j (by omega) hjm
    · rw [if_neg htest]
      cases m with
      | zero =>
        exact iff_of_true ⟨[], rfl, rfl⟩
          ⟨fun j hj hjm => absurd hjm (Nat.not_lt.mpr hj), htest⟩
      | succ m =>
        refine iff_of_false ?_ fun hall => htest (hall.1 i le_rfl (by omega))
        rintro ⟨strings, hs, hlen⟩
        obtain rfl := Option.some.inj hs
        cases hlen

/-- When the call ends with as many strings as its header says. -/
theorem sendEntries_eq_some_iff : (∃ header strings,
      sendEntries found = some (header, strings) ∧ (strings.length : Int) = header) ↔
    (0 ≤ (found 0).observerCount ∧ (found 0).observerCount ≤ (clientMax : Int)) ∧
      (∀ i < (found 0).observerCount.toNat, (i : Int) < (found (2 * i + 1)).observerCount) ∧
      (found (2 * (found 0).observerCount.toNat + 1)).observerCount ≤
        (found 0).observerCount := by
  constructor
  · rintro ⟨header, strings, hs, hlen⟩
    obtain ⟨rest, hrest, heq⟩ := Option.bind_eq_some_iff.mp hs
    obtain ⟨rfl, rfl⟩ := Prod.mk.inj (Option.some.inj heq)
    have hle := sendLoop_length_le found _ 0 rest (Nat.zero_le _) hrest
    rw [← hlen, Int.toNat_natCast]
    have htests := (sendLoop_eq_some_iff found _ 0 rest.length (by omega) hle).mp ⟨rest, hrest, rfl⟩
    simp only [Nat.zero_add, Nat.zero_le, true_implies] at htests hle
    exact ⟨⟨Int.natCast_nonneg _, by exact_mod_cast hle⟩, htests.1, not_lt.mp htests.2⟩
  · rintro ⟨⟨h0, hmax⟩, htests, hlast⟩
    obtain ⟨n, hn⟩ := Int.eq_ofNat_of_zero_le h0
    rw [hn, Int.toNat_natCast] at htests hlast
    rw [hn] at hmax
    obtain ⟨strings, hs, hlen⟩ := (sendLoop_eq_some_iff found (clientMax + 1) 0 n (by omega)
      (by omega)).mpr ⟨fun j _ hj => htests j (by omega), by rw [Nat.zero_add]; omega⟩
    exact ⟨_, strings, Option.bind_eq_some_iff.mpr ⟨strings, hs, rfl⟩, by rw [hlen, hn]⟩

end Loop

/-! ## The other threads -/

/-- A call that changes `observer_count`; no index is `-1`. -/
inductive CountCall where
  | registerObserver
  | unregisterObserver (index : Option (Fin clientMax))

/-- The variables, and the place of every other thread. -/
structure Callers (ι : Type) where
  shared : Shared
  place : ι → ObserverPc

/-- Outside `register_observer` and `unregister_observer`. -/
def ObserverPc.outside : ObserverPc → Bool
  | .absent | .gate _ _ | .enter _ _ | .writeTv _ _ | .writeString _ _ | .leave _
  | .readSocket _ => true
  | _ => false

/-- A thread inside one of the two functions takes its next step; a thread outside makes `call`. -/
def callerStep (sh : Shared) (call : CountCall) (pc : ObserverPc) : Option (Shared × ObserverPc) :=
  if pc.outside then
    match call with
    | .registerObserver => some (sh, .lockRegister)
    | .unregisterObserver (some index) => some (sh, .freeRow index)
    | .unregisterObserver none => some (sh, pc)
  else observerStep sh none pc

variable {ι : Type} [DecidableEq ι]

/-- The step of a thread; one that waits for the mutex stays where it is. -/
def Callers.next (s : Callers ι) (a : ι × CountCall) : Callers ι :=
  match callerStep s.shared a.2 (s.place a.1) with
  | some r => ⟨r.1, Function.update s.place a.1 r.2⟩
  | none => s

/-- What the next step at this place adds to `observer_count`: it stores what it has loaded, plus
or minus one. -/
def ObserverPc.change (observerCount : Int) : ObserverPc → Int
  | .storeCount n => n + 1 - observerCount
  | .storeCountBack n | .storeCountDown n => n - 1 - observerCount
  | _ => 0

/-- What steps in order add to `observer_count`. -/
def netChange : Callers ι → List (ι × CountCall) → Int
  | _, [] => 0
  | s, a :: as => (s.place a.1).change s.shared.data.observerCount + netChange (s.next a) as

section Net

variable (s : Callers ι) (steps : ℕ → List (ι × CountCall))

/-- What the `k`-th atomic step of the sender finds. -/
def stateAt : ℕ → Callers ι
  | 0 => (steps 0).foldl Callers.next s
  | k + 1 => (steps (k + 1)).foldl Callers.next (stateAt k)

/-- The server data that the `k`-th atomic step of the sender finds. -/
def dataAt (k : ℕ) : ServerData := (stateAt s steps k).shared.data

/-- The steps after the header and before step `k` of the sender. -/
def stepsSince : ℕ → List (ι × CountCall)
  | 0 => []
  | k + 1 => stepsSince k ++ steps (k + 1)

/-- **The framing condition.** Where the header says `n`: `n` is neither negative nor past the
array, the steps since the header leave more than `i` observers at the test of each `i` below `n`,
and at the test of `n` no more than `n`. -/
def Framed : Prop :=
  let start := stateAt s steps 0
  let n := start.shared.data.observerCount
  (0 ≤ n ∧ n ≤ (clientMax : Int)) ∧
    (∀ i < n.toNat, (i : Int) - n < netChange start (stepsSince steps (2 * i + 1))) ∧
    netChange start (stepsSince steps (2 * n.toNat + 1)) ≤ 0

end Net

/-- Only the three stores change the count. -/
theorem callerStep_observerCount_eq {sh sh' : Shared} {call : CountCall} {pc pc' : ObserverPc}
    (hpc : pc.outside = true ∨ pc.writesBroadcast = false)
    (h : callerStep sh call pc = some (sh', pc')) :
    sh'.data.observerCount = sh.data.observerCount := by
  unfold callerStep at h
  split at h
  · split at h <;> cases h <;> rfl
  · rename_i hout
    exact ((observerStep_frame h).broadcast (hpc.resolve_left hout)).1

theorem callerStep_observerCount {sh sh' : Shared} {call : CountCall} {pc pc' : ObserverPc}
    (h : callerStep sh call pc = some (sh', pc')) :
    sh'.data.observerCount = sh.data.observerCount + pc.change sh.data.observerCount := by
  cases pc with
  | storeCount n =>
    cases h
    exact (add_sub_cancel _ _).symm
  | storeCountBack n =>
    cases h
    exact (add_sub_cancel _ _).symm
  | storeCountDown n =>
    cases h
    exact (add_sub_cancel _ _).symm
  | _ =>
    refine (callerStep_observerCount_eq ?_ h).trans (add_zero _).symm
    first | exact Or.inl rfl | exact Or.inr rfl

/-- A step that does not wait changes the count as its place says, and the stores do not wait. -/
theorem Callers.next_observerCount (s : Callers ι) (a : ι × CountCall) :
    (s.next a).shared.data.observerCount = s.shared.data.observerCount +
      (s.place a.1).change s.shared.data.observerCount := by
  unfold Callers.next
  split
  · rename_i hstep
    exact callerStep_observerCount hstep
  · rename_i hwait
    have hchange : (s.place a.1).change s.shared.data.observerCount = 0 := by
      revert hwait
      cases s.place a.1 with
      | storeCount n => exact fun hwait => (nomatch hwait)
      | storeCountBack n => exact fun hwait => (nomatch hwait)
      | storeCountDown n => exact fun hwait => (nomatch hwait)
      | _ => exact fun _ => rfl
    rw [hchange, add_zero]

theorem foldl_observerCount (s : Callers ι) : ∀ as : List (ι × CountCall),
    (as.foldl Callers.next s).shared.data.observerCount =
      s.shared.data.observerCount + netChange s as := by
  intro as
  induction as generalizing s with
  | nil => exact (add_zero _).symm
  | cons a as ih => rw [List.foldl_cons, ih, s.next_observerCount, netChange, add_assoc]

theorem stateAt_eq_foldl (s : Callers ι) (steps : ℕ → List (ι × CountCall)) : ∀ k,
    stateAt s steps k = (stepsSince steps k).foldl Callers.next (stateAt s steps 0)
  | 0 => rfl
  | k + 1 => by rw [stepsSince, List.foldl_append, ← stateAt_eq_foldl s steps k, stateAt]

/-- The count at a test is the header and the net change since. -/
theorem dataAt_observerCount (s : Callers ι) (steps : ℕ → List (ι × CountCall)) (k : ℕ) :
    (dataAt s steps k).observerCount = (stateAt s steps 0).shared.data.observerCount +
      netChange (stateAt s steps 0) (stepsSince steps k) := by
  rw [dataAt, stateAt_eq_foldl, foldl_observerCount]

/-- **Broadcast framing, exactly.** In every interleaving of `send_entries` with the steps of
registrations and unregistrations the call ends with as many strings as its header says iff the net
change of the count since the header meets `Framed`. -/
theorem sendEntries_framed_iff (s : Callers ι) (steps : ℕ → List (ι × CountCall)) :
    (∃ header strings, sendEntries (dataAt s steps) = some (header, strings) ∧
      (strings.length : Int) = header) ↔ Framed s steps := by
  rw [sendEntries_eq_some_iff]
  refine and_congr_right fun _ => and_congr (forall₂_congr fun i _ => ?_) ?_
  · rw [dataAt_observerCount s steps (2 * i + 1)]
    exact ⟨Int.sub_left_lt_of_lt_add, Int.lt_add_of_sub_left_lt⟩
  · rw [dataAt_observerCount s steps (2 * (dataAt s steps 0).observerCount.toNat + 1)]
    exact add_le_iff_nonpos_right _

/-- Thread `o` calls `register_observer` and takes `n` steps, from the call on. -/
def registering (o n : ℕ) : List (ℕ × CountCall) := List.replicate n (o, .registerObserver)

/-- Two observers register. After the header a third one is counted and the first one leaves, so
that the count is the header again at every test; the third one goes on between the tests. -/
def leavingSteps : ℕ → List (ℕ × CountCall)
  | 0 => registering 0 11 ++ registering 1 13
  | 1 => registering 2 4 ++
    List.replicate 5 (0, .unregisterObserver emptyServerData.registerObserver.1)
  | 3 => registering 2 4
  | _ => []

theorem sendEntries_framed_iff_leaving : ∃ header strings,
    sendEntries (dataAt ⟨Shared.init, fun _ => .absent⟩ leavingSteps) = some (header, strings) ∧
      (strings.length : Int) = header :=
  (sendEntries_framed_iff ⟨Shared.init, fun _ => .absent⟩ leavingSteps).mpr
    ⟨by decide +kernel, by decide +kernel, by decide +kernel⟩

/-- An observer registers; between the header and the first test another one is counted. -/
def joiningSteps : ℕ → List (ℕ × CountCall)
  | 0 => registering 0 11
  | 1 => registering 1 4
  | _ => []

/-- **One string too many**: an observer registers between the header and the first test. -/
theorem sendEntries_unframed : ∃ strings,
    sendEntries (dataAt ⟨Shared.init, fun _ => .absent⟩ joiningSteps) = some (1, strings) ∧
      strings.length = 2 := by
  refine ⟨["", ""], ?_, rfl⟩
  decide +kernel

end C380.Notapp
