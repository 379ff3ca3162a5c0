import C380.Notapp.Calls
import C380.Notapp.Leases

/-!
# The effect of a call that others interrupt

`Calls.lean` follows a call that nobody interrupts. Here the other observers take steps in between,
and what an observer has done so far is compared with `Leases.lean`, where the call has taken effect
already.

* `RegistryOk`: `register_observer` and `unregister_observer` are followed by what they have still
  to do alone. Only the flags and counters decide it (`core`), which `add_entry` does not change.
* `RowsOk`: a row whose time is written gets the string of the call that has written it.

Both are kept by every step of an observer (`ObserverCall`), those that begin a call under a
condition on the other observers.
-/

namespace C380.Notapp

open Relation

/-! ## The middle of a call -/

/-- Inside `register_observer`, holding the mutex. -/
def ObserverPc.registering : ObserverPc → Bool
  | .loadCount | .storeCount _ | .scanSize _ | .scanTaken _ | .takeRow _ | .loadSize | .storeSize _
  | .testSize | .loadIndex | .loadSizeBack | .storeSizeBack _ | .loadCountBack
  | .storeCountBack _ | .unlockRegister _ => true
  | _ => false

/-- Inside `unregister_observer`, past its first write. -/
def ObserverPc.unregistering : ObserverPc → Bool
  | .testLast _ | .loadSizeDown | .storeSizeDown _ | .loadCountDown | .storeCountDown _ => true
  | _ => false

/-- Inside one of the two. -/
def ObserverPc.inside (pc : ObserverPc) : Bool := pc.registering || pc.unregistering

/-- The row that the thread has written the time of and not yet the string. -/
def ObserverPc.halfWritten : ObserverPc → Option (Fin clientMax)
  | .writeString index _ => some index
  | _ => none

/-- The index that `register_observer` gave the thread and that it has not given back. -/
def ObserverPc.lease : ObserverPc → Option (Fin clientMax)
  | .gate index _ | .enter index _ | .writeTv index _ => index
  | .writeString index _ | .leave index | .readSocket index | .freeRow index => some index
  | _ => none

/-- Inside `qsort`. -/
def SorterPc.inQsort : SorterPc → Bool
  | .sort _ => true
  | _ => false

variable {ι : Type}

/-- The call that takes effect with the next step of an observer. -/
def ObserverPc.call (o : ι) : ObserverPc → Option (Call ι)
  | .lockRegister => some (.registerObserver o)
  | .writeTv _ entry => some (.addEntry o entry)
  | .freeRow _ => some (.unregisterObserver o)
  | _ => none

/-! ## Flags and texts -/

namespace ServerData

/-- The counters and the flags; no row has a text. -/
def flags (d : ServerData) : ServerData :=
  { d with entryArray := fun i => { emptyEntry with isTaken := (d.entryArray i).isTaken } }

/-- The same text in every row. -/
def SameTexts (d d' : ServerData) : Prop :=
  ∀ i, (d'.entryArray i).tv = (d.entryArray i).tv ∧
    (d'.entryArray i).string = (d.entryArray i).string

theorem sameTexts_refl (d : ServerData) : d.SameTexts d := fun _ => ⟨rfl, rfl⟩

/-- Flags and texts are the data. -/
theorem eq_of_flags {d d' : ServerData} (hflags : d'.flags = d.flags) (htexts : d.SameTexts d') :
    d' = d := by
  obtain ⟨n, size, a⟩ := d
  obtain ⟨n', size', a'⟩ := d'
  simp only [flags, mk.injEq] at hflags
  obtain ⟨rfl, rfl, hflags⟩ := hflags
  congr 1
  funext i
  obtain ⟨htv, hstring⟩ := htexts i
  have htaken := congrFun hflags i
  simp only [UserEntry.mk.injEq, and_true] at htaken
  show (⟨(a' i).isTaken, (a' i).tv, (a' i).string⟩ : UserEntry) = a i
  rw [htaken, htv, hstring]

theorem sameTexts_update {d : ServerData} {i : Fin clientMax} {row : UserEntry} {n m : Int}
    (htv : row.tv = (d.entryArray i).tv) (hstring : row.string = (d.entryArray i).string) :
    d.SameTexts ⟨n, m, Function.update d.entryArray i row⟩ := by
  intro j
  by_cases hj : j = i
  · rw [hj]
    simp [htv, hstring]
  · simp [Function.update_of_ne hj]

/-- A text does not change the flags. -/
theorem flags_update {d : ServerData} {i : Fin clientMax} {row : UserEntry}
    (h : row.isTaken = (d.entryArray i).isTaken) :
    flags { d with entryArray := Function.update d.entryArray i row } = d.flags := by
  unfold flags
  congr 1
  funext j
  by_cases hj : j = i
  · rw [hj]
    simp [h]
  · simp [Function.update_of_ne hj]

theorem flags_setTaken (d : ServerData) (index : Fin clientMax) (taken : Bool) :
    (d.setTaken index taken).flags = d.flags.setTaken index taken := by
  unfold flags setTaken
  congr 1
  funext j
  by_cases hj : j = index
  · rw [hj]
    simp
  · simp [Function.update_of_ne hj]

/-- `register_observer` looks at the flags only, and changes nothing else. -/
theorem registerObserver_flags (d : ServerData) :
    d.flags.registerObserver = (d.registerObserver.1, d.registerObserver.2.flags) := by
  have hfind : d.flags.findFree = d.findFree := rfl
  cases hf : d.findFree with
  | some index =>
    rw [registerObserver_of_free hf, registerObserver_of_free (hfind.trans hf), flags_setTaken]
    rfl
  | none =>
    by_cases hroom : 1 ≤ d.entryArraySize + 1 ∧ d.entryArraySize + 1 ≤ (clientMax : Int)
    · rw [registerObserver_of_room hf hroom, registerObserver_of_room (hfind.trans hf) hroom,
        flags_setTaken]
      rfl
    · rw [registerObserver_of_full hf hroom, registerObserver_of_full (hfind.trans hf) hroom]

theorem registerObserver_sameTexts (d : ServerData) : d.SameTexts d.registerObserver.2 := by
  cases hf : d.findFree with
  | some index =>
    rw [registerObserver_of_free hf]
    exact sameTexts_update rfl rfl
  | none =>
    by_cases hroom : 1 ≤ d.entryArraySize + 1 ∧ d.entryArraySize + 1 ≤ (clientMax : Int)
    · rw [registerObserver_of_room hf hroom]
      exact sameTexts_update rfl rfl
    · rw [registerObserver_of_full hf hroom]
      exact d.sameTexts_refl

/-- `unregister_observer` looks at the counters only, and changes them and a flag. -/
theorem unregisterObserver_flags (d : ServerData) (index : Fin clientMax) :
    d.flags.unregisterObserver (some index) = (d.unregisterObserver (some index)).flags := by
  simp only [unregisterObserver, ← flags_setTaken]
  by_cases hlast : (index.val : Int) + 1 = d.entryArraySize
  · have hlast' : (index.val : Int) + 1 = (d.setTaken index false).flags.entryArraySize := hlast
    have hlast'' : (index.val : Int) + 1 = (d.setTaken index false).entryArraySize := hlast
    rw [if_pos hlast', if_pos hlast'']
    rfl
  · have hlast' : ¬ (index.val : Int) + 1 = (d.setTaken index false).flags.entryArraySize := hlast
    have hlast'' : ¬ (index.val : Int) + 1 = (d.setTaken index false).entryArraySize := hlast
    rw [if_neg hlast', if_neg hlast'']
    rfl

theorem unregisterObserver_sameTexts (d : ServerData) (index : Fin clientMax) :
    d.SameTexts (d.unregisterObserver (some index)) := by
  intro i
  rw [unregisterObserver_entryArray]
  by_cases hi : i = index
  · rw [hi]
    simp
  · simp [Function.update_of_ne hi]

end ServerData

/-! ## What a call has still to do -/

/-- What decides how `register_observer` and `unregister_observer` go on. The state is one in which
`add_entry` waits, so that a thread that has left them goes no further. -/
def core (mutex : Bool) (d : ServerData) : Shared :=
  { Shared.init with serverState := .reading, registerMutex := mutex, data := d.flags }

theorem core_congr {mutex : Bool} {d d' : ServerData} (h : d'.flags = d.flags) :
    core mutex d' = core mutex d := by
  unfold core
  rw [h]

/-- An observer takes one step of a longer way. -/
theorem ObserverRuns.tail_of_step {x y z : Shared × ObserverPc} (h : ObserverRuns x z)
    (hstep : observerStep x.1 none x.2 = some y) (hne : x.2 ≠ z.2) : ObserverRuns y z := by
  rcases ReflTransGen.cases_head h with rfl | ⟨y', hy', hrest⟩
  · exact absurd rfl hne
  · obtain rfl : y = y' := Option.some.inj (hstep.symm.trans hy')
    exact hrest

/-- At the gate of `add_entry` an observer waits. -/
theorem ObserverRuns.eq_of_gate {mutex : Bool} {d : ServerData} {index : Option (Fin clientMax)}
    {entry : UserEntry} {z : Shared × ObserverPc}
    (h : ObserverRuns (core mutex d, .gate index entry) z) :
    z = (core mutex d, .gate index entry) := by
  induction h with
  | refl => rfl
  | tail _ hstep ih =>
    rw [ih] at hstep
    exact (Option.some.inj hstep).symm

/-- With the mutex taken an observer that is absent does not come back. -/
theorem ObserverRuns.eq_of_absent {d d' : ServerData}
    (h : ObserverRuns (core true d, .absent) (core true d', .absent)) :
    core true d' = core true d := by
  rcases ReflTransGen.cases_head h with heq | ⟨y, hy, hrest⟩
  · exact (Prod.mk.inj heq).1.symm
  · obtain rfl : (core true d, ObserverPc.lockRegister) = y := Option.some.inj hy
    rcases ReflTransGen.cases_head hrest with heq | ⟨y, hy, -⟩
    · cases (Prod.mk.inj heq).2
    · cases hy

/-! ## The steps of an observer, by call -/

/-- A step of an observer: outside the calls that change counters and flags, at their beginnings,
and inside them, where it is the step of `core`. -/
inductive ObserverCall (sh : Shared) : ObserverPc → Shared → ObserverPc → Prop
  | elsewhere {pc pc' : ObserverPc} {sh' : Shared} (hpc : pc.inside = false)
      (hpc' : pc'.inside = false) (hlease : pc'.lease = pc.lease) (hhalf : pc.halfWritten = none)
      (hhalf' : pc'.halfWritten = none) (hcall : ∀ (ι : Type) (o : ι), pc.call o = none)
      (hdata : sh'.data = sh.data) (hmutex : sh'.registerMutex = sh.registerMutex) :
      ObserverCall sh pc sh' pc'
  | lock (hfree : sh.registerMutex = false) :
      ObserverCall sh .lockRegister { sh with registerMutex := true } .loadCount
  | register {pc pc' : ObserverPc} {d : ServerData} (hpc : pc.registering = true)
      (hpc' : pc'.registering = true)
      (hstep : observerStep (core true sh.data) none pc = some (core true d, pc'))
      (htexts : sh.data.SameTexts d) : ObserverCall sh pc { sh with data := d } pc'
  | unlock (index : Option (Fin clientMax)) : ObserverCall sh (.unlockRegister index)
      { sh with registerMutex := false } (.gate index emptyEntry)
  | writeTv (index : Fin clientMax) (entry : UserEntry) :
      ObserverCall sh (.writeTv (some index) entry)
        { sh with data := { sh.data with
          entryArray := Function.update sh.data.entryArray index
            { sh.data.entryArray index with tv := entry.tv } } } (.writeString index entry)
  | writeString (index : Fin clientMax) (entry : UserEntry) :
      ObserverCall sh (.writeString index entry)
        { sh with data := { sh.data with
          entryArray := Function.update sh.data.entryArray index
            { sh.data.entryArray index with string := entry.string } } } (.leave index)
  | freeRow (index : Fin clientMax) : ObserverCall sh (.freeRow index)
      { sh with data := sh.data.setTaken index false } (.testLast index)
  | unregister {pc pc' : ObserverPc} {d : ServerData} (hpc : pc.unregistering = true)
      (hpc' : pc'.unregistering = true ∨ pc' = .absent)
      (hstep : observerStep (core true sh.data) none pc = some (core true d, pc'))
      (htexts : sh.data.SameTexts d) : ObserverCall sh pc { sh with data := d } pc'

theorem observerCall_of_step {sh sh' : Shared} {input : Option UserEntry} {pc pc' : ObserverPc}
    (h : observerStep sh input pc = some (sh', pc')) : ObserverCall sh pc sh' pc' := by
  have hsame := sh.data.sameTexts_refl
  cases pc with
  | lockRegister =>
    rw [observerStep, Option.ite_none_left_eq_some] at h
    obtain ⟨hfree, h⟩ := h
    cases h
    exact .lock (Bool.eq_false_of_not_eq_true hfree)
  | scanSize i =>
    cases h
    refine .register rfl ?_ rfl hsame
    split <;> rfl
  | scanTaken i =>
    simp only [observerStep] at h
    split at h
    · rename_i hi
      cases h
      refine .register rfl ?_ (dif_pos hi) hsame
      split <;> rfl
    · cases h
  | takeRow index =>
    cases h
    refine .register rfl rfl ?_ (ServerData.sameTexts_update rfl rfl)
    simp only [core, ServerData.flags_setTaken]
    rfl
  | testSize =>
    cases h
    refine .register rfl ?_ rfl hsame
    split <;> rfl
  | loadIndex =>
    simp only [observerStep] at h
    split at h
    · rename_i hsize
      cases h
      exact .register rfl rfl (dif_pos hsize) hsame
    · cases h
  | unlockRegister index =>
    cases h
    exact .unlock index
  | gate index entry =>
    cases h
    refine .elsewhere rfl ?_ ?_ rfl ?_ (fun _ _ => rfl) rfl rfl <;> split <;> rfl
  | writeTv index entry =>
    cases index with
    | none => cases h
    | some index =>
      cases h
      exact .writeTv index entry
  | writeString index entry =>
    cases h
    exact .writeString index entry
  | readSocket index =>
    cases input <;> cases h <;> exact .elsewhere rfl rfl rfl rfl rfl (fun _ _ => rfl) rfl rfl
  | freeRow index =>
    cases h
    exact .freeRow index
  | testLast index =>
    cases h
    refine .unregister rfl ?_ rfl hsame
    split <;> exact Or.inl rfl
  | loadSizeDown =>
    cases h
    exact .unregister rfl (Or.inl rfl) rfl hsame
  | storeSizeDown n =>
    cases h
    exact .unregister rfl (Or.inl rfl) rfl fun _ => ⟨rfl, rfl⟩
  | loadCountDown =>
    cases h
    exact .unregister rfl (Or.inl rfl) rfl hsame
  | storeCountDown n =>
    cases h
    exact .unregister rfl (Or.inr rfl) rfl fun _ => ⟨rfl, rfl⟩
  | absent =>
    cases h
    exact .elsewhere rfl rfl rfl rfl rfl (fun _ _ => rfl) rfl rfl
  | enter index entry =>
    cases h
    exact .elsewhere rfl rfl rfl rfl rfl (fun _ _ => rfl) rfl rfl
  | leave index =>
    cases h
    exact .elsewhere rfl rfl rfl rfl rfl (fun _ _ => rfl) rfl rfl
  | _ =>
    -- the other steps of `register_observer` read or write a counter
    cases h
    exact .register rfl rfl rfl fun _ => ⟨rfl, rfl⟩

variable [DecidableEq ι]

/-! ## The registry -/

/-- The flags and counters, as far as the observers have come; `sorting` says whether the rows are
inside `qsort`. -/
structure RegistryOk (observer : ι → ObserverPc) (mutex : Bool) (d : ServerData) (sorting : Bool)
    (l : Leases ι) : Prop where
  alone : ∀ o o', (observer o).inside = true → (observer o').inside = true → o = o'
  locked : ∀ o, (observer o).registering = true → mutex = true
  index : ∀ o, (observer o).registering = false → l.index o = (observer o).lease
  idle : sorting = false → (∀ o, (observer o).inside = false) → d.flags = l.data.flags
  registers : ∀ o, (observer o).registering = true →
    ObserverRuns (core true d, observer o) (core false l.data, .gate (l.index o) emptyEntry)
  unregisters : ∀ o, (observer o).unregistering = true →
    ObserverRuns (core true d, observer o) (core true l.data, .absent)

theorem ObserverPc.inside_of_registering {pc : ObserverPc} (h : pc.registering = true) :
    pc.inside = true := by
  rw [ObserverPc.inside, h, Bool.true_or]

theorem ObserverPc.inside_of_unregistering {pc : ObserverPc} (h : pc.unregistering = true) :
    pc.inside = true := by
  rw [ObserverPc.inside, h, Bool.or_true]

theorem ObserverPc.registering_of_unregistering {pc : ObserverPc}
    (h : pc.unregistering = true) : pc.registering = false := by
  cases pc <;> first | rfl | cases h

omit [DecidableEq ι] in
/-- Inside `register_observer` no row is written and no call takes effect. -/
theorem ObserverPc.of_registering {pc : ObserverPc} (h : pc.registering = true) (o : ι) :
    pc.halfWritten = none ∧ pc.call o = none := by
  cases pc <;> first | exact ⟨rfl, rfl⟩ | cases h

omit [DecidableEq ι] in
/-- Inside `unregister_observer` and behind it no row is written, no call takes effect, and the
index is given back. -/
theorem ObserverPc.of_unregistering {pc : ObserverPc}
    (h : pc.unregistering = true ∨ pc = .absent) (o : ι) :
    pc.halfWritten = none ∧ pc.call o = none ∧ pc.lease = none := by
  rcases h with h | rfl
  · cases pc <;> first | exact ⟨rfl, rfl, rfl⟩ | cases h
  · exact ⟨rfl, rfl, rfl⟩

theorem ObserverPc.inside_eq_false_iff {pc : ObserverPc} :
    pc.inside = false ↔ pc.registering = false ∧ pc.unregistering = false :=
  Bool.or_eq_false_iff

section Registry

variable {observer : ι → ObserverPc} {mutex sorting : Bool} {d d' : ServerData}
  {l l' : Leases ι} {o : ι} {pc : ObserverPc}

omit [DecidableEq ι] in
/-- Whoever is inside is inside alone. -/
theorem RegistryOk.others (h : RegistryOk observer mutex d sorting l)
    (hpc : (observer o).inside = true) : ∀ o' ≠ o, (observer o').inside = false := fun o' ho =>
  Bool.eq_false_of_not_eq_true fun hin => ho (h.alone o' o hin hpc)

/-- The registry after a step of an observer that no other is inside with. -/
theorem RegistryOk.moved (hothers : ∀ o' ≠ o, (observer o').inside = false)
    (hindex : ∀ o' ≠ o, l.index o' = (observer o').lease)
    (hlocked : pc.registering = true → mutex = true)
    (hself : pc.registering = false → l.index o = pc.lease)
    (hidle : sorting = false → pc.inside = false → d.flags = l.data.flags)
    (hregister : pc.registering = true →
      ObserverRuns (core true d, pc) (core false l.data, .gate (l.index o) emptyEntry))
    (hunregister : pc.unregistering = true →
      ObserverRuns (core true d, pc) (core true l.data, .absent)) :
    RegistryOk (Function.update observer o pc) mutex d sorting l := by
  have hout : ∀ o', (Function.update observer o pc o').inside = true → o' = o := fun o' hin => by
    by_contra ho
    rw [Function.update_of_ne ho, hothers o' ho] at hin
    cases hin
  refine ⟨fun o₁ o₂ h₁ h₂ => (hout o₁ h₁).trans (hout o₂ h₂).symm, fun o' hreg => ?_,
    fun o' hreg => ?_, fun hs hall => hidle hs ?_, fun o' hreg => ?_, fun o' hreg => ?_⟩
  · obtain rfl := hout o' (ObserverPc.inside_of_registering hreg)
    rw [Function.update_self] at hreg
    exact hlocked hreg
  · by_cases ho : o' = o
    · subst ho
      rw [Function.update_self] at hreg ⊢
      exact hself hreg
    · rw [Function.update_of_ne ho]
      exact hindex o' ho
  · have hpc := hall o
    rwa [Function.update_self] at hpc
  · obtain rfl := hout o' (ObserverPc.inside_of_registering hreg)
    rw [Function.update_self] at hreg ⊢
    exact hregister hreg
  · obtain rfl := hout o' (ObserverPc.inside_of_unregistering hreg)
    rw [Function.update_self] at hreg ⊢
    exact hunregister hreg

omit [DecidableEq ι] in
/-- Nobody else registers while an observer is inside. -/
theorem RegistryOk.index_of_ne (h : RegistryOk observer mutex d sorting l)
    (hothers : ∀ o' ≠ o, (observer o').inside = false) :
    ∀ o' ≠ o, l.index o' = (observer o').lease := fun o' ho =>
  h.index o' (ObserverPc.inside_eq_false_iff.mp (hothers o' ho)).1

/-- A step outside, with no change of a flag or a counter. -/
theorem RegistryOk.elsewhere (h : RegistryOk observer mutex d sorting l)
    (hpc : (observer o).inside = false) (hpc' : pc.inside = false)
    (hlease : pc.lease = (observer o).lease) (hd : d'.flags = d.flags)
    (hl : l'.data.flags = l.data.flags) (hindex : l'.index = l.index) :
    RegistryOk (Function.update observer o pc) mutex d' sorting l' := by
  have hreg := ObserverPc.inside_eq_false_iff.mp hpc
  have hreg' := ObserverPc.inside_eq_false_iff.mp hpc'
  -- the others are inside as before
  have hother : ∀ o', (Function.update observer o pc o').inside = true → o' ≠ o := by
    rintro o' hin rfl
    rw [Function.update_self, hpc'] at hin
    cases hin
  refine ⟨fun o₁ o₂ h₁ h₂ => ?_, fun o' hin => ?_, fun o' hin => ?_, fun hs hall => ?_,
    fun o' hin => ?_, fun o' hin => ?_⟩
  · rw [Function.update_of_ne (hother o₁ h₁)] at h₁
    rw [Function.update_of_ne (hother o₂ h₂)] at h₂
    exact h.alone o₁ o₂ h₁ h₂
  · rw [Function.update_of_ne (hother o' (ObserverPc.inside_of_registering hin))] at hin
    exact h.locked o' hin
  · rw [hindex]
    by_cases ho : o' = o
    · rw [ho, Function.update_self, hlease]
      exact h.index o hreg.1
    · rw [Function.update_of_ne ho] at hin ⊢
      exact h.index o' hin
  · rw [hd, hl]
    refine h.idle hs fun o' => ?_
    by_cases ho : o' = o
    · rw [ho, hpc]
    · rw [← hall o', Function.update_of_ne ho]
  · have ho := hother o' (ObserverPc.inside_of_registering hin)
    rw [Function.update_of_ne ho] at hin ⊢
    rw [hindex, core_congr hd, core_congr hl]
    exact h.registers o' hin
  · have ho := hother o' (ObserverPc.inside_of_unregistering hin)
    rw [Function.update_of_ne ho] at hin ⊢
    rw [core_congr hd, core_congr hl]
    exact h.unregisters o' hin

/-- **`register_observer` begins**: what is left of it is the call. -/
theorem RegistryOk.lock (h : RegistryOk observer mutex d false l) (hl : LeasesOk l) (o : ι)
    (hmutex : mutex = false) (hother : ∀ o, (observer o).unregistering = false) :
    RegistryOk (Function.update observer o .loadCount) true d false
      ⟨l.data.registerObserver.2, Function.update l.index o l.data.registerObserver.1⟩ := by
  have hinside : ∀ o', (observer o').inside = false := fun o' => by
    refine ObserverPc.inside_eq_false_iff.mpr ⟨?_, hother o'⟩
    by_contra hreg
    rw [h.locked o' (Bool.eq_true_of_not_eq_false hreg)] at hmutex
    cases hmutex
  have hflags := h.idle rfl hinside
  have hok := hl.reachable.countOk
  refine .moved (fun o' _ => hinside o') (fun o' ho => ?_) (fun _ => rfl)
    (fun hreg => (nomatch hreg)) (fun _ hin => (nomatch hin)) (fun _ => ?_)
    (fun hun => (nomatch hun))
  · refine (Function.update_of_ne ho _ _).trans ?_
    exact h.index o' (ObserverPc.inside_eq_false_iff.mp (hinside o')).1
  · have hruns := @registerObserver_steps (core false l.data) rfl hok.size_nonneg hok.size_le
    have hcall : (core false l.data).data.registerObserver =
        (l.data.registerObserver.1, l.data.registerObserver.2.flags) :=
      l.data.registerObserver_flags
    rw [hcall] at hruns
    simp only [Function.update_self]
    refine hruns.tail_of_step ?_ (fun heq => nomatch heq)
    rw [core_congr hflags]
    rfl

/-- **Inside `register_observer`**: less of the call is left. -/
theorem RegistryOk.register (h : RegistryOk observer mutex d sorting l)
    (hpc : (observer o).registering = true) (hpc' : pc.registering = true)
    (hstep : observerStep (core true d) none (observer o) = some (core true d', pc)) :
    RegistryOk (Function.update observer o pc) mutex d' sorting l := by
  have hothers := h.others (ObserverPc.inside_of_registering hpc)
  refine .moved hothers (h.index_of_ne hothers) (fun _ => h.locked o hpc) (fun hreg => ?_)
    (fun _ hin => ?_) (fun _ => ?_) (fun hun => ?_)
  · rw [hpc'] at hreg
    cases hreg
  · rw [ObserverPc.inside_of_registering hpc'] at hin
    cases hin
  · refine (h.registers o hpc).tail_of_step hstep fun heq => ?_
    rw [show observer o = _ from heq] at hpc
    cases hpc
  · rw [ObserverPc.registering_of_unregistering hun] at hpc'
    cases hpc'

/-- **The end of `register_observer`**: the observer has the index, and the flags are those of the
call. -/
theorem RegistryOk.unlock (h : RegistryOk observer mutex d sorting l)
    {index : Option (Fin clientMax)} (hpc : observer o = .unlockRegister index) :
    RegistryOk (Function.update observer o (.gate index emptyEntry)) false d sorting l := by
  have hreg : (observer o).registering = true := by rw [hpc]; rfl
  have hothers := h.others (ObserverPc.inside_of_registering hreg)
  have hruns := h.registers o hreg
  rw [hpc] at hruns
  have hend := (hruns.tail_of_step (y := (core false d, .gate index emptyEntry)) rfl
    fun heq => nomatch heq).eq_of_gate
  obtain ⟨hcore, hgate⟩ := Prod.mk.inj hend
  have hindex : l.index o = index := (ObserverPc.gate.inj hgate).1
  exact .moved hothers (h.index_of_ne hothers) (fun hreg => (nomatch hreg)) (fun _ => hindex)
    (fun _ _ => (congrArg Shared.data hcore).symm) (fun hreg => (nomatch hreg))
    (fun hun => (nomatch hun))

/-- **`unregister_observer` begins**: what is left of it is the call. -/
theorem RegistryOk.freeRow (h : RegistryOk observer mutex d false l) (o : ι)
    (index : Fin clientMax) (hinside : ∀ o, (observer o).inside = false) :
    RegistryOk (Function.update observer o (.testLast index)) mutex (d.setTaken index false) false
      ⟨l.data.unregisterObserver (some index), Function.update l.index o none⟩ := by
  have hflags := h.idle rfl hinside
  refine .moved (fun o' _ => hinside o') (fun o' ho => ?_) (fun hreg => (nomatch hreg))
    (fun _ => ?_) (fun _ hin => (nomatch hin)) (fun hreg => (nomatch hreg)) (fun _ => ?_)
  · refine (Function.update_of_ne ho _ _).trans ?_
    exact h.index o' (ObserverPc.inside_eq_false_iff.mp (hinside o')).1
  · exact Function.update_self ..
  · have hruns := unregisterObserver_steps (core true l.data) index
    have hcall : (core true l.data).data.unregisterObserver (some index) =
        (l.data.unregisterObserver (some index)).flags :=
      l.data.unregisterObserver_flags index
    rw [hcall] at hruns
    refine hruns.tail_of_step ?_ (fun heq => nomatch heq)
    simp only [core, ServerData.flags_setTaken, hflags]
    rfl

/-- **Inside `unregister_observer`**: less of the call is left, and at its end the flags are those
of the call. -/
theorem RegistryOk.unregister (h : RegistryOk observer mutex d sorting l)
    (hpc : (observer o).unregistering = true)
    (hpc' : pc.unregistering = true ∨ pc = .absent)
    (hstep : observerStep (core true d) none (observer o) = some (core true d', pc)) :
    RegistryOk (Function.update observer o pc) mutex d' sorting l := by
  have hothers := h.others (ObserverPc.inside_of_unregistering hpc)
  have hruns : ObserverRuns (core true d', pc) (core true l.data, .absent) := by
    refine (h.unregisters o hpc).tail_of_step hstep fun heq => ?_
    rw [show observer o = _ from heq] at hpc
    cases hpc
  have hreg : pc.registering = false := by
    rcases hpc' with hpc' | rfl
    · exact ObserverPc.registering_of_unregistering hpc'
    · rfl
  refine .moved hothers (h.index_of_ne hothers) (fun hreg' => ?_) (fun _ => ?_) (fun _ hin => ?_)
    (fun hreg' => ?_) (fun _ => hruns)
  · rw [hreg] at hreg'
    cases hreg'
  · rw [h.index o (ObserverPc.registering_of_unregistering hpc),
      (ObserverPc.of_unregistering hpc' o).2.2, (ObserverPc.of_unregistering (Or.inl hpc) o).2.2]
  · rcases hpc' with hpc' | rfl
    · rw [ObserverPc.inside_of_unregistering hpc'] at hin
      cases hin
    · exact (congrArg Shared.data hruns.eq_of_absent).symm
  · rw [hreg] at hreg'
    cases hreg'

end Registry

/-! ## The texts -/

/-- The texts of the rows, as far as the observers have come. -/
structure RowsOk (observer : ι → ObserverPc) (d : ServerData) (sorting : Bool) (l : Leases ι) :
    Prop where
  distinct : ∀ o o' i, (observer o).halfWritten = some i → (observer o').halfWritten = some i →
    o = o'
  string_half : ∀ o i entry, observer o = .writeString i entry →
    (l.data.entryArray i).string = entry.string
  tv : sorting = false → ∀ i, (d.entryArray i).tv = (l.data.entryArray i).tv
  string : sorting = false → ∀ i, (∀ o, (observer o).halfWritten ≠ some i) →
    (d.entryArray i).string = (l.data.entryArray i).string

section Rows

variable {observer : ι → ObserverPc} {sorting : Bool} {d d' : ServerData} {l l' : Leases ι} {o : ι}
  {pc : ObserverPc} {index : Fin clientMax} {entry : UserEntry}

/-- A row is half-way through after a step of an observer. -/
theorem halfWritten_update {i : Fin clientMax} {o' : ι}
    (h : (Function.update observer o pc o').halfWritten = some i) :
    (o' = o ∧ pc.halfWritten = some i) ∨ (o' ≠ o ∧ (observer o').halfWritten = some i) := by
  by_cases ho : o' = o
  · subst ho
    rw [Function.update_self] at h
    exact Or.inl ⟨rfl, h⟩
  · rw [Function.update_of_ne ho] at h
    exact Or.inr ⟨ho, h⟩

/-- A step that changes no text. -/
theorem RowsOk.frame (h : RowsOk observer d sorting l) (hpc : (observer o).halfWritten = none)
    (hpc' : pc.halfWritten = none) (hd : d.SameTexts d') (hl : l.data.SameTexts l'.data) :
    RowsOk (Function.update observer o pc) d' sorting l' := by
  have hback : ∀ o' i, (Function.update observer o pc o').halfWritten = some i →
      (observer o').halfWritten = some i := fun o' i hhalf => by
    rcases halfWritten_update hhalf with ⟨-, hhalf⟩ | ⟨-, hhalf⟩
    · rw [hpc'] at hhalf
      cases hhalf
    · exact hhalf
  refine ⟨fun o₁ o₂ i h₁ h₂ => h.distinct o₁ o₂ i (hback o₁ i h₁) (hback o₂ i h₂),
    fun o' i entry hwrite => ?_, fun hs i => ?_, fun hs i hnone => ?_⟩
  · rw [(hl i).2]
    by_cases ho : o' = o
    · rw [ho, Function.update_self] at hwrite
      rw [hwrite] at hpc'
      cases hpc'
    · rw [Function.update_of_ne ho] at hwrite
      exact h.string_half o' i entry hwrite
  · rw [(hd i).1, (hl i).1]
    exact h.tv hs i
  · rw [(hd i).2, (hl i).2]
    refine h.string hs i fun o' hhalf => ?_
    by_cases ho : o' = o
    · rw [ho, hpc] at hhalf
      cases hhalf
    · refine hnone o' ?_
      rw [Function.update_of_ne ho]
      exact hhalf

/-- **The first write of `add_entry`**: the call has its effect, the string is still to come. -/
theorem RowsOk.writeTv (h : RowsOk observer d sorting l) (hpc : (observer o).halfWritten = none)
    (hfree : ∀ o, (observer o).halfWritten ≠ some index) :
    RowsOk (Function.update observer o (.writeString index entry))
      { d with
        entryArray := Function.update d.entryArray index
          { d.entryArray index with tv := entry.tv } } sorting
      ⟨l.data.addEntry entry index, l.index⟩ := by
  refine ⟨fun o₁ o₂ i h₁ h₂ => ?_, fun o' i entry' hwrite => ?_, fun hs i => ?_,
    fun hs i hnone => ?_⟩
  · rcases halfWritten_update h₁ with ⟨ho₁, hi₁⟩ | ⟨-, hold₁⟩ <;>
      rcases halfWritten_update h₂ with ⟨ho₂, hi₂⟩ | ⟨-, hold₂⟩
    · exact ho₁.trans ho₂.symm
    · exact absurd hold₂ (Option.some.inj hi₁ ▸ hfree o₂)
    · exact absurd hold₁ (Option.some.inj hi₂ ▸ hfree o₁)
    · exact h.distinct o₁ o₂ i hold₁ hold₂
  · by_cases ho : o' = o
    · rw [ho, Function.update_self] at hwrite
      obtain ⟨rfl, rfl⟩ := ObserverPc.writeString.inj hwrite
      simp [ServerData.addEntry]
    · rw [Function.update_of_ne ho] at hwrite
      have hi : i ≠ index := by
        rintro rfl
        exact hfree o' (by rw [hwrite]; rfl)
      simp only [ServerData.addEntry, Function.update_of_ne hi]
      exact h.string_half o' i entry' hwrite
  · by_cases hi : i = index
    · rw [hi]
      simp [ServerData.addEntry]
    · simp only [ServerData.addEntry, Function.update_of_ne hi]
      exact h.tv hs i
  · have hi : i ≠ index := by
      rintro rfl
      refine hnone o ?_
      rw [Function.update_self]
      rfl
    simp only [ServerData.addEntry, Function.update_of_ne hi]
    refine h.string hs i fun o' hhalf => ?_
    by_cases ho : o' = o
    · rw [ho, hpc] at hhalf
      cases hhalf
    · refine hnone o' ?_
      rw [Function.update_of_ne ho]
      exact hhalf

/-- **The second write of `add_entry`**: the string of the call. -/
theorem RowsOk.writeString (h : RowsOk observer d sorting l)
    (hpc : observer o = .writeString index entry) (hpc' : pc.halfWritten = none) :
    RowsOk (Function.update observer o pc)
      { d with
        entryArray := Function.update d.entryArray index
          { d.entryArray index with string := entry.string } } sorting l := by
  have hhalf : (observer o).halfWritten = some index := by rw [hpc]; rfl
  have hback : ∀ o' i, (Function.update observer o pc o').halfWritten = some i →
      o' ≠ o ∧ (observer o').halfWritten = some i := fun o' i hi => by
    rcases halfWritten_update hi with ⟨-, hi⟩ | hi
    · rw [hpc'] at hi
      cases hi
    · exact hi
  refine ⟨fun o₁ o₂ i h₁ h₂ => h.distinct o₁ o₂ i (hback o₁ i h₁).2 (hback o₂ i h₂).2,
    fun o' i entry' hwrite => ?_, fun hs i => ?_, fun hs i hnone => ?_⟩
  · have hne := (hback o' i (by rw [hwrite]; rfl)).1
    rw [Function.update_of_ne hne] at hwrite
    exact h.string_half o' i entry' hwrite
  · by_cases hi : i = index
    · rw [hi]
      simp only [Function.update_self]
      exact h.tv hs index
    · simp only [Function.update_of_ne hi]
      exact h.tv hs i
  · by_cases hi : i = index
    · rw [hi]
      simp only [Function.update_self]
      exact (h.string_half o index entry hpc).symm
    · simp only [Function.update_of_ne hi]
      refine h.string hs i fun o' hi' => ?_
      by_cases ho : o' = o
      · rw [ho, hhalf] at hi'
        exact hi (Option.some.inj hi').symm
      · refine hnone o' ?_
        rw [Function.update_of_ne ho]
        exact hi'

end Rows

end C380.Notapp
