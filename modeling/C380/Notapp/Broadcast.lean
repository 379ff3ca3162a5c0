import C380.Notapp.Threads

/-!
# The broadcast of a `READING` phase

A call of `send_entries` is recorded with the phase it starts in, the count and the strings it
sends, each with the size that is sent before it; it is finished in a phase when it starts and ends
in it. `ConsistentBroadcast` says that the calls finished in one phase sent the same.

* `consistentBroadcast_lost`: a user sends the count 0, an observer registers in the middle of the
  phase, and the next user sends the count 1.
* `consistentBroadcast_of_quiet`: **the broadcast is consistent in every run whose phases are
  quiet** (`QuietReading`): once a call of `send_entries` has started in a `READING` phase, no
  observer writes `observer_count` or a string before the phase ends.

`BroadcastOk` is the invariant: in a quiet phase what is sent so far is what the rows hold now.
-/

namespace C380.Notapp

open Transition

/-- A call of `send_entries`: the phase it started in (`none` when the state was not `READING`) and
what it has sent, for each `send_string` the size and the string of the row whose bytes it sends. -/
structure Send where
  phase : Option ℕ
  count : Int
  strings : List (ℕ × String)
  deriving DecidableEq

/-- What is recorded of the broadcasts: the number of `READING` phases so far, whether a call has
started since the last one began, the last call of each user, and the calls finished in the phase
they started in. -/
structure Sends (κ : Type) where
  phase : ℕ
  started : Bool
  current : κ → Option Send
  finished : List Send

/-- Nothing is sent. -/
def Sends.init (κ : Type) : Sends κ := ⟨0, false, fun _ => none, []⟩

/-- The string that `send_entries` sends for `i`. -/
def ServerData.rowString (d : ServerData) (i : ℕ) : String :=
  if h : i < clientMax then (d.entryArray ⟨i, h⟩).string else ""

/-- The strings of the rows below `n`. -/
def ServerData.strings (d : ServerData) (n : ℕ) : List String := (List.range n).map d.rowString

/-- The strings of the rows below `n`, with their sizes. -/
def ServerData.sizedStrings (d : ServerData) (n : ℕ) : List (ℕ × String) :=
  (d.strings n).map fun string => (string.length + 1, string)

variable {ι κ : Type} [DecidableEq ι] [DecidableEq κ]

/-- `send_entries` starts, with the count. -/
def Sends.start (h : Sends κ) (sh : Shared) (u : κ) : Sends κ :=
  { h with
    started := true
    current := Function.update h.current u
      (some ⟨sh.readingPhase h.phase, sh.data.observerCount, []⟩) }

/-- `send_entries` sends the bytes of string `i`, after the size `strSize`. -/
def Sends.push (h : Sends κ) (sh : Shared) (u : κ) (i strSize : ℕ) : Sends κ :=
  { h with
    current := Function.update h.current u ((h.current u).map fun x =>
      { x with strings := x.strings ++ [(strSize, sh.data.rowString i)] }) }

/-- `send_entries` ends; the call is kept if this is the phase it started in. -/
def Sends.finish (h : Sends κ) (sh : Shared) (u : κ) : Sends κ :=
  { h with
    finished := h.finished ++ (h.current u).toList.filter fun x =>
      decide (x.phase ≠ none ∧ x.phase = sh.readingPhase h.phase) }

/-- The record of a step of user `u`, at `pc` before it. -/
def Sends.user (atomicIncrement : Bool) (h : Sends κ) (sh : Shared) (u : κ) : UserPc → Sends κ
  | .sendCount => h.start sh u
  | .sendBytes i strSize => h.push sh u i strSize
  | .loadDone => if atomicIncrement then h.finish sh u else h
  | .storeDone _ => h.finish sh u
  | _ => h

/-- The record of a step. -/
def Sends.record (atomicIncrement : Bool) (s : System ι κ) (a : Action ι κ) (h : Sends κ) :
    Sends κ :=
  match a with
  | .sorter _ _ => if s.sorter = .setReading then { h with phase := h.phase + 1, started := false }
    else h
  | .user u _ => h.user atomicIncrement s.shared u (s.user u)
  | _ => h

/-- A step of the system with its record. -/
def sendStep (atomicIncrement : Bool) : System ι κ × Sends κ → Action ι κ →
    Option (System ι κ × Sends κ) :=
  withHistory (System.step atomicIncrement) (Sends.record atomicIncrement)

/-- Recording restricts no run. -/
theorem reach_sendStep_iff (atomicIncrement : Bool) (s : System ι κ) :
    (∃ h, Reach (fun w a w' => sendStep atomicIncrement w a = some w') (fun _ _ => True)
      (System.init ι κ, Sends.init κ) (s, h)) ↔
    Reach (fun s a s' => System.step atomicIncrement s a = some s') (fun _ _ => True)
      (System.init ι κ) s :=
  reach_withHistory_iff fun _ _ => True

/-- The calls finished in one phase sent the same count and the same strings. -/
def ConsistentBroadcast (h : Sends κ) : Prop :=
  ∀ x ∈ h.finished, ∀ y ∈ h.finished, x.phase = y.phase → x.count = y.count ∧ x.strings = y.strings

/-- No observer writes `observer_count` or a string once a call of `send_entries` has started in a
`READING` phase. -/
def QuietReading (w : System ι κ × Sends κ) : Action ι κ → Prop
  | .observer o _ => w.1.shared.serverState = .reading → w.2.started = true →
    (w.1.observer o).writesBroadcast = false
  | _ => True

/-! ## The invariant -/

/-- All that is to be sent. -/
def Send.Complete (x : Send) (d : ServerData) : Prop :=
  x.count = d.observerCount ∧ x.strings = d.sizedStrings d.observerCount.toNat

/-- What a user at `pc` has sent so far. -/
def Send.Progress (x : Send) (d : ServerData) : UserPc → Prop
  | .loopTest i =>
    x.count = d.observerCount ∧ x.strings = d.sizedStrings i ∧ i ≤ d.observerCount.toNat
  | .sendString i =>
    x.count = d.observerCount ∧ x.strings = d.sizedStrings i ∧ i + 1 ≤ d.observerCount.toNat
  | .sendBytes i strSize => x.count = d.observerCount ∧
    x.strings ++ [(strSize, d.rowString i)] = d.sizedStrings (i + 1) ∧
      i + 1 ≤ d.observerCount.toNat
  | .loadDone | .storeDone _ => x.Complete d
  | _ => True

/-- The invariant of the broadcasts. -/
structure BroadcastOk (w : System ι κ × Sends κ) : Prop where
  phase : w.1.shared.serverState = w.1.sorter.phase
  current_le : ∀ u x p, w.2.current u = some x → x.phase = some p → p ≤ w.2.phase
  finished_le : ∀ x ∈ w.2.finished, ∃ p, x.phase = some p ∧ p ≤ w.2.phase
  consistent : ConsistentBroadcast w.2
  running : w.1.shared.serverState = .reading → ∀ u x, w.2.current u = some x →
    x.phase = some w.2.phase → w.2.started = true ∧ x.Progress w.1.shared.data (w.1.user u)
  complete : w.1.shared.serverState = .reading → ∀ x ∈ w.2.finished,
    x.phase = some w.2.phase → w.2.started = true ∧ x.Complete w.1.shared.data

variable {w : System ι κ × Sends κ}

omit [DecidableEq ι] [DecidableEq κ] in
theorem broadcastOk_init : BroadcastOk (System.init ι κ, Sends.init κ) :=
  ⟨rfl, fun _ _ _ h => (nomatch h), fun _ h => (nomatch h), fun _ h => (nomatch h),
    fun h => (nomatch h), fun h => (nomatch h)⟩

theorem ServerData.SameBroadcast.rowString {d d' : ServerData} (h : d.SameBroadcast d') (i : ℕ) :
    d'.rowString i = d.rowString i := by
  unfold ServerData.rowString
  split
  · exact h.2 _
  · rfl

theorem ServerData.SameBroadcast.strings {d d' : ServerData} (h : d.SameBroadcast d') (n : ℕ) :
    d'.strings n = d.strings n :=
  List.map_congr_left fun i _ => h.rowString i

theorem ServerData.SameBroadcast.sizedStrings {d d' : ServerData} (h : d.SameBroadcast d')
    (n : ℕ) : d'.sizedStrings n = d.sizedStrings n := by
  unfold ServerData.sizedStrings
  rw [h.strings]

theorem Send.Complete.congr {x : Send} {d d' : ServerData} (hx : x.Complete d)
    (h : d.SameBroadcast d') : x.Complete d' := by
  refine ⟨hx.1.trans h.1.symm, ?_⟩
  rw [h.sizedStrings, h.1]
  exact hx.2

theorem Send.Progress.congr {x : Send} {d d' : ServerData} {pc : UserPc} (hx : x.Progress d pc)
    (h : d.SameBroadcast d') : x.Progress d' pc := by
  cases pc with
  | loopTest i =>
    obtain ⟨hcount, hstrings, hle⟩ := hx
    exact ⟨hcount.trans h.1.symm, hstrings.trans (h.sizedStrings i).symm, h.1.symm ▸ hle⟩
  | sendString i =>
    obtain ⟨hcount, hstrings, hle⟩ := hx
    exact ⟨hcount.trans h.1.symm, hstrings.trans (h.sizedStrings i).symm, h.1.symm ▸ hle⟩
  | sendBytes i strSize =>
    obtain ⟨hcount, hstrings, hle⟩ := hx
    refine ⟨hcount.trans h.1.symm, ?_, h.1.symm ▸ hle⟩
    rw [h.rowString, h.sizedStrings]
    exact hstrings
  | loadDone => exact Send.Complete.congr hx h
  | storeDone n => exact Send.Complete.congr hx h
  | _ => trivial

/-! ## The steps of the sorter and the observers -/

omit [DecidableEq ι] [DecidableEq κ] in
/-- A step that records nothing and moves no user. -/
theorem BroadcastOk.unrecorded (h : BroadcastOk w) {t : System ι κ}
    (hphase : t.shared.serverState = t.sorter.phase) (huser : t.user = w.1.user)
    (hdata : t.shared.serverState = .reading → w.1.shared.serverState = .reading ∧
      (w.2.started = true → w.1.shared.data.SameBroadcast t.shared.data)) :
    BroadcastOk (t, w.2) := by
  refine ⟨hphase, h.current_le, h.finished_le, h.consistent, fun hr u x hx hp => ?_,
    fun hr x hx hp => ?_⟩
  · obtain ⟨hstarted, hprogress⟩ := h.running (hdata hr).1 u x hx hp
    refine ⟨hstarted, ?_⟩
    rw [huser]
    exact hprogress.congr ((hdata hr).2 hstarted)
  · obtain ⟨hstarted, hcomplete⟩ := h.complete (hdata hr).1 x hx hp
    exact ⟨hstarted, hcomplete.congr ((hdata hr).2 hstarted)⟩

/-- A step of the sorter into a place of the phase `READING` sets the state, or leaves the data as
they are. -/
theorem SorterMove.reading_back {sh sh' : Shared} {pc pc' : SorterPc}
    (h : SorterMove sh pc sh' pc') (hpc' : pc'.phase = .reading) :
    pc = .setReading ∨ pc.phase = .reading ∧ sh'.data = sh.data := by
  cases h with
  | idle hpc hdone hsh =>
    rw [hpc'] at hdone
    cases hdone
  | setReading => exact Or.inl rfl
  | loadReaderDone => exact Or.inr ⟨rfl, rfl⟩
  | loadReaderCount => exact Or.inr ⟨rfl, rfl⟩
  | readersLeft readerDone hlt => exact Or.inr ⟨rfl, rfl⟩
  | readersDone readerDone hle => exact Or.inr ⟨rfl, rfl⟩
  | doneLeft readers hlt => exact Or.inr ⟨rfl, rfl⟩
  | doneEnough readers hle => exact Or.inr ⟨rfl, rfl⟩
  | loadAgain => exact Or.inr ⟨rfl, rfl⟩
  | reset => exact Or.inr ⟨rfl, rfl⟩
  | _ => cases hpc'

omit [DecidableEq ι] [DecidableEq κ] in
/-- A new phase begins: nothing recorded so far belongs to it. -/
theorem BroadcastOk.newPhase (h : BroadcastOk w) {t : System ι κ}
    (hphase : t.shared.serverState = t.sorter.phase) :
    BroadcastOk (t, { w.2 with phase := w.2.phase + 1, started := false }) := by
  refine ⟨hphase, fun u x p hx hp => ?_, fun x hx => ?_, h.consistent, fun _ u x hx hp => ?_,
    fun _ x hx hp => ?_⟩
  · exact (h.current_le u x p hx hp).trans (Nat.le_succ _)
  · obtain ⟨p, hp, hle⟩ := h.finished_le x hx
    exact ⟨p, hp, hle.trans (Nat.le_succ _)⟩
  · exact absurd (h.current_le u x _ hx hp) (Nat.not_succ_le_self _)
  · obtain ⟨p, hp', hle⟩ := h.finished_le x hx
    obtain rfl : p = w.2.phase + 1 := Option.some.inj (hp'.symm.trans hp)
    exact absurd hle (Nat.not_succ_le_self _)

/-! ## The steps of the users -/

section User

variable {u : κ} {pc pc' : UserPc} {sh' : Shared}

omit [DecidableEq ι] in
/-- A step of a user whose last call is recorded, by `current`, as `call` from now on. -/
theorem BroadcastOk.recorded (h : BroadcastOk w) (u : κ) (pc' : UserPc) (call : Option Send)
    (hstate : sh'.serverState = w.1.shared.serverState)
    (hdata : sh'.data = w.1.shared.data) (started : Bool)
    (hstarted : w.2.started = true → started = true)
    (hle : ∀ x p, call = some x → x.phase = some p → p ≤ w.2.phase)
    (hcall : w.1.shared.serverState = .reading → ∀ x, call = some x →
      x.phase = some w.2.phase → started = true ∧ x.Progress w.1.shared.data pc') :
    BroadcastOk ({ w.1 with shared := sh', user := Function.update w.1.user u pc' },
      { w.2 with started := started, current := Function.update w.2.current u call }) := by
  refine ⟨hstate.trans h.phase, fun u' x p hx hp => ?_, h.finished_le, h.consistent,
    fun hr u' x hx hp => ?_, fun hr x hx hp => ?_⟩
  · by_cases hu : u' = u
    · subst hu
      exact hle x p (by simpa using hx) hp
    · exact h.current_le u' x p (by simpa [Function.update_of_ne hu] using hx) hp
  · rw [hstate] at hr
    simp only [hdata]
    by_cases hu : u' = u
    · subst hu
      rw [Function.update_self]
      exact hcall hr x (by simpa using hx) hp
    · rw [Function.update_of_ne hu]
      obtain ⟨hst, hprogress⟩ := h.running hr u' x (by simpa [Function.update_of_ne hu] using hx) hp
      exact ⟨hstarted hst, hprogress⟩
  · rw [hstate] at hr
    simp only [hdata]
    obtain ⟨hst, hcomplete⟩ := h.complete hr x hx hp
    exact ⟨hstarted hst, hcomplete⟩

omit [DecidableEq ι] in
/-- A step of a user outside `send_entries`, or one that sends nothing. -/
theorem BroadcastOk.sendsNothing (h : BroadcastOk w) (hpc : w.1.user u = pc)
    (hstate : sh'.serverState = w.1.shared.serverState) (hdata : sh'.data = w.1.shared.data)
    (hprogress : ∀ x : Send, x.Progress w.1.shared.data pc → x.Progress w.1.shared.data pc') :
    BroadcastOk ({ w.1 with shared := sh', user := Function.update w.1.user u pc' }, w.2) := by
  have hok := h.recorded u pc' (w.2.current u) hstate hdata w.2.started id
    (h.current_le u) fun hr x hx hp => by
      obtain ⟨hst, hx⟩ := h.running hr u x hx hp
      exact ⟨hst, hprogress x (hpc ▸ hx)⟩
  rwa [Function.update_eq_self] at hok

omit [DecidableEq ι] in
theorem BroadcastOk.start (h : BroadcastOk w) :
    BroadcastOk ({ w.1 with user := Function.update w.1.user u (.loopTest 0) },
      w.2.start w.1.shared u) := by
  refine h.recorded u _ _ rfl rfl true (fun _ => rfl) (fun x p hx hp => ?_) fun hr x hx hp => ?_
  · cases hx
    exact (readingPhase_eq_some_iff.mp hp).2.ge
  · cases hx
    exact ⟨rfl, rfl, rfl, Nat.zero_le _⟩

theorem ServerData.strings_succ (d : ServerData) (n : ℕ) :
    d.strings (n + 1) = d.strings n ++ [d.rowString n] := by
  unfold ServerData.strings
  rw [List.range_succ, List.map_append]
  rfl

theorem ServerData.sizedStrings_succ (d : ServerData) (n : ℕ) : d.sizedStrings (n + 1) =
    d.sizedStrings n ++ [((d.rowString n).length + 1, d.rowString n)] := by
  unfold ServerData.sizedStrings
  rw [ServerData.strings_succ, List.map_append]
  rfl

theorem ServerData.rowString_eq (d : ServerData) {i : ℕ} (h : i < clientMax) :
    d.rowString i = (d.entryArray ⟨i, h⟩).string :=
  dif_pos h

omit [DecidableEq ι] in
theorem BroadcastOk.push (h : BroadcastOk w) {i strSize : ℕ}
    (hpc : w.1.user u = .sendBytes i strSize) :
    BroadcastOk ({ w.1 with user := Function.update w.1.user u (.loopTest (i + 1)) },
      w.2.push w.1.shared u i strSize) := by
  refine h.recorded u _ _ rfl rfl w.2.started id (fun y p hy hp => ?_) fun hr y hy hp => ?_
  · obtain ⟨x, hx, rfl⟩ := Option.map_eq_some_iff.mp hy
    exact h.current_le u x p hx hp
  · obtain ⟨x, hx, rfl⟩ := Option.map_eq_some_iff.mp hy
    obtain ⟨hst, hprogress⟩ := h.running hr u x hx hp
    rw [hpc] at hprogress
    obtain ⟨hcount, hstrings, hle⟩ := hprogress
    exact ⟨hst, hcount, hstrings, hle⟩

omit [DecidableEq ι] in
/-- **A finished call has sent what every call of its phase sends.** -/
theorem BroadcastOk.finish (h : BroadcastOk w) (hpc : w.1.user u = pc)
    (hcomplete : ∀ x : Send, x.Progress w.1.shared.data pc → x.Complete w.1.shared.data)
    (hstate : sh'.serverState = w.1.shared.serverState) (hdata : sh'.data = w.1.shared.data) :
    BroadcastOk ({ w.1 with shared := sh', user := Function.update w.1.user u .waitEnd },
      w.2.finish w.1.shared u) := by
  -- the call that is added, if any, started in the present phase and is complete
  have hnew : ∀ x ∈ (w.2.current u).toList.filter fun x =>
      decide (x.phase ≠ none ∧ x.phase = w.1.shared.readingPhase w.2.phase),
      w.1.shared.serverState = .reading ∧ x.phase = some w.2.phase ∧ w.2.started = true ∧
        x.Complete w.1.shared.data := by
    intro x hx
    rw [List.mem_filter, Option.mem_toList, decide_eq_true_iff] at hx
    obtain ⟨hx, hne, hnow⟩ := hx
    obtain ⟨p, hp⟩ := Option.ne_none_iff_exists'.mp hne
    obtain ⟨hr, rfl⟩ := readingPhase_eq_some_iff.mp (hnow.symm.trans hp)
    obtain ⟨hst, hprogress⟩ := h.running hr u x hx hp
    exact ⟨hr, hp, hst, hcomplete x (hpc ▸ hprogress)⟩
  -- so it agrees with the calls of this phase that are there already
  have hagree : ∀ x ∈ (w.2.current u).toList.filter fun x =>
      decide (x.phase ≠ none ∧ x.phase = w.1.shared.readingPhase w.2.phase), ∀ y,
      y ∈ (w.2.finish w.1.shared u).finished → x.phase = y.phase →
      x.count = y.count ∧ x.strings = y.strings := by
    intro x hx y hy hxy
    obtain ⟨hr, hp, -, hcount, hstrings⟩ := hnew x hx
    have hy : y.Complete w.1.shared.data := by
      rcases List.mem_append.mp hy with hy | hy
      · exact (h.complete hr y hy (hxy ▸ hp)).2
      · exact (hnew y hy).2.2.2
    exact ⟨hcount.trans hy.1.symm, hstrings.trans hy.2.symm⟩
  have hbase : BroadcastOk ({ w.1 with
      shared := sh', user := Function.update w.1.user u .waitEnd }, w.2) :=
    h.sendsNothing hpc hstate hdata fun _ _ => trivial
  refine ⟨hbase.phase, hbase.current_le, fun x hx => ?_, fun x hx y hy hxy => ?_, hbase.running,
    fun hr x hx hp => ?_⟩
  · rcases List.mem_append.mp hx with hx | hx
    · exact h.finished_le x hx
    · exact ⟨_, (hnew x hx).2.1, le_rfl⟩
  · rcases List.mem_append.mp hx with hx' | hx'
    · rcases List.mem_append.mp hy with hy' | hy'
      · exact h.consistent x hx' y hy' hxy
      · obtain ⟨hcount, hstrings⟩ := hagree y hy' x hx hxy.symm
        exact ⟨hcount.symm, hstrings.symm⟩
    · exact hagree x hx' y hy hxy
  · rcases List.mem_append.mp hx with hx | hx
    · exact hbase.complete hr x hx hp
    · simp only [hdata]
      exact (hnew x hx).2.2

omit [DecidableEq ι] in
theorem BroadcastOk.user (h : BroadcastOk w) {atomicIncrement alive : Bool}
    (hpc : w.1.user u = pc) (hmove : UserMove atomicIncrement alive w.1.shared pc sh' pc') :
    BroadcastOk ({ w.1 with shared := sh', user := Function.update w.1.user u pc' },
      w.2.user atomicIncrement w.1.shared u pc) := by
  have hframe := hmove.frame
  cases hmove with
  | sendCount => exact h.start
  | more i hlt =>
    refine h.sendsNothing hpc rfl rfl fun x hx => ?_
    obtain ⟨hcount, hstrings, -⟩ := hx
    exact ⟨hcount, hstrings, by omega⟩
  | noMore i hge =>
    refine h.sendsNothing hpc rfl rfl fun x hx => ?_
    obtain ⟨hcount, hstrings, hle⟩ := hx
    refine ⟨hcount, ?_⟩
    rw [hstrings, show i = w.1.shared.data.observerCount.toNat by omega]
  | sendString i hlt =>
    refine h.sendsNothing hpc rfl rfl fun x hx => ?_
    obtain ⟨hcount, hstrings, hle⟩ := hx
    refine ⟨hcount, ?_, hle⟩
    rw [ServerData.sizedStrings_succ, hstrings, ServerData.rowString_eq _ hlt]
  | sendBytes i strSize => exact h.push hpc
  | increment hatomic =>
    unfold Sends.user
    rw [if_pos hatomic]
    exact h.finish hpc (fun _ hx => hx) rfl rfl
  | loadDone hsplit =>
    rw [Sends.user, if_neg (by rw [hsplit]; decide)]
    exact h.sendsNothing hpc rfl rfl fun _ hx => hx
  | storeDone readerDone => exact h.finish hpc (fun _ hx => hx) rfl rfl
  | _ => exact h.sendsNothing hpc hframe.serverState hframe.data fun _ _ => trivial

end User

/-- Every step that `QuietReading` allows keeps the invariant. -/
theorem BroadcastOk.step {atomicIncrement : Bool} {a : Action ι κ} {w' : System ι κ × Sends κ}
    (h : BroadcastOk w) (hg : QuietReading w a) (hs : sendStep atomicIncrement w a = some w') :
    BroadcastOk w' := by
  obtain ⟨t, r⟩ := w'
  obtain ⟨hs, rfl⟩ := withHistory_eq_some_iff.mp hs
  cases systemMove_of_step hs with
  | timer sh' hsh =>
    exact h.unrecorded (hsh.serverState.trans h.phase) rfl fun hr =>
      ⟨hsh.serverState.symm.trans hr, fun _ => hsh.data ▸ sameBroadcast_refl _⟩
  | sorter move countFirst hmove =>
    have hphase := hmove.serverState h.phase
    by_cases hset : w.1.sorter = .setReading
    · simp only [Sends.record, if_pos hset]
      exact h.newPhase hphase
    · simp only [Sends.record, if_neg hset]
      refine h.unrecorded hphase rfl fun hr => ?_
      rcases hmove.reading_back (hphase.symm.trans hr) with hset' | ⟨hreading, hdata⟩
      · exact absurd hset' hset
      · exact ⟨h.phase.trans hreading, fun _ => hdata ▸ sameBroadcast_refl _⟩
  | observer o input hframe =>
    refine h.unrecorded (hframe.serverState.trans h.phase) rfl fun hr => ?_
    have hr' : w.1.shared.serverState = .reading := hframe.serverState.symm.trans hr
    exact ⟨hr', fun hst => hframe.broadcast (hg hr' hst)⟩
  | user u alive hmove => exact h.user rfl hmove

/-- **Consistent broadcast** in every state of every run whose phases are quiet. -/
theorem consistentBroadcast_of_quiet (atomicIncrement : Bool) (w : System ι κ × Sends κ)
    (h : Reach (fun w a w' => sendStep atomicIncrement w a = some w') QuietReading
      (System.init ι κ, Sends.init κ) w) : ConsistentBroadcast w.2 :=
  (Reach.invariant broadcastOk_init (fun _ _ _ hok hg hs => hok.step hg hs) h).consistent

/-! ## Two runs -/

instance (w : System ι κ × Sends κ) : (a : Action ι κ) → Decidable (QuietReading w a)
  | .observer o _ => inferInstanceAs (Decidable (w.1.shared.serverState = .reading →
      w.2.started = true → (w.1.observer o).writesBroadcast = false))
  | .timer | .sorter _ _ | .user _ _ => inferInstanceAs (Decidable True)

/-- From the start to `READING`. -/
def toReading : List (Action ℕ ℕ) := .timer :: List.replicate 8 (.sorter none)

/-- An observer registers, the sorter goes on to `READING`, and two users send one string. -/
def quietRun : List (Action ℕ ℕ) :=
  List.replicate 16 (.observer 0 none) ++ toReading ++ List.replicate 11 (.user 0 true) ++
    List.replicate 11 (.user 1 true)

theorem consistentBroadcast_of_quiet_run : ∃ h : Sends ℕ,
    h.finished = [⟨some 1, 1, [(1, "")]⟩, ⟨some 1, 1, [(1, "")]⟩] ∧ ConsistentBroadcast h := by
  obtain ⟨w, hw, hp⟩ := Reach.exists_of_foldlM (sendStep false) QuietReading
    (System.init ℕ ℕ, Sends.init ℕ) quietRun
    (fun w => decide (w.2.finished = [⟨some 1, 1, [(1, "")]⟩, ⟨some 1, 1, [(1, "")]⟩])) rfl
  exact ⟨w.2, of_decide_eq_true hp, consistentBroadcast_of_quiet false w hw⟩

/-- The sorter goes on to `READING`, a user sends, an observer registers, and another user sends. -/
def registerInReadingRun : List (Action ℕ ℕ) :=
  toReading ++ List.replicate 8 (.user 0 true) ++ List.replicate 4 (.observer 0 none) ++
    List.replicate 11 (.user 1 true)

/-- **Two broadcasts in one phase**: the first user sends no string, the second one. -/
theorem consistentBroadcast_lost : ∃ w : System ℕ ℕ × Sends ℕ,
    Reach (fun w a w' => sendStep false w a = some w') (fun _ _ => True)
      (System.init ℕ ℕ, Sends.init ℕ) w ∧ ¬ ConsistentBroadcast w.2 := by
  obtain ⟨w, hw, hp⟩ := Reach.exists_of_foldlM (sendStep false) (fun _ _ => True)
    (System.init ℕ ℕ, Sends.init ℕ) registerInReadingRun
    (fun w => decide (w.2.finished = [⟨some 1, 0, []⟩, ⟨some 1, 1, [(1, "")]⟩])) rfl
  refine ⟨w, hw, fun h => ?_⟩
  have hfinished := of_decide_eq_true hp
  have hcount := (h ⟨some 1, 0, []⟩ (by rw [hfinished]; exact List.mem_cons_self)
    ⟨some 1, 1, [(1, "")]⟩ (by
      rw [hfinished]
      exact List.mem_cons_of_mem _ List.mem_cons_self) rfl).1
  exact absurd hcount (by decide)

end C380.Notapp
