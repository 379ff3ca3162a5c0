import C380.Notapp.Screen

/-!
# The screens while everything runs

The server of `Threads.lean`, with the bytes on the socket of each user. No thread waits here: locks
are detected and escaped from, states are skipped, users join and leave at any time, and an observer
may write between any two strings that are sent.

* `Unmixed`: what is promised of each step. `observer_count` is not written while a user is between
  its header and its last string, and is not negative in a header; the string of a row is not
  written between the `strlen` and the `send` of a `send_string` of it; `qsort` moves the strings
  that it was called with; and what the observers add comes out of an `observer_thread`, on any
  input.
* `userScreens_interleaved`: **whatever else happens, every user shows the strings that were sent to
  it**, call by call, and reads to the last byte.
-/

namespace C380.Notapp

open LittleEndian Transition

/-! ## The record -/

/-- What is recorded: the data that `qsort` was called with last, the bytes that each user's client
was sent, and the strings of each call of `send_entries`. -/
structure Streams (κ : Type) where
  unsorted : ServerData
  bytes : κ → Bytes
  calls : κ → List (List String)

/-- Nothing is sent. -/
def Streams.init (κ : Type) : Streams κ := ⟨emptyServerData, fun _ => [], fun _ => []⟩

/-- What `send_string` sends: the size that `strlen` gave, and as many bytes of the row as `send`
finds it. Behind the NUL the buffer is taken to be zero. -/
def sendRow (strSize : ℕ) (string : String) : Bytes :=
  encode 8 strSize ++ (textBytes string ++ List.replicate bufSize 0).take strSize

/-- The last call sends one string more. -/
def extendLast (calls : List (List String)) (string : String) : List (List String) :=
  calls.dropLast ++ [calls.getLastD [] ++ [string]]

@[simp] theorem extendLast_concat (calls : List (List String)) (strings : List String)
    (string : String) :
    extendLast (calls ++ [strings]) string = calls ++ [strings ++ [string]] := by
  rw [extendLast, List.dropLast_concat, List.getLastD_concat]

section Record

variable {ι κ : Type} [DecidableEq κ]

/-- The stream of user `u` is replaced. -/
def Streams.set (h : Streams κ) (u : κ) (bytes : Bytes) (calls : List (List String)) : Streams κ :=
  { h with
    bytes := Function.update h.bytes u bytes
    calls := Function.update h.calls u calls }

/-- The record of a step of user `u`, at `pc` before it: a connection, the header of
`send_entries`, and a string with its size. -/
def Streams.user (h : Streams κ) (sh : Shared) (u : κ) : UserPc → Streams κ
  | .absent => h.set u [] []
  | .sendCount => h.set u (h.bytes u ++ intBytes sh.data.observerCount) (h.calls u ++ [[]])
  | .sendBytes i strSize =>
    h.set u (h.bytes u ++ sendRow strSize (sh.data.rowString i))
      (extendLast (h.calls u) (sh.data.rowString i))
  | _ => h

/-- The record of a step. -/
def Streams.record (s : System ι κ) (a : Action ι κ) (h : Streams κ) : Streams κ :=
  match a with
  | .sorter _ _ => if s.sorter = .loadArraySize then { h with unsorted := s.shared.data } else h
  | .user u _ => h.user s.shared u (s.user u)
  | _ => h

variable [DecidableEq ι]

/-- A step of the system with its record. -/
def streamStep (atomicIncrement : Bool) : System ι κ × Streams κ → Action ι κ →
    Option (System ι κ × Streams κ) :=
  withHistory (System.next atomicIncrement) Streams.record

end Record

/-- Between the header and the last test of the loop of `send_entries`. -/
def UserPc.inLoop : UserPc → Bool
  | .loopTest _ | .sendString _ | .sendBytes _ _ => true
  | _ => false

/-- The row whose size is sent already. -/
def UserPc.sized : UserPc → Option ℕ
  | .sendBytes i _ => some i
  | _ => none

/-- About to write `observer_count`. -/
def ObserverPc.writesCount : ObserverPc → Bool
  | .storeCount _ | .storeCountBack _ | .storeCountDown _ => true
  | _ => false

/-- The entry that the thread adds. -/
def ObserverPc.entry : ObserverPc → Option UserEntry
  | .gate _ entry | .enter _ entry | .writeTv _ entry | .writeString _ entry => some entry
  | _ => none

/-- What is promised of a step. -/
def Unmixed {ι κ : Type} (w : System ι κ × Streams κ) : Action ι κ → Prop
  | .timer => True
  | .sorter move _ => ∀ m ∈ move, (∃ i, m.2.string = (w.2.unsorted.entryArray i).string) ∧
    ∀ u, (w.1.user u).sized ≠ some m.1.val
  | .observer o input => (∀ entry ∈ input, UserEntry.OfThread entry) ∧
    ((w.1.observer o).writesCount = true → ∀ u, (w.1.user u).inLoop = false) ∧
    ∀ i ∈ (w.1.observer o).halfWritten, ∀ u, (w.1.user u).sized ≠ some i.val
  | .user u _ => w.1.user u = .sendCount → 0 ≤ w.1.shared.data.observerCount

/-! ## One stream -/

/-- Whole broadcasts. -/
def Closed (bytes : Bytes) (calls : List (List String)) : Prop :=
  ∃ bs : List Broadcast, bytes = bs.flatMap Broadcast.bytes ∧
    calls.map (List.map textBytes) = bs.map Broadcast.strings

/-- Behind whole broadcasts a header `n` and `i` strings. -/
def Opened (n : Int) (i : ℕ) (bytes : Bytes) (calls : List (List String)) : Prop :=
  ∃ (bytes₀ : Bytes) (calls₀ : List (List String)) (strings : List String), Closed bytes₀ calls₀ ∧
    bytes = bytes₀ ++ (intBytes n ++
      strings.flatMap fun string => sendString (textBytes string ++ [0])) ∧
    calls = calls₀ ++ [strings] ∧ strings.length = i ∧ (i : Int) ≤ n ∧ i ≤ clientMax ∧
    ∀ string ∈ strings, ∃ r : Row, r.bytes = textBytes string

/-- What is on the socket of a user at `pc`. -/
def UserStream (d : ServerData) (pc : UserPc) (bytes : Bytes) (calls : List (List String)) : Prop :=
  match pc with
  | .loopTest i => Opened d.observerCount i bytes calls
  | .sendString i => Opened d.observerCount i bytes calls ∧ (i : Int) < d.observerCount
  | .sendBytes i strSize => (Opened d.observerCount i bytes calls ∧ (i : Int) < d.observerCount) ∧
    i < clientMax ∧ strSize = (d.rowString i).length + 1
  | _ => Closed bytes calls

section Stream

variable {d d' : ServerData} {n : Int} {i : ℕ} {bytes : Bytes} {calls : List (List String)}

theorem closed_nil : Closed [] [] := ⟨[], rfl, rfl⟩

theorem Closed.opened (h : Closed bytes calls) (hn : 0 ≤ n) :
    Opened n 0 (bytes ++ intBytes n) (calls ++ [[]]) :=
  ⟨bytes, calls, [], h, by rw [List.flatMap_nil, List.append_nil], rfl, rfl, hn, Nat.zero_le _,
    fun _ hstring => absurd hstring List.not_mem_nil⟩

/-- A row that is not written between `strlen` and `send`. -/
theorem sendRow_eq {string : String} (hrow : ∃ r : Row, r.bytes = textBytes string) :
    sendRow (string.length + 1) string = sendString (textBytes string ++ [0]) := by
  obtain ⟨r, hr⟩ := hrow
  rw [sendString_append_nul (hr ▸ r.noNul), sendRow, ← length_textBytes,
    List.take_length_add_append]
  rfl

/-- One string more. -/
theorem Opened.string (h : Opened n i bytes calls) (hn : (i : Int) < n) (hi : i < clientMax)
    {string : String} (hrow : ∃ r : Row, r.bytes = textBytes string) :
    Opened n (i + 1) (bytes ++ sendRow (string.length + 1) string) (extendLast calls string) := by
  rw [sendRow_eq hrow]
  obtain ⟨bytes₀, calls₀, strings, hclosed, rfl, rfl, hlen, -, -, hrows⟩ := h
  refine ⟨bytes₀, calls₀, strings ++ [string], hclosed, ?_, extendLast_concat _ _ _, ?_, by omega,
    hi, fun s hs => ?_⟩
  · simp only [List.flatMap_append, List.flatMap_cons, List.flatMap_nil, List.append_nil,
      List.append_assoc]
  · rw [List.length_append, hlen]
    rfl
  · rcases List.mem_append.mp hs with hs | hs
    · exact hrows s hs
    · rw [List.mem_singleton.mp hs]
      exact hrow

/-- **The loop ends at the count of the header**, and the broadcast is whole. -/
theorem Opened.closed (h : Opened n i bytes calls) (hn : n ≤ i) : Closed bytes calls := by
  obtain ⟨bytes₀, calls₀, strings, ⟨bs, rfl, hcalls⟩, rfl, rfl, hlen, hle, hmax, hrows⟩ := h
  obtain ⟨b, hbytes, hstrings⟩ := broadcast_of_strings strings hrows (hlen.trans_le hmax)
  obtain rfl : n = strings.length := by omega
  refine ⟨bs ++ [b], ?_, ?_⟩
  · rw [List.flatMap_append, List.flatMap_cons, List.flatMap_nil, List.append_nil, hbytes]
  · rw [List.map_append, hcalls, List.map_append, List.map_cons, List.map_nil, List.map_cons,
      List.map_nil, hstrings]

/-- A user outside the loop of `send_entries` does not look at the count. -/
theorem userStream_iff {pc : UserPc} (hpc : pc.inLoop = false) :
    UserStream d pc bytes calls ↔ Closed bytes calls := by
  cases pc <;> first | rfl | cases hpc

/-- A user in the loop looks at the count, and at the row whose size is sent. -/
theorem UserStream.congr {pc : UserPc} (h : UserStream d pc bytes calls)
    (hcount : pc.inLoop = true → d'.observerCount = d.observerCount)
    (hrow : ∀ i, pc.sized = some i → d'.rowString i = d.rowString i) :
    UserStream d' pc bytes calls := by
  cases pc with
  | loopTest i =>
    unfold UserStream
    rw [hcount rfl]
    exact h
  | sendString i =>
    unfold UserStream
    rw [hcount rfl]
    exact h
  | sendBytes i strSize =>
    simp only [UserStream, hcount rfl, hrow i rfl]
    exact h
  | _ => exact h

/-- **The client decodes whole broadcasts.** -/
theorem Closed.userScreens (h : Closed bytes calls) (garbage : Garbages) :
    userScreens garbage bytes =
      some (calls.map fun strings => screen (strings.map textBytes)) := by
  obtain ⟨bs, rfl, hcalls⟩ := h
  have hscreens : (calls.map fun strings => screen (strings.map textBytes)) =
      (bs.map Broadcast.strings).map screen := by
    rw [← hcalls, List.map_map]
    rfl
  rw [hscreens, Notapp.userScreens, doUserClient, userLoop_broadcasts, Option.map_some]

end Stream

/-! ## What the steps do to the data -/

section Steps

variable {sh sh' : Shared}

/-- A user reads the data only. -/
theorem userStep_data {atomicIncrement alive : Bool} {pc pc' : UserPc}
    (h : userStep atomicIncrement sh alive pc = some (sh', pc')) : sh'.data = sh.data := by
  cases pc with
  | sendString i =>
    simp only [userStep, Option.dite_none_right_eq_some, Option.some.injEq, Prod.mk.injEq] at h
    obtain ⟨-, rfl, -⟩ := h
    rfl
  | loadDone =>
    rw [userStep] at h
    split at h <;> cases h <;> rfl
  | _ =>
    cases h
    rfl

/-- The sorter writes rows only, and only those of `qsort`. -/
theorem sorterStep_data {move : Option (Fin clientMax × UserEntry)} {countFirst : Bool}
    {pc pc' : SorterPc} (h : sorterStep sh move countFirst pc = some (sh', pc')) :
    sh'.data = sh.data ∨
      ∃ m ∈ move, sh'.data =
        { sh.data with entryArray := Function.update sh.data.entryArray m.1 m.2 } := by
  cases pc with
  | sort n =>
    cases move with
    | none =>
      cases h
      exact Or.inl rfl
    | some m =>
      simp only [sorterStep, Option.ite_none_right_eq_some, Option.some.injEq, Prod.mk.injEq] at h
      obtain ⟨-, rfl, -⟩ := h
      exact Or.inr ⟨m, rfl, rfl⟩
  | _ =>
    cases h
    exact Or.inl rfl

/-- A row that is not written has the string that it had. -/
theorem ServerData.rowString_update (d : ServerData) {index : Fin clientMax} (row : UserEntry)
    {i : ℕ} (hi : index.val ≠ i) : ServerData.rowString
      { d with entryArray := Function.update d.entryArray index row } i = d.rowString i := by
  unfold ServerData.rowString
  split
  · rename_i h
    have hne : (⟨i, h⟩ : Fin clientMax) ≠ index := fun heq => hi (congrArg Fin.val heq).symm
    simp only [Function.update_of_ne hne]
  · rfl

section Observer

variable {input : Option UserEntry} {pc pc' : ObserverPc}

theorem observerStep_count (h : observerStep sh input pc = some (sh', pc'))
    (hpc : pc.writesCount = false) : sh'.data.observerCount = sh.data.observerCount := by
  by_cases hbroadcast : pc.writesBroadcast = false
  · exact ((observerStep_frame h).broadcast hbroadcast).1
  · cases pc with
    | writeString index entry =>
      cases h
      rfl
    | storeCount n => cases hpc
    | storeCountBack n => cases hpc
    | storeCountDown n => cases hpc
    | _ => exact absurd rfl hbroadcast

theorem observerStep_rowString (h : observerStep sh input pc = some (sh', pc')) {i : ℕ}
    (hpc : ∀ j ∈ pc.halfWritten, j.val ≠ i) : sh'.data.rowString i = sh.data.rowString i := by
  by_cases hbroadcast : pc.writesBroadcast = false
  · exact ((observerStep_frame h).broadcast hbroadcast).rowString i
  · cases pc with
    | writeString index entry =>
      cases h
      exact sh.data.rowString_update _ (hpc index rfl)
    | storeCount n =>
      cases h
      rfl
    | storeCountBack n =>
      cases h
      rfl
    | storeCountDown n =>
      cases h
      rfl
    | _ => exact absurd rfl hbroadcast

/-- The entry of a thread is the empty one, or comes from its socket. -/
theorem observerStep_entry (h : observerStep sh input pc = some (sh', pc')) :
    ∀ entry ∈ pc'.entry, entry ∈ pc.entry ∨ entry = emptyEntry ∨ entry ∈ input := by
  intro entry hentry
  cases pc with
  | unlockRegister index =>
    cases h
    exact Or.inr (Or.inl (Option.some.inj hentry).symm)
  | readSocket index =>
    cases input with
    | none =>
      cases h
      cases hentry
    | some e =>
      cases h
      exact Or.inr (Or.inr hentry)
  | gate index e =>
    rw [observerStep] at h
    split at h <;> cases h <;> exact Or.inl hentry
  | enter index e =>
    cases h
    exact Or.inl hentry
  | writeTv index e =>
    cases index with
    | none => cases h
    | some index =>
      cases h
      exact Or.inl hentry
  | _ =>
    -- the other places lead to places without an entry
    simp only [observerStep] at h
    try split at h
    all_goals cases h
    all_goals first
      | cases hentry
      | (split at hentry <;> cases hentry)

/-- **An observer keeps the rows** if its own entry is one. -/
theorem ServerData.HoldsRows.observerStep (hd : sh.data.HoldsRows)
    (h : observerStep sh input pc = some (sh', pc'))
    (hentry : ∀ entry ∈ pc.entry, ∃ r : Row, r.bytes = textBytes entry.string) :
    sh'.data.HoldsRows := by
  cases observerCall_of_step h with
  | elsewhere hpc hpc' hlease hhalf hhalf' hcall hdata hmutex =>
    rw [hdata]
    exact hd
  | lock hfree => exact hd
  | register hpc hpc' hstep htexts => exact htexts.holdsRows hd
  | unlock index => exact hd
  | writeTv index entry => exact hd.update (hd index)
  | writeString index entry => exact hd.update (hentry entry rfl)
  | freeRow index => exact hd.update (hd index)
  | unregister hpc hpc' hstep htexts => exact htexts.holdsRows hd

end Observer

end Steps

/-! ## The invariant -/

/-- Everything that is or will be in the array is a row, and the streams are as their users are. -/
structure StreamsOk {ι κ : Type} (w : System ι κ × Streams κ) : Prop where
  rows : w.1.shared.data.HoldsRows
  unsorted : w.2.unsorted.HoldsRows
  held : ∀ o, ∀ entry ∈ (w.1.observer o).entry, ∃ r : Row, r.bytes = textBytes entry.string
  user : ∀ u, UserStream w.1.shared.data (w.1.user u) (w.2.bytes u) (w.2.calls u)

section Invariant

variable {ι κ : Type} {w w' : System ι κ × Streams κ}

theorem emptyEntry_row : ∃ r : Row, r.bytes = textBytes emptyEntry.string :=
  ⟨⟨[], List.not_mem_nil, by decide, Or.inl rfl⟩, rfl⟩

theorem streamsOk_init : StreamsOk (System.init ι κ, Streams.init κ) :=
  ⟨fun _ => emptyEntry_row, fun _ => emptyEntry_row, fun _ _ h => (nomatch h),
    fun _ => closed_nil⟩

/-- A step of the timer or the sorter: no stream, user or observer changes. -/
theorem StreamsOk.elsewhere (h : StreamsOk w) {sh' : Shared} {sorter' : SorterPc}
    {unsorted' : ServerData} (hrows : sh'.data.HoldsRows) (hunsorted : unsorted'.HoldsRows)
    (hcount : sh'.data.observerCount = w.1.shared.data.observerCount)
    (hsized : ∀ u i, (w.1.user u).sized = some i →
      sh'.data.rowString i = w.1.shared.data.rowString i) :
    StreamsOk ({ w.1 with shared := sh', sorter := sorter' },
      { w.2 with unsorted := unsorted' }) :=
  ⟨hrows, hunsorted, h.held, fun u => (h.user u).congr (fun _ => hcount) (hsized u)⟩

/-- **A step of an observer.** -/
theorem StreamsOk.observer [DecidableEq ι] (h : StreamsOk w) {o : ι} {input : Option UserEntry}
    {sh' : Shared} {pc' : ObserverPc}
    (hstep : observerStep w.1.shared input (w.1.observer o) = some (sh', pc'))
    (hinput : ∀ entry ∈ input, UserEntry.OfThread entry)
    (hcount : (w.1.observer o).writesCount = true → ∀ u, (w.1.user u).inLoop = false)
    (hsized : ∀ i ∈ (w.1.observer o).halfWritten, ∀ u, (w.1.user u).sized ≠ some i.val) :
    StreamsOk ({ w.1 with shared := sh', observer := Function.update w.1.observer o pc' },
      w.2) := by
  refine ⟨h.rows.observerStep hstep (h.held o), h.unsorted, fun o' entry hentry => ?_,
    fun u => ?_⟩
  · by_cases ho : o' = o
    · subst ho
      simp only [Function.update_self] at hentry
      rcases observerStep_entry hstep entry hentry with hold | rfl | hnew
      · exact h.held o' entry hold
      · exact emptyEntry_row
      · exact (hinput entry hnew).row
    · simp only [Function.update_of_ne ho] at hentry
      exact h.held o' entry hentry
  · refine (h.user u).congr (fun hloop => observerStep_count hstep ?_) fun i hi =>
      observerStep_rowString hstep fun j hj hji => hsized j hj u (hji ▸ hi)
    by_contra hwrites
    have hout := hcount (Bool.eq_true_of_not_eq_false hwrites) u
    rw [hloop] at hout
    cases hout

variable [DecidableEq κ]

/-- The stream of a user after its step. -/
theorem StreamsOk.userStream (h : StreamsOk w) {atomicIncrement alive : Bool} {u : κ}
    {sh' : Shared} {pc' : UserPc}
    (hstep : userStep atomicIncrement w.1.shared alive (w.1.user u) = some (sh', pc'))
    (hcount : w.1.user u = .sendCount → 0 ≤ w.1.shared.data.observerCount) :
    UserStream w.1.shared.data pc'
      ((w.2.user w.1.shared u (w.1.user u)).bytes u)
      ((w.2.user w.1.shared u (w.1.user u)).calls u) := by
  have hstream := h.user u
  generalize hpc : w.1.user u = pc at hstep hcount hstream
  cases pc with
  | absent =>
    cases hstep
    simp only [Streams.user, Streams.set, Function.update_self]
    exact closed_nil
  | sendCount =>
    cases hstep
    simp only [Streams.user, Streams.set, Function.update_self]
    exact Closed.opened hstream (hcount rfl)
  | loopTest i =>
    cases hstep
    by_cases hlt : (i : Int) < w.1.shared.data.observerCount
    · rw [if_pos hlt]
      exact ⟨hstream, hlt⟩
    · rw [if_neg hlt]
      exact Opened.closed hstream (not_lt.mp hlt)
  | sendString i =>
    rw [userStep, Option.dite_none_right_eq_some] at hstep
    obtain ⟨hi, hstep⟩ := hstep
    cases hstep
    exact ⟨hstream, hi, by rw [ServerData.rowString_eq _ hi]⟩
  | sendBytes i strSize =>
    obtain ⟨⟨hopened, hlt⟩, hi, rfl⟩ := hstream
    cases hstep
    simp only [Streams.user, Streams.set, Function.update_self]
    exact hopened.string hlt hi (h.rows.rowString i)
  | loadDone =>
    rw [userStep] at hstep
    split at hstep <;> cases hstep <;> exact hstream
  | waitReading =>
    cases hstep
    split <;> exact hstream
  | waitReadingLock =>
    cases hstep
    split <;> exact hstream
  | readSocket =>
    cases hstep
    split <;> exact hstream
  | waitEnd =>
    cases hstep
    split <;> exact hstream
  | waitEndLock =>
    cases hstep
    split <;> exact hstream
  | _ =>
    cases hstep
    exact hstream

theorem Streams.user_of_ne (h : Streams κ) (sh : Shared) {u v : κ} (hv : v ≠ u) (pc : UserPc) :
    (h.user sh u pc).bytes v = h.bytes v ∧ (h.user sh u pc).calls v = h.calls v := by
  cases pc with
  | absent | sendCount | sendBytes i strSize =>
    simp only [Streams.user, Streams.set, Function.update_of_ne hv, and_self]
  | _ => exact ⟨rfl, rfl⟩

theorem Streams.user_unsorted (h : Streams κ) (sh : Shared) (u : κ) (pc : UserPc) :
    (h.user sh u pc).unsorted = h.unsorted := by
  cases pc <;> rfl

/-- **A step of a user.** -/
theorem StreamsOk.userStep (h : StreamsOk w) {atomicIncrement alive : Bool} {u : κ}
    {sh' : Shared} {pc' : UserPc}
    (hstep : Notapp.userStep atomicIncrement w.1.shared alive (w.1.user u) = some (sh', pc'))
    (hcount : w.1.user u = .sendCount → 0 ≤ w.1.shared.data.observerCount) :
    StreamsOk ({ w.1 with shared := sh', user := Function.update w.1.user u pc' },
      w.2.user w.1.shared u (w.1.user u)) := by
  have hdata := userStep_data hstep
  refine ⟨?_, ?_, h.held, fun v => ?_⟩
  · simp only [hdata]
    exact h.rows
  · simp only [Streams.user_unsorted]
    exact h.unsorted
  · simp only [hdata]
    by_cases hv : v = u
    · subst hv
      rw [Function.update_self]
      exact h.userStream hstep hcount
    · obtain ⟨hbytes, hcalls⟩ := w.2.user_of_ne w.1.shared hv (w.1.user u)
      rw [Function.update_of_ne hv, hbytes, hcalls]
      exact h.user v

variable [DecidableEq ι]

/-- Every step that `Unmixed` allows keeps the invariant. -/
theorem StreamsOk.step {atomicIncrement : Bool} {a : Action ι κ} (h : StreamsOk w)
    (hg : Unmixed w a) (hs : streamStep atomicIncrement w a = some w') : StreamsOk w' := by
  obtain ⟨t, r⟩ := w'
  obtain ⟨hs, rfl⟩ := withHistory_eq_some_iff.mp hs
  cases a with
  | timer =>
    obtain rfl := Option.some.inj hs
    exact h.elsewhere h.rows h.unsorted rfl fun _ _ _ => rfl
  | sorter move countFirst =>
    obtain ⟨⟨sh', pc'⟩, hstep, rfl⟩ := Option.map_eq_some_iff.mp hs
    have hrecord : Streams.record w.1 (.sorter move countFirst) w.2 = { w.2 with
        unsorted := if w.1.sorter = .loadArraySize then w.1.shared.data else w.2.unsorted } := by
      simp only [Streams.record]
      split <;> rfl
    have hunsorted : ServerData.HoldsRows
        (if w.1.sorter = .loadArraySize then w.1.shared.data else w.2.unsorted) := by
      split
      · exact h.rows
      · exact h.unsorted
    rw [hrecord]
    rcases sorterStep_data hstep with hdata | ⟨m, hm, hdata⟩
    · exact h.elsewhere (hdata ▸ h.rows) hunsorted (congrArg ServerData.observerCount hdata)
        fun _ i _ => congrArg (ServerData.rowString · i) hdata
    · -- `qsort` writes a string that it was called with
      obtain ⟨⟨i, hi⟩, hsized⟩ := hg m hm
      refine h.elsewhere ?_ hunsorted (by rw [hdata]) fun u j hj => ?_
      · rw [hdata]
        exact h.rows.update (hi ▸ h.unsorted i)
      · rw [hdata]
        exact w.1.shared.data.rowString_update _ fun heq => hsized u (heq ▸ hj)
  | observer o input =>
    obtain ⟨⟨sh', pc'⟩, hstep, rfl⟩ := Option.map_eq_some_iff.mp hs
    exact h.observer hstep hg.1 hg.2.1 hg.2.2
  | user u alive =>
    obtain ⟨⟨sh', pc'⟩, hstep, rfl⟩ := Option.map_eq_some_iff.mp hs
    exact h.userStep hstep hg

end Invariant

/-- **Every user sees what is sent to it**, in every run of the server that `Unmixed` allows, at
every moment at which the user is not in the loop of `send_entries`: its client has shown, for each
call since it connected, the strings that the call sent, and has read to the last byte. -/
theorem userScreens_interleaved {ι κ : Type} [DecidableEq ι] [DecidableEq κ]
    (atomicIncrement : Bool) (w : System ι κ × Streams κ)
    (h : Reach (fun w a w' => streamStep atomicIncrement w a = some w') Unmixed
      (System.init ι κ, Streams.init κ) w)
    (garbage : Garbages) (u : κ) (hout : (w.1.user u).inLoop = false) :
    userScreens garbage (w.2.bytes u) =
      some ((w.2.calls u).map fun strings => screen (strings.map textBytes)) := by
  have hok := Reach.invariant streamsOk_init (fun _ _ _ hok hg hs => hok.step hg hs) h
  exact ((userStream_iff hout).mp (hok.user u)).userScreens garbage

/-! ### An observer leaves while its row is sent -/

/-- The steps of the run are allowed: `qsort` writes nothing, and there is one file. -/
def Scripted (w : System Unit Unit × Streams Unit) : Action Unit Unit → Prop
  | .timer => True
  | .sorter move _ => move = none
  | .observer o input => (input = none ∨ input = some createdEntry) ∧
    ((w.1.observer o).writesCount = true → ∀ u, (w.1.user u).inLoop = false) ∧
    ∀ i ∈ (w.1.observer o).halfWritten, ∀ u, (w.1.user u).sized ≠ some i.val
  | .user u _ => w.1.user u = .sendCount → 0 ≤ w.1.shared.data.observerCount

instance (w : System Unit Unit × Streams Unit) :
    (a : Action Unit Unit) → Decidable (Scripted w a)
  | .timer => .isTrue trivial
  | .sorter move _ => inferInstanceAs (Decidable (move = none))
  | .observer _ _ => inferInstanceAs (Decidable (_ ∧ _))
  | .user _ _ => inferInstanceAs (Decidable (_ → _))

theorem unmixed_of_scripted (w : System Unit Unit × Streams Unit)
    (a : Action Unit Unit) (h : Scripted w a) : Unmixed w a := by
  cases a with
  | timer => trivial
  | sorter move countFirst =>
    obtain rfl := h
    exact fun m hm => absurd hm (Option.not_mem_none m)
  | observer o input =>
    refine ⟨fun entry hentry => ?_, h.2⟩
    rcases h.1 with rfl | rfl
    · exact absurd hentry (Option.not_mem_none entry)
    · rw [← Option.some.inj hentry]
      exact createdEntry_ofThread
  | user u alive => exact h

/-- An observer adds its row, and gives it back between the header and the row that a user is
sent. -/
def leavesMeanwhile : List (Action Unit Unit) :=
  [List.replicate 16 (.observer () none), List.replicate 6 (.observer () (some createdEntry)),
    [.timer], List.replicate 8 (.sorter none), List.replicate 5 (.user () true),
    List.replicate 2 (.observer () none), List.replicate 5 (.user () true),
    List.replicate 5 (.observer () none)].flatten

set_option maxRecDepth 4000 in
theorem userScreens_interleaved_leaves : ∃ w : System Unit Unit × Streams Unit,
    w.1.observer () = .absent ∧
      userScreens (fun _ => ⟨fun _ => 0, fun _ => 0⟩) (w.2.bytes ()) = some [
        textBytes clientHeader ++
          textBytes "7.000042\t10.0.0.7\t/tmp\ta IN_CREATE \n"] := by
  obtain ⟨w, hw, hp⟩ := Reach.exists_of_foldlM (streamStep true) Scripted
    (System.init Unit Unit, Streams.init Unit) leavesMeanwhile
    (fun w => decide (w.1.observer () = .absent ∧ w.1.user () = .waitEnd ∧
      w.2.calls () = [[createdEntry.string]])) rfl
  obtain ⟨habsent, huser, hcalls⟩ := of_decide_eq_true hp
  have hscreens := userScreens_interleaved true w (hw.mono unmixed_of_scripted)
    (fun _ => ⟨fun _ => 0, fun _ => 0⟩) () (by rw [huser]; rfl)
  refine ⟨w, habsent, hscreens.trans ?_⟩
  rw [hcalls]
  decide

end C380.Notapp
