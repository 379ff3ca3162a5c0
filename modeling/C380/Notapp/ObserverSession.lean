import C380.Notapp.RowText

/-!
# An observer from connect to disconnect (`Assignment02/`)

`do_observer_client` sends its identity, the monitored path and its address, and then a message for
each event. `do_server` reads the identity and starts an `observer_thread`, which copies the two
strings to buffers of 1024 and 17 characters, adds an empty entry, and adds a row for each message.

* `serve`: what becomes of a connection, `none` where a buffer is left, `NULL` is copied, or a
  string has no end. The thread is one that `register_observer` gives an index.
* `serve_session_iff`: **the entries are the rows of the events, one each and in order, with the
  disconnect message at the end, iff** the path fits into its buffer, neither it nor a name is taken
  for a disconnect, and every row has at most 1023 characters.
-/

namespace C380.Notapp

open CText LittleEndian

/-! ## The server's side -/

/-- What `observer_thread` passes to `add_entry`. -/
structure Entry where
  tv : Timeval
  string : Bytes
  deriving DecidableEq, Repr

/-- The entries that a thread adds, the bytes left, and how its loop ends. -/
structure ThreadRun where
  entries : List Entry
  left : Bytes
  exit : ObserverExit
  deriving DecidableEq, Repr

/-- The run with entries before it. -/
def ThreadRun.after (entries : List Entry) (run : ThreadRun) : ThreadRun :=
  { run with entries := entries ++ run.entries }

@[simp] theorem ThreadRun.after_exit (entries : List Entry) (run : ThreadRun) :
    (run.after entries).exit = run.exit := rfl

/-- What the loop of `observer_thread` makes of a notification; `named` says whether its `len` is
not 0. -/
def Notification.entry (monitored host : Bytes) (n : Notification) (named : Bool) : Option Entry :=
  (assembleRow monitored host n.tv (if named then some n.name else none) n.mask).map (Entry.mk n.tv)

/-- The loop of `observer_thread`, with `add_entry`. The variable `notification` is new in every
round and holds `garbage`, one for each number of bytes that are left. -/
def threadLoop (monitored host : Bytes) (garbage : ℕ → Memory) (eventLoc : Memory)
    (input : Bytes) : Option ThreadRun :=
  let notification := store (readBytes 40 input).1 (garbage input.length)
  let rest := (readBytes 40 input).2
  let len := loadAt 4 36 notification
  if input.length = 0 then some ⟨[], rest, .closed⟩
  else if loadAt 4 0 notification = 1 then some ⟨[], rest, .disconnection⟩
  else if len = 0 then
    let eventLoc := store [0] eventLoc
    ((notify notification eventLoc).entry monitored host false).bind fun entry =>
      (threadLoop monitored host garbage eventLoc rest).map (ThreadRun.after [entry])
  else
    let name := (readBytes (nameSize len) rest).1
    let rest' := (readBytes (nameSize len) rest).2
    -- `event_loc` is written before it is looked at
    if bufSize < name.length then none
    else
      let eventLoc := store name eventLoc
      if isDisconnect eventLoc ∨ name.length = 0 then some ⟨[], rest', .name⟩
      else ((notify notification eventLoc).entry monitored host true).bind fun entry =>
        (threadLoop monitored host garbage eventLoc rest').map (ThreadRun.after [entry])
  termination_by input.length
  decreasing_by
    all_goals
      simp only [readBytes, List.length_drop]
      omega

/-- `strcpy` of a block that `read_string` returned. -/
def strcpyBlock (size : ℕ) (str : Bytes) : Option Bytes :=
  if 0 ∈ str then strcpy size (cstring str) else none

/-- What the variables of a thread hold before anything is stored there. -/
structure ThreadGarbage where
  clientId : Memory
  monitored : Garbage
  host : Garbage
  eventLoc : Memory
  notification : ℕ → Memory

/-- `observer_thread`, for a thread that `register_observer` gives an index: what it adds. -/
def observerThreadRun (garbage : ThreadGarbage) (input : Bytes) : Option ThreadRun := do
  let (tmpMonitored, input) ← readString garbage.monitored input
  let monitored ← strcpyBlock bufSize tmpMonitored
  let (ipHost, input) ← readString garbage.host input
  let host ← strcpyBlock 17 ipHost
  let run ← threadLoop monitored host garbage.notification garbage.eventLoc input
  some (run.after [⟨⟨0, 0⟩, []⟩])

/-- What becomes of a connection that `do_server` accepts; a user's is left to `user_thread`. -/
inductive Served where
  | closed
  | observer (run : ThreadRun)
  | user (input : Bytes)
  | unknown
  deriving DecidableEq, Repr

/-- The body of the loop of `do_server` from the `read` of the identity on. -/
def serve (garbage : ThreadGarbage) (input : Bytes) : Option Served :=
  let clientId := store (readBytes 4 input).1 garbage.clientId
  let rest := (readBytes 4 input).2
  if input.length = 0 then some .closed
  else if loadInt clientId = 0 then (observerThreadRun garbage rest).map .observer
  else if loadInt clientId = 1 then some (.user rest)
  else some .unknown

/-! ## The client's side -/

/-- Seconds after 1970 and less than a million microseconds. -/
structure Stamp.Plausible (s : Stamp) : Prop where
  sec_nonneg : 0 ≤ s.tv.tvSec
  usec_nonneg : 0 ≤ s.tv.tvUsec
  usec_lt : s.tv.tvUsec < 10 ^ 6

/-- What `do_observer_client` works on: `arg.fileordir`, an argument of the program, `IPbuffer`, a
dotted quad, and the buffers that `inotify` fills. -/
structure ObserverSession where
  fileordir : Bytes
  ipBuffer : Bytes
  deliveries : List Delivery
  path_noNul : 0 ∉ fileordir
  path_short : fileordir.length < 131072
  ip_dotted : ∀ b ∈ ipBuffer, b = 46 ∨ 48 ≤ b.toNat ∧ b.toNat < 58
  ip_short : ipBuffer.length ≤ 15
  plausible_clock : ∀ d ∈ deliveries, ∀ k, (d.clock k).Plausible

/-- The events of a buffer with the times of their messages. -/
def stamped (clock : ℕ → Stamp) : ℕ → List Event → List (Event × Stamp)
  | _, [] => []
  | k, e :: es => (e, clock k) :: stamped clock (k + 1) es

/-- The text of the row for an event. -/
def Event.row (path host : Bytes) (e : Event) (s : Stamp) : Bytes :=
  timestamp s.tv ++ (host ++ [9] ++ (path ++ [9] ++
    ((if e.field.length ≠ 0 then e.name ++ [32] else []) ++ (textsOf e.mask).flatten)))

namespace ObserverSession

/-- The events of a session, with their times. -/
def events (t : ObserverSession) : List (Event × Stamp) :=
  t.deliveries.flatMap fun d => stamped d.clock 0 d.events

/-- What `do_observer_client` sends. -/
def bytes (t : ObserverSession) (garbage : Memory) : Bytes :=
  intBytes 0 ++ (sendString (t.fileordir ++ [0]) ++ (sendString (t.ipBuffer ++ [0]) ++
    doObserverClient t.deliveries garbage))

/-- The entry of an event. -/
def entry (t : ObserverSession) (x : Event × Stamp) : Entry :=
  ⟨x.2.tv, x.1.row t.fileordir t.ipBuffer x.2⟩

/-- Nothing is taken for a disconnect, and everything fits. -/
structure Clean (t : ObserverSession) : Prop where
  path_fits : t.fileordir.length < bufSize
  path_code : ¬ disconnectBytes <+: t.fileordir
  name_code : ∀ x ∈ t.events, ¬ x.1.LikeDisconnect
  row_fits : ∀ x ∈ t.events, (x.1.row t.fileordir t.ipBuffer x.2).length < bufSize

end ObserverSession

/-! ## The row of an event -/

section Row

variable {path host : Bytes} {e : Event} {s : Stamp}

theorem Stamp.tv_lt (s : Stamp) : s.tv.tvSec < 2 ^ 63 := by
  have := BitVec.toInt_lt (x := s.tvSec)
  simpa [Stamp.tv] using this

/-- What the row is made of. -/
def rowInput (hpath : path.length < bufSize) (hhost : host.length ≤ 15) (hs : s.Plausible)
    (e : Event) : RowInput where
  monitored := path
  host := host
  tv := s.tv
  name := if e.field.length ≠ 0 then some e.name else none
  mask := e.mask
  monitored_short := Nat.le_of_lt_succ hpath
  host_short := hhost
  sec_nonneg := hs.sec_nonneg
  sec_lt := s.tv_lt
  usec_nonneg := hs.usec_nonneg
  usec_lt := hs.usec_lt
  name_short := fun eventLoc h => by
    rw [Option.mem_def, Option.ite_none_right_eq_some] at h
    rw [← Option.some.inj h.2]
    exact e.short

/-- **The row is the text, or leaves its buffer.** -/
theorem assembleRow_event (hpath : path.length < bufSize) (hhost : host.length ≤ 15)
    (hs : s.Plausible) (e : Event) :
    assembleRow path host s.tv (if e.field.length ≠ 0 then some e.name else none) e.mask =
      if (e.row path host s).length < bufSize then some (e.row path host s) else none := by
  let i := rowInput hpath hhost hs e
  have hrow : assembleRow path host s.tv (if e.field.length ≠ 0 then some e.name else none) e.mask =
      if i.textLength ≤ 1023 then some (timestamp i.tv ++ i.texts.flatten) else none := i.row_eq
  have hlen := i.length_text
  have hstamp : (timestamp s.tv).length = Nat.log 10 s.tv.tvSec.toNat + 9 :=
    length_timestamp hs.sec_nonneg hs.usec_nonneg hs.usec_lt
  rw [hrow]
  by_cases hcut : path.length + 1 ≤ 1022
  · -- the path is not cut off
    have htexts : timestamp i.tv ++ i.texts.flatten = e.row path host s := by
      have htake : (path ++ [9]).take 1022 = path ++ [9] :=
        List.take_of_length_le (by rw [List.length_append]; exact hcut)
      simp only [i, rowInput, RowInput.texts, htake, Event.row]
      by_cases hnamed : e.field.length ≠ 0 <;> simp [hnamed]
    have htotal : (e.row path host s).length = i.textLength := by
      rw [← htexts, List.length_append, hlen]
    rw [htexts, htotal]
    exact if_congr Nat.lt_succ_iff.symm rfl rfl
  · have hlong : 1023 < i.textLength := by
      simp only [i, rowInput, RowInput.textLength]
      omega
    have hlong' : ¬ (e.row path host s).length < bufSize := by
      simp only [Event.row, List.length_append, hstamp, bufSize, List.length_singleton]
      omega
    rw [if_neg (by omega), if_neg hlong']

end Row

/-! ## The loop of the thread at one message -/

section Loop

variable {path host : Bytes} (hpath : path.length < bufSize) (hhost : host.length ≤ 15)
  (garbage : ℕ → Memory) (eventLoc : Memory) {e : Event} {s : Stamp} (hs : s.Plausible) (x : UInt8)
  (rest : Bytes)

include hpath hhost hs

/-- The entry of an event, if its row fits. -/
theorem entry_notification {named : Bool} (hnamed : named = decide (e.field.length ≠ 0)) :
    (e.notification s).entry path host named =
      if (e.row path host s).length < bufSize then some ⟨s.tv, e.row path host s⟩ else none := by
  have hassemble := assembleRow_event hpath hhost hs e
  rw [Notification.entry, hnamed]
  simp only [decide_eq_true_eq]
  rw [Event.notification, hassemble]
  split <;> rfl

/-- The thread at a message without a name. -/
theorem threadLoop_unnamed (h0 : e.field.length = 0) :
    ∃ eventLoc', threadLoop path host garbage eventLoc (e.header s ++ rest) =
      if (e.row path host s).length < bufSize then
        (threadLoop path host garbage eventLoc' rest).map
          (ThreadRun.after [⟨s.tv, e.row path host s⟩])
      else none := by
  have hheader : (e.header s).length = 40 := length_notificationBytes _ _ _ _ _
  have hsome : (e.header s ++ rest).length ≠ 0 := by
    rw [List.length_append]
    omega
  obtain ⟨htype, -, -, -, hlen⟩ := loadAt_header e s (garbage (e.header s ++ rest).length)
    (by omega)
  have hcstring : cstring (block bufSize (store [0] eventLoc)) = e.name := by
    rw [Event.name_eq_nil h0]
    exact cstring_block_store (s := []) List.not_mem_nil (by decide)
  refine ⟨store [0] eventLoc, ?_⟩
  rw [threadLoop, readBytes_append_of_eq hheader]
  simp only [hsome, htype, hlen, h0, if_true, if_false, Nat.zero_ne_one]
  rw [notify_header e s _ (by omega) hcstring, entry_notification hpath hhost hs (by simp [h0])]
  split <;> rfl

/-- The thread at a message with a name. -/
theorem threadLoop_named (h0 : e.field.length ≠ 0) (hmax : e.field.length < bufSize) :
    ∃ eventLoc', threadLoop path host garbage eventLoc (e.header s ++ (e.field ++ [x] ++ rest)) =
      if e.LikeDisconnect then some ⟨[], rest, .name⟩
      else if (e.row path host s).length < bufSize then
        (threadLoop path host garbage eventLoc' rest).map
          (ThreadRun.after [⟨s.tv, e.row path host s⟩])
      else none := by
  simp only [bufSize] at hmax
  have hheader : (e.header s).length = 40 := length_notificationBytes _ _ _ _ _
  have hsome : (e.header s ++ (e.field ++ [x] ++ rest)).length ≠ 0 := by
    rw [List.length_append]
    omega
  obtain ⟨htype, -, -, -, hlen⟩ := loadAt_header e s
    (garbage (e.header s ++ (e.field ++ [x] ++ rest)).length) (by omega)
  have hsize : (e.field ++ [x]).length = nameSize e.field.length := by
    unfold nameSize
    rw [Nat.mod_eq_of_lt (by omega), List.length_append]
    rfl
  have hread : (e.field ++ [x]).length ≠ 0 := by simp
  have hroom : ¬ bufSize < (e.field ++ [x]).length := by
    rw [List.length_append, List.length_singleton, bufSize]
    omega
  obtain ⟨t, ht⟩ := e.field_append x h0
  have hcstring : cstring (block bufSize (store (e.field ++ [x]) eventLoc)) = e.name := by
    rw [ht]
    refine cstring_block_store e.noNul ?_
    rw [← ht, List.length_append, List.length_singleton, bufSize]
    omega
  have hlike : isDisconnect (store (e.field ++ [x]) eventLoc) = true ↔ e.LikeDisconnect := by
    rw [ht]
    exact isDisconnect_string_iff
  refine ⟨store (e.field ++ [x]) eventLoc, ?_⟩
  rw [threadLoop, readBytes_append_of_eq hheader]
  simp only [hsome, htype, hlen, h0, if_false, Nat.zero_ne_one]
  rw [readBytes_append_of_eq hsize]
  simp only [hroom, hlike, hread, or_false, if_false]
  rw [notify_header e s _ (by omega) hcstring, entry_notification hpath hhost hs (by simp [h0])]
  split
  · rfl
  · split <;> rfl

/-- **The thread at an event**: it ends at a name that looks like a disconnect, and adds the row
otherwise, if it fits. -/
theorem threadLoop_message (hmax : e.field.length < bufSize) :
    ∃ eventLoc', threadLoop path host garbage eventLoc (e.message s x ++ rest) =
      if e.LikeDisconnect then some ⟨[], rest, .name⟩
      else if (e.row path host s).length < bufSize then
        (threadLoop path host garbage eventLoc' rest).map
          (ThreadRun.after [⟨s.tv, e.row path host s⟩])
      else none := by
  by_cases h0 : e.field.length = 0
  · have hlike : ¬ e.LikeDisconnect := by
      rw [Event.LikeDisconnect, Event.name_eq_nil h0]
      decide
    simp only [Event.message, h0, ne_eq, not_true_eq_false, if_false, List.append_nil, hlike]
    exact threadLoop_unnamed hpath hhost garbage eventLoc hs rest h0
  · simp only [Event.message, h0, ne_eq, not_false_eq_true, if_true, List.append_assoc]
    have h := threadLoop_named hpath hhost garbage eventLoc hs x rest h0 hmax
    simpa only [List.append_assoc] using h

end Loop

/-! ## The whole session -/

/-- The thread goes past the event. -/
def Passes (path host : Bytes) (x : Event × Stamp) : Prop :=
  ¬ x.1.LikeDisconnect ∧ (x.1.row path host x.2).length < bufSize

/-- The entries for some events. -/
def entriesFor (path host : Bytes) (xs : List (Event × Stamp)) : List Entry :=
  xs.map fun x => ⟨x.2.tv, x.1.row path host x.2⟩

section Session

variable {path host : Bytes} (hpath : path.length < bufSize) (hhost : host.length ≤ 15)
  (garbage : ℕ → Memory)

include hpath hhost

/-- **The rest of a buffer**, by induction on its events: the thread adds their entries, or it has
no result or ends at a name. -/
theorem threadLoop_sendEvents {clock : ℕ → Stamp} (hclock : ∀ k, (clock k).Plausible)
    (stale : Memory) (rest : Bytes) : ∀ (es : List Event) (pre : Bytes) (k : ℕ) (eventLoc : Memory),
    (pre ++ es.flatMap Event.bytes).length ≤ bufSize →
    ((∀ x ∈ stamped clock k es, Passes path host x) → ∃ eventLoc',
        threadLoop path host garbage eventLoc
          (sendEvents clock (store (pre ++ es.flatMap Event.bytes) stale)
            (pre ++ es.flatMap Event.bytes).length k pre.length ++ rest) =
        (threadLoop path host garbage eventLoc' rest).map
          (ThreadRun.after (entriesFor path host (stamped clock k es)))) ∧
      ((∃ x ∈ stamped clock k es, ¬ Passes path host x) → ∀ run,
        threadLoop path host garbage eventLoc
          (sendEvents clock (store (pre ++ es.flatMap Event.bytes) stale)
            (pre ++ es.flatMap Event.bytes).length k pre.length ++ rest) = some run →
        run.exit = .name)
  | [], pre, k, eventLoc, _ => by
    have hstop : sendEvents clock (store (pre ++ [].flatMap Event.bytes) stale)
        (pre ++ [].flatMap Event.bytes).length k pre.length = [] := by
      rw [sendEvents, if_neg (by simp)]
    rw [hstop, List.nil_append]
    constructor
    · exact fun _ => ⟨eventLoc, Option.map_id'.symm⟩
    · rintro ⟨x, hx, -⟩
      exact absurd hx List.not_mem_nil
  | e :: es, pre, k, eventLoc, hfits => by
    have hsplit : pre ++ (e :: es).flatMap Event.bytes =
        pre ++ e.bytes ++ es.flatMap Event.bytes := by
      rw [List.flatMap_cons, List.append_assoc]
    have hmax : e.field.length < bufSize := by
      simp only [hsplit, List.length_append, e.length_bytes, eventStructSize] at hfits
      omega
    obtain ⟨y, hy⟩ := sendEvents_event clock stale k pre e (es.flatMap Event.bytes)
      (by simp only [bufSize] at hmax; omega)
    rw [← List.append_assoc pre, ← hsplit] at hy
    obtain ⟨eventLoc₁, hmsg⟩ := threadLoop_message hpath hhost garbage eventLoc (hclock k) y
      (sendEvents clock (store (pre ++ (e :: es).flatMap Event.bytes) stale)
        (pre ++ (e :: es).flatMap Event.bytes).length (k + 1) (pre ++ e.bytes).length ++ rest) hmax
    rw [hsplit] at hfits hy hmsg ⊢
    obtain ⟨hsafe, hname⟩ := threadLoop_sendEvents hclock stale rest es (pre ++ e.bytes) (k + 1)
      eventLoc₁ hfits
    rw [hy, List.append_assoc, hmsg]
    by_cases hpass : Passes path host (e, clock k)
    · rw [if_neg hpass.1, if_pos hpass.2]
      constructor
      · intro hall
        obtain ⟨eventLoc₂, hrest⟩ := hsafe fun x hx => hall x (List.mem_cons_of_mem _ hx)
        refine ⟨eventLoc₂, ?_⟩
        rw [hrest, Option.map_map]
        rfl
      · rintro ⟨x, hx, hnot⟩ run hrun
        obtain ⟨run', hrun', rfl⟩ := Option.map_eq_some_iff.mp hrun
        rw [ThreadRun.after_exit]
        rcases List.mem_cons.mp hx with rfl | hx
        · exact absurd hpass hnot
        · exact hname ⟨x, hx, hnot⟩ run' hrun'
    · refine ⟨fun hall => absurd (hall _ List.mem_cons_self) hpass, fun _ run hrun => ?_⟩
      by_cases hlike : e.LikeDisconnect
      · rw [if_pos hlike] at hrun
        obtain rfl := Option.some.inj hrun
        rfl
      · rw [if_neg hlike, if_neg fun hrow => hpass ⟨hlike, hrow⟩] at hrun
        cases hrun

omit hpath hhost in
/-- The thread at the disconnect message. -/
theorem threadLoop_disconnect (eventLoc m : Memory) :
    threadLoop path host garbage eventLoc (newDisconnectObserverMessage m) =
      some ⟨[], [], .disconnection⟩ := by
  have hlen : (newDisconnectObserverMessage m).length = 40 := length_block
  obtain ⟨stale, hbytes⟩ := block_store_append (k := 40) (m := m)
    (show (encode 4 1).length ≤ 40 by decide)
  have hread : readBytes 40 (newDisconnectObserverMessage m) =
      (newDisconnectObserverMessage m, []) := by
    have h := readBytes_append_of_eq hlen []
    rwa [List.append_nil] at h
  have htype : ∀ m', loadAt 4 0 (store (newDisconnectObserverMessage m) m') = 1 := fun m' => by
    unfold newDisconnectObserverMessage
    rw [hbytes]
    exact loadAt_store_encode (by decide)
  rw [threadLoop, hread]
  simp only [hlen, htype, if_true]
  rfl

/-- **The buffers and the disconnect message**, by induction on the buffers. -/
theorem threadLoop_deliveries (m : Memory) : ∀ (ds : List Delivery) (eventLoc : Memory),
    (∀ d ∈ ds, ∀ k, (d.clock k).Plausible) →
    ((∀ x ∈ ds.flatMap fun d => stamped d.clock 0 d.events, Passes path host x) →
        threadLoop path host garbage eventLoc (doObserverClient ds m) =
          some ⟨entriesFor path host (ds.flatMap fun d => stamped d.clock 0 d.events), [],
            .disconnection⟩) ∧
      ((∃ x ∈ ds.flatMap fun d => stamped d.clock 0 d.events, ¬ Passes path host x) →
        ∀ run, threadLoop path host garbage eventLoc (doObserverClient ds m) = some run →
          run.exit = .name)
  | [], eventLoc, _ => by
    refine ⟨fun _ => threadLoop_disconnect garbage eventLoc m, ?_⟩
    rintro ⟨x, hx, -⟩
    exact absurd hx List.not_mem_nil
  | d :: ds, eventLoc, hclock => by
    have hclient : doObserverClient (d :: ds) m =
        sendEvents d.clock (store ([] ++ d.events.flatMap Event.bytes) d.stale)
          ([] ++ d.events.flatMap Event.bytes).length 0 ([] : Bytes).length ++
            doObserverClient ds m := by
      unfold doObserverClient
      rw [List.flatMap_cons, List.append_assoc]
      rfl
    obtain ⟨hsafe, hname⟩ := threadLoop_sendEvents hpath hhost garbage
      (hclock d List.mem_cons_self) d.stale (doObserverClient ds m) d.events [] 0 eventLoc d.fits
    have hclock' : ∀ d' ∈ ds, ∀ k, (d'.clock k).Plausible := fun d' hd' =>
      hclock d' (List.mem_cons_of_mem _ hd')
    rw [hclient, List.flatMap_cons]
    constructor
    · intro hall
      obtain ⟨eventLoc₁, hrest⟩ := hsafe fun x hx => hall x (List.mem_append_left _ hx)
      have ih := (threadLoop_deliveries m ds eventLoc₁ hclock').1
        fun x hx => hall x (List.mem_append_right _ hx)
      rw [hrest, ih, entriesFor, entriesFor, entriesFor, List.map_append]
      rfl
    · rintro ⟨x, hx, hnot⟩ run hrun
      by_cases hfirst : ∃ y ∈ stamped d.clock 0 d.events, ¬ Passes path host y
      · exact hname hfirst run hrun
      · obtain ⟨eventLoc₁, hrest⟩ := hsafe fun y hy => by
          by_contra hy'
          exact hfirst ⟨y, hy, hy'⟩
        rw [hrest] at hrun
        obtain ⟨run', hrun', rfl⟩ := Option.map_eq_some_iff.mp hrun
        rw [ThreadRun.after_exit]
        refine (threadLoop_deliveries m ds eventLoc₁ hclock').2 ⟨x, ?_, hnot⟩ run' hrun'
        exact (List.mem_append.mp hx).resolve_left fun hx => hfirst ⟨x, hx, hnot⟩

end Session

/-! ## The strings before the loop -/

section Strings

variable {str : Bytes}

/-- A string of `send_string`, copied to a buffer. -/
theorem strcpyBlock_string (h : 0 ∉ str) (size : ℕ) :
    strcpyBlock size (str ++ [0]) = if str.length < size then some str else none := by
  have hnul : (0 : UInt8) ∈ str ++ [0] := List.mem_append_right _ List.mem_cons_self
  rw [strcpyBlock, if_pos hnul, cstring_append_nul h, strcpy, strcat, List.nil_append,
    List.length_nil, Nat.zero_add]

/-- `read_string` gives `NULL` where the string looks like a disconnect. -/
theorem readString_disconnect (h : 0 ∉ str) (hlen : str.length + 1 < 2 ^ 31)
    (hlike : disconnectBytes <+: str) (rest : Bytes) (garbage : Garbage) :
    readString garbage (sendString (str ++ [0]) ++ rest) = none := by
  have hload : loadSize (store (encode 8 (str.length + 1)) garbage.strSize) = str.length + 1 :=
    loadSize_store (by omega) _
  have hdata : isDisconnect (store (str ++ [0]) garbage.str) = true :=
    isDisconnect_string_iff.mpr hlike
  have hstr : (str ++ [0]).length = str.length + 1 := by simp
  rw [sendString_append_nul h, List.append_assoc, readString,
    readBytes_append_of_eq (length_encode _ _)]
  simp only [hload]
  rw [readBytes_append_of_eq hstr]
  simp only [hdata, if_true, ite_self]

end Strings

namespace ObserverSession

variable {t : ObserverSession}

theorem ip_noNul (t : ObserverSession) : 0 ∉ t.ipBuffer := fun h => by
  rcases t.ip_dotted 0 h with h | h
  · cases h
  · exact absurd h.1 (by decide)

/-- A dotted quad is not taken for a disconnect. -/
theorem ip_not_code (t : ObserverSession) : ¬ disconnectBytes <+: t.ipBuffer := fun h => by
  rcases t.ip_dotted 0xF6 (h.subset (by decide)) with h | h
  · exact absurd h (by decide)
  · exact absurd h.2 (by decide)

/-- **`observer_thread`** on what a client sends, up to its loop. -/
theorem observerThreadRun_session (t : ObserverSession) (garbage : ThreadGarbage) (rest : Bytes) :
    observerThreadRun garbage
        (sendString (t.fileordir ++ [0]) ++ (sendString (t.ipBuffer ++ [0]) ++ rest)) =
      if disconnectBytes <+: t.fileordir ∨ bufSize ≤ t.fileordir.length then none
      else (threadLoop t.fileordir t.ipBuffer garbage.notification garbage.eventLoc rest).map
        (ThreadRun.after [⟨⟨0, 0⟩, []⟩]) := by
  have hshort : t.fileordir.length + 1 < 2 ^ 31 := by
    have := t.path_short
    omega
  by_cases hcode : disconnectBytes <+: t.fileordir
  · rw [if_pos (Or.inl hcode), observerThreadRun, readString_disconnect t.path_noNul hshort hcode]
    rfl
  · have hpath : readString garbage.monitored (sendString (t.fileordir ++ [0]) ++
        (sendString (t.ipBuffer ++ [0]) ++ rest)) =
          some (t.fileordir ++ [0], sendString (t.ipBuffer ++ [0]) ++ rest) :=
      readString_sendString t.path_noNul hshort [] _ _
        (Bool.eq_false_of_not_eq_true fun h => hcode (isDisconnect_string_iff.mp h))
    have hip : readString garbage.host (sendString (t.ipBuffer ++ [0]) ++ rest) =
        some (t.ipBuffer ++ [0], rest) := by
      have := t.ip_short
      exact readString_sendString t.ip_noNul (by omega) [] _ _
        (Bool.eq_false_of_not_eq_true fun h => t.ip_not_code (isDisconnect_string_iff.mp h))
    have hhost : t.ipBuffer.length < 17 := by
      have := t.ip_short
      omega
    simp only [observerThreadRun, hpath, Option.bind_eq_bind, Option.bind_some,
      strcpyBlock_string t.path_noNul]
    by_cases hlong : bufSize ≤ t.fileordir.length
    · rw [if_neg (not_lt.mpr hlong), if_pos (Or.inr hlong)]
      rfl
    · rw [if_pos (not_le.mp hlong), if_neg (fun h => h.elim hcode hlong)]
      simp only [Option.bind_some, hip, strcpyBlock_string t.ip_noNul, if_pos hhost]
      rw [Option.map_eq_bind]
      rfl

/-- `do_server` starts `observer_thread` behind the identity. -/
theorem serve_bytes (t : ObserverSession) (garbage : ThreadGarbage) (m : Memory) :
    serve garbage (t.bytes m) = (observerThreadRun garbage (sendString (t.fileordir ++ [0]) ++
      (sendString (t.ipBuffer ++ [0]) ++ doObserverClient t.deliveries m))).map .observer := by
  have hsome : (t.bytes m).length ≠ 0 := by
    rw [bytes, List.length_append, length_intBytes]
    omega
  rw [serve, if_neg hsome]
  simp only [bytes, readBytes_append_of_eq (length_intBytes 0), loadInt_store_intBytes]
  rfl

/-- A clean session in the thread. -/
theorem observerThreadRun_clean (h : t.Clean) (garbage : ThreadGarbage) (m : Memory) :
    observerThreadRun garbage (sendString (t.fileordir ++ [0]) ++ (sendString (t.ipBuffer ++ [0]) ++
      doObserverClient t.deliveries m)) =
        some ⟨⟨⟨0, 0⟩, []⟩ :: t.events.map t.entry, [], .disconnection⟩ := by
  have hrun := (threadLoop_deliveries h.path_fits t.ip_short garbage.notification m t.deliveries
    garbage.eventLoc t.plausible_clock).1 fun x hx => ⟨h.name_code x hx, h.row_fits x hx⟩
  rw [observerThreadRun_session, if_neg (not_or.mpr ⟨h.path_code, not_le.mpr h.path_fits⟩), hrun]
  rfl

theorem serve_clean (h : t.Clean) {garbage : ThreadGarbage} {m : Memory} :
    serve garbage (t.bytes m) =
      some (.observer ⟨⟨⟨0, 0⟩, []⟩ :: t.events.map t.entry, [], .disconnection⟩) := by
  rw [t.serve_bytes, observerThreadRun_clean h]
  rfl

end ObserverSession

/-- **The session of an observer, exactly.** The thread adds an empty entry and then the entry of
each event, in order and with its time, and ends at the disconnect message, iff the path fits into
its buffer, neither it nor a name begins with the bytes of `DISCONNECT_CODE`, and every row has at
most 1023 characters. -/
theorem serve_session_iff (t : ObserverSession) (garbage : ThreadGarbage) (m : Memory) :
    serve garbage (t.bytes m) =
        some (.observer ⟨⟨⟨0, 0⟩, []⟩ :: t.events.map t.entry, [], .disconnection⟩) ↔
      t.Clean := by
  constructor
  · intro h
    rw [t.serve_bytes, t.observerThreadRun_session] at h
    by_cases hpath : disconnectBytes <+: t.fileordir ∨ bufSize ≤ t.fileordir.length
    · rw [if_pos hpath] at h
      cases h
    · rw [if_neg hpath] at h
      obtain ⟨hcode, hfits⟩ := not_or.mp hpath
      -- an event that does not pass ends the thread at its name, or without a result
      have hpass : ∀ x ∈ t.events, Passes t.fileordir t.ipBuffer x := fun x hx => by
        by_contra hnot
        obtain ⟨run, hrun, heq⟩ := Option.map_eq_some_iff.mp h
        obtain ⟨run', hrun', rfl⟩ := Option.map_eq_some_iff.mp hrun
        have hexit := (threadLoop_deliveries (not_le.mp hfits) t.ip_short garbage.notification m
          t.deliveries garbage.eventLoc t.plausible_clock).2 ⟨x, hx, hnot⟩ run' hrun'
        have hend := congrArg ThreadRun.exit (Served.observer.inj heq)
        rw [ThreadRun.after_exit, hexit] at hend
        cases hend
      exact ⟨not_le.mp hfits, hcode, fun x hx => (hpass x hx).1, fun x hx => (hpass x hx).2⟩
  · exact fun h => ObserverSession.serve_clean h

/-! ### A file is created -/

/-- Seven seconds after 1970. -/
def sevenSeconds : Stamp := ⟨0, 7, 42⟩

theorem plausible_sevenSeconds : sevenSeconds.Plausible := ⟨by decide, by decide, by decide⟩

/-- An event for the file `a`. -/
def fileEvent (wd mask : BitVec 32) : Event where
  wd := wd
  mask := mask
  cookie := 0
  name := textBytes "a"
  nuls := 15
  noNul := by decide
  noSlash := by decide
  short := by decide
  terminated := by decide

/-- The client watches `/tmp`, and there is one event. -/
def watchTmp (wd mask : BitVec 32) : ObserverSession where
  fileordir := textBytes "/tmp"
  ipBuffer := textBytes "10.0.0.7"
  deliveries := [{
    events := [fileEvent wd mask]
    fits := by
      have hfits : eventStructSize + (textBytes "a" ++ List.replicate 15 0).length ≤ bufSize := by
        decide
      rw [List.flatMap_cons, List.flatMap_nil, List.append_nil, Event.length_bytes]
      exact hfits
    stale := fun _ => 0
    clock := fun _ => sevenSeconds }]
  path_noNul := by decide
  path_short := by decide
  ip_dotted := List.forall_iff_forall_mem.mp (by decide)
  ip_short := by decide
  plausible_clock := fun d hd _ => by
    obtain rfl := List.mem_singleton.mp hd
    exact plausible_sevenSeconds

theorem watchTmp_clean {wd mask : BitVec 32}
    (h : ((fileEvent wd mask).row (textBytes "/tmp") (textBytes "10.0.0.7") sevenSeconds).length <
      bufSize) : (watchTmp wd mask).Clean where
  path_fits := (by decide : (textBytes "/tmp").length < bufSize)
  path_code := (by decide : ¬ disconnectBytes <+: textBytes "/tmp")
  name_code := fun x hx => by
    obtain rfl := List.mem_singleton.mp hx
    have hname : ¬ disconnectBytes <+: textBytes "a" := by decide
    exact hname
  row_fits := fun x hx => by
    obtain rfl := List.mem_singleton.mp hx
    exact h

theorem watchTmp_create : (watchTmp 1 0x100).Clean := watchTmp_clean (by decide)

end C380.Notapp
