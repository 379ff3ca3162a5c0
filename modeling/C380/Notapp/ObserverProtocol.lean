import C380.Notapp.ServerData
import C380.Notapp.Wire

/-!
# The observer protocol (`do_observer_client` to `observer_thread`, `Assignment02/`)

`do_observer_client` walks the buffer that `inotify` filled and sends a `struct observer_msg` for
each event, and behind it `len + 1` bytes of the name where there is one; the last of them lies past
the event. `observer_thread` reads the message, then the name. A disconnect is a message of type
`DISCONNECTION_OBSERVER`, but `observer_thread` also ends when `is_disconnect` finds the
`DISCONNECT_CODE` in the first four bytes of the name.

* `Delivery`: a buffer as `inotify` fills it, with whatever the clock says while it is walked.
* `observerThread_iff`: **the server decodes every event and ends at the disconnect message iff** no
  event has a name that begins with the bytes `F6 FF FF FF`.
* `observerThread_codeNamed`: an event with such a name is lost, and ends the thread.
-/

namespace C380.Notapp

open LittleEndian

/-! ## Events and messages -/

/-- `BUF_SIZE`. -/
abbrev bufSize : ℕ := 1024

/-- `EVENT_STRUCT_SIZE`. -/
abbrev eventStructSize : ℕ := 16

/-- An event as `inotify` delivers it: `name` and the NULs behind it are the `len` bytes of the
field `name`. -/
structure Event where
  wd : BitVec 32
  mask : BitVec 32
  cookie : BitVec 32
  name : Bytes
  nuls : ℕ
  noNul : 0 ∉ name
  noSlash : 47 ∉ name
  short : name.length ≤ 255
  terminated : nuls = 0 → name = []

namespace Event

/-- The bytes of the field `name`. -/
def field (e : Event) : Bytes := e.name ++ List.replicate e.nuls 0

/-- The event in the buffer. -/
def bytes (e : Event) : Bytes :=
  encode 4 e.wd.toNat ++ (encode 4 e.mask.toNat ++ (encode 4 e.cookie.toNat ++
    (encode 4 e.field.length ++ e.field)))

theorem length_bytes (e : Event) : e.bytes.length = eventStructSize + e.field.length := by
  simp only [bytes, List.length_append, length_encode, eventStructSize]
  omega

theorem name_eq_nil {e : Event} (h : e.field.length = 0) : e.name = [] := by
  unfold field at h
  rw [List.length_append] at h
  exact List.eq_nil_of_length_eq_zero (by omega)

end Event

/-- What `gettimeofday` gives for a message, and the bytes between `type` and `tv`. -/
structure Stamp where
  pad : BitVec 32
  tvSec : BitVec 64
  tvUsec : BitVec 64

/-- The `struct timeval`. -/
def Stamp.tv (s : Stamp) : Timeval := ⟨s.tvSec.toInt, s.tvUsec.toInt⟩

/-- A `struct observer_msg` of type `NOTIFICATION`. -/
def notificationBytes (s : Stamp) (wd mask cookie len : ℕ) : Bytes :=
  encode 4 0 ++ (encode 4 s.pad.toNat ++ (encode 8 s.tvSec.toNat ++ (encode 8 s.tvUsec.toNat ++
    (encode 4 wd ++ (encode 4 mask ++ (encode 4 cookie ++ encode 4 len))))))

/-- `new_disconnect_observer_message`: only the type is set. -/
def newDisconnectObserverMessage (garbage : Memory) : Bytes := block 40 (store (encode 4 1) garbage)

/-- The number of bytes of a name that are sent and read, in `uint32_t` arithmetic. -/
def nameSize (len : ℕ) : ℕ := (len + 1) % 2 ^ 32

theorem length_notificationBytes (s : Stamp) (wd mask cookie len : ℕ) :
    (notificationBytes s wd mask cookie len).length = 40 := by
  simp [notificationBytes]

/-! ## The client's side -/

/-- The inner loop of `do_observer_client` from the test of `bytesProcessed` on; its messages from
there on get the stamps `clock k`, `clock (k + 1)`, … -/
def sendEvents (clock : ℕ → Stamp) (buffer : Memory) (bytesRead k bytesProcessed : ℕ) : Bytes :=
  if bytesProcessed < bytesRead then
    let event : Memory := fun i => buffer (bytesProcessed + i)
    let len := loadAt 4 12 event
    notificationBytes (clock k) (loadAt 4 0 event) (loadAt 4 4 event) (loadAt 4 8 event) len ++
      ((if len ≠ 0 then block (nameSize len) fun i => event (eventStructSize + i) else []) ++
        sendEvents clock buffer bytesRead (k + 1) (bytesProcessed + (eventStructSize + len)))
  else []
  termination_by bytesRead - bytesProcessed
  decreasing_by
    simp only [eventStructSize]
    omega

/-- A buffer that `read` has filled with events; `stale` is what it held before. -/
structure Delivery where
  events : List Event
  fits : (events.flatMap Event.bytes).length ≤ bufSize
  stale : Memory
  clock : ℕ → Stamp

namespace Delivery

/-- The bytes that `read` stores. -/
def bytes (d : Delivery) : Bytes := d.events.flatMap Event.bytes

/-- The bytes that are sent for the buffer. -/
def sent (d : Delivery) : Bytes :=
  sendEvents d.clock (store d.bytes d.stale) d.bytes.length 0 0

end Delivery

/-- `do_observer_client`, from its loop on: the buffers, and `cleanup`. -/
def doObserverClient (ds : List Delivery) (garbage : Memory) : Bytes :=
  ds.flatMap Delivery.sent ++ newDisconnectObserverMessage garbage

/-! ## The server's side -/

/-- What `observer_thread` gets out of a message and its name. -/
structure Notification where
  tv : Timeval
  mask : BitVec 32
  name : Bytes
  deriving DecidableEq, Repr

/-- How the loop of `observer_thread` ends: at the end of the stream, at a message of type
`DISCONNECTION_OBSERVER`, or at a name. -/
inductive ObserverExit where
  | closed
  | disconnection
  | name
  deriving DecidableEq, Repr

/-- The notifications decoded, the bytes left, and how the loop ended. -/
structure ObserverRun where
  notifications : List Notification
  left : Bytes
  exit : ObserverExit
  deriving DecidableEq, Repr

/-- The run with notifications before it. -/
def ObserverRun.after (ns : List Notification) (run : ObserverRun) : ObserverRun :=
  { run with notifications := ns ++ run.notifications }

theorem ObserverRun.after_after (ms ns : List Notification) (run : ObserverRun) :
    (run.after ns).after ms = run.after (ms ++ ns) := by
  simp only [after, List.append_assoc]

@[simp] theorem ObserverRun.after_exit (ns : List Notification) (run : ObserverRun) :
    (run.after ns).exit = run.exit := rfl

/-- What the body of the loop makes of the message and of `event_loc`. -/
def notify (notification eventLoc : Memory) : Notification where
  tv := ⟨(BitVec.ofNat 64 (loadAt 8 8 notification)).toInt,
    (BitVec.ofNat 64 (loadAt 8 16 notification)).toInt⟩
  mask := BitVec.ofNat 32 (loadAt 4 28 notification)
  name := cstring (block bufSize eventLoc)

/-- The loop of `observer_thread`, once registered. The variable `notification` is new in every
round and holds `garbage`, one for each number of bytes that are left. -/
def observerLoop (garbage : ℕ → Memory) (eventLoc : Memory) (input : Bytes) : ObserverRun :=
  let notification := store (readBytes 40 input).1 (garbage input.length)
  let rest := (readBytes 40 input).2
  let len := loadAt 4 36 notification
  if input.length = 0 then ⟨[], rest, .closed⟩
  else if loadAt 4 0 notification = 1 then ⟨[], rest, .disconnection⟩
  else if len = 0 then
    let eventLoc := store [0] eventLoc
    (observerLoop garbage eventLoc rest).after [notify notification eventLoc]
  else
    let eventLoc := store (readBytes (nameSize len) rest).1 eventLoc
    let rest' := (readBytes (nameSize len) rest).2
    if isDisconnect eventLoc ∨ (readBytes (nameSize len) rest).1.length = 0 then ⟨[], rest', .name⟩
    else (observerLoop garbage eventLoc rest').after [notify notification eventLoc]
  termination_by input.length
  decreasing_by
    all_goals
      simp only [readBytes, List.length_drop]
      omega

/-! ## The bytes of one event -/

namespace Event

/-- The message for an event. -/
def header (e : Event) (s : Stamp) : Bytes :=
  notificationBytes s e.wd.toNat e.mask.toNat e.cookie.toNat e.field.length

/-- What is sent for an event; `x` is the byte behind it. -/
def message (e : Event) (s : Stamp) (x : UInt8) : Bytes :=
  e.header s ++ if e.field.length ≠ 0 then e.field ++ [x] else []

/-- The notification the event stands for. -/
def notification (e : Event) (s : Stamp) : Notification := ⟨s.tv, e.mask, e.name⟩

/-- The name begins with the four bytes of `DISCONNECT_CODE`. -/
def LikeDisconnect (e : Event) : Prop := disconnectBytes <+: e.name

instance (e : Event) : Decidable e.LikeDisconnect :=
  inferInstanceAs (Decidable (disconnectBytes <+: e.name))

end Event

section Load

variable (e : Event) (s : Stamp) (post : Bytes) (m : Memory)

/-- The fields of an event in the buffer. -/
theorem loadAt_event (hlen : e.field.length < 2 ^ 32) :
    loadAt 4 0 (store (e.bytes ++ post) m) = e.wd.toNat ∧
    loadAt 4 4 (store (e.bytes ++ post) m) = e.mask.toNat ∧
    loadAt 4 8 (store (e.bytes ++ post) m) = e.cookie.toNat ∧
    loadAt 4 12 (store (e.bytes ++ post) m) = e.field.length := by
  have hwd : e.wd.toNat < 256 ^ 4 := e.wd.isLt
  have hmask : e.mask.toNat < 256 ^ 4 := e.mask.isLt
  have hcookie : e.cookie.toNat < 256 ^ 4 := e.cookie.isLt
  have hfield : e.field.length < 256 ^ 4 := hlen
  simp only [Event.bytes, List.append_assoc]
  refine ⟨loadAt_store_encode hwd, ?_, ?_, ?_⟩
  · simp [loadAt_store_append, loadAt_store_encode hmask]
  · simp [loadAt_store_append, loadAt_store_encode hcookie]
  · simp [loadAt_store_append, loadAt_store_encode hfield]

/-- The name in the buffer, and the byte behind it. -/
theorem block_event : ∃ x, (block (e.field.length + 1) fun i =>
    store (e.bytes ++ post) m (eventStructSize + i)) = e.field ++ [x] := by
  let pre := encode 4 e.wd.toNat ++ (encode 4 e.mask.toNat ++
    (encode 4 e.cookie.toNat ++ encode 4 e.field.length))
  have hsplit : e.bytes ++ post = pre ++ (e.field ++ post) := by
    simp only [pre, Event.bytes, List.append_assoc]
  have hpre : pre.length = eventStructSize := by simp [pre, eventStructSize]
  have hbehind : ∀ i, store (e.bytes ++ post) m (eventStructSize + i) =
      store (e.field ++ post) (fun j => m (eventStructSize + j)) i := fun i => by
    rw [hsplit, ← hpre, store_append_add]
  refine ⟨store (e.field ++ post) (fun j => m (eventStructSize + j)) e.field.length, ?_⟩
  rw [block_succ_last]
  simp only [hbehind]
  rw [block_store (by simp), List.take_left]

/-- The fields of a message. -/
theorem loadAt_header (hlen : e.field.length < 2 ^ 32) :
    loadAt 4 0 (store (e.header s) m) = 0 ∧
    loadAt 8 8 (store (e.header s) m) = s.tvSec.toNat ∧
    loadAt 8 16 (store (e.header s) m) = s.tvUsec.toNat ∧
    loadAt 4 28 (store (e.header s) m) = e.mask.toNat ∧
    loadAt 4 36 (store (e.header s) m) = e.field.length := by
  have hsec : s.tvSec.toNat < 256 ^ 8 := s.tvSec.isLt
  have husec : s.tvUsec.toNat < 256 ^ 8 := s.tvUsec.isLt
  have hmask : e.mask.toNat < 256 ^ 4 := e.mask.isLt
  have hlast : ∀ m, loadAt 4 0 (store (encode 4 e.field.length) m) = e.field.length := fun m => by
    rw [← List.append_nil (encode 4 e.field.length)]
    exact loadAt_store_encode hlen
  refine ⟨loadAt_store_encode (by decide), ?_, ?_, ?_, ?_⟩
  · simp [Event.header, notificationBytes, loadAt_store_append, loadAt_store_encode hsec]
  · simp [Event.header, notificationBytes, loadAt_store_append, loadAt_store_encode husec]
  · simp [Event.header, notificationBytes, loadAt_store_append, loadAt_store_encode hmask]
  · simp [Event.header, notificationBytes, loadAt_store_append, hlast]

/-- The server makes the event's notification of its message and its name. -/
theorem notify_header (hlen : e.field.length < 2 ^ 32) {eventLoc : Memory}
    (hname : cstring (block bufSize eventLoc) = e.name) :
    notify (store (e.header s) m) eventLoc = e.notification s := by
  obtain ⟨-, hsec, husec, hmask, -⟩ := loadAt_header e s m hlen
  unfold notify
  rw [hsec, husec, hmask, hname, Event.notification, Stamp.tv]
  simp only [BitVec.ofNat_toNat, BitVec.setWidth_eq]

end Load

/-- **The client at an event**: it sends the message, and the walk goes on behind the event. -/
theorem sendEvents_event (clock : ℕ → Stamp) (stale : Memory) (k : ℕ) (pre : Bytes) (e : Event)
    (post : Bytes) (hlen : e.field.length < 2 ^ 32 - 1) :
    ∃ x, sendEvents clock (store (pre ++ (e.bytes ++ post)) stale)
        (pre ++ (e.bytes ++ post)).length k pre.length =
      e.message (clock k) x ++ sendEvents clock (store (pre ++ (e.bytes ++ post)) stale)
        (pre ++ (e.bytes ++ post)).length (k + 1) (pre ++ e.bytes).length := by
  obtain ⟨hwd, hmask, hcookie, hfield⟩ := loadAt_event e post
    (fun j => stale (pre.length + j)) (by omega)
  obtain ⟨x, hx⟩ := block_event e post fun j => stale (pre.length + j)
  have hlt : pre.length < (pre ++ (e.bytes ++ post)).length := by
    simp only [List.length_append, e.length_bytes, eventStructSize]
    omega
  have hsize : nameSize e.field.length = e.field.length + 1 :=
    Nat.mod_eq_of_lt (by omega)
  refine ⟨x, ?_⟩
  rw [sendEvents, if_pos hlt]
  simp only [store_append_add, hwd, hmask, hcookie, hfield, hsize, hx, Event.message,
    Event.header, List.append_assoc, List.length_append, e.length_bytes]

/-! ## The round trip -/

section Server

variable {e : Event} (garbage : ℕ → Memory) (eventLoc : Memory) (s : Stamp) (x : UInt8)
  (rest : Bytes)

/-- What is sent of a name is the name with its NUL, and more. -/
theorem Event.field_append (h : e.field.length ≠ 0) :
    ∃ t, e.field ++ [x] = e.name ++ 0 :: t := by
  have hnuls : e.nuls ≠ 0 := fun h0 => h (by simp [Event.field, e.terminated h0, h0])
  obtain ⟨n, hn⟩ := Nat.exists_eq_succ_of_ne_zero hnuls
  exact ⟨List.replicate n 0 ++ [x], by simp [Event.field, hn, List.replicate_succ]⟩

/-- The server at a message without a name. -/
theorem observerLoop_unnamed (h0 : e.field.length = 0) :
    ∃ eventLoc', observerLoop garbage eventLoc (e.header s ++ rest) =
      (observerLoop garbage eventLoc' rest).after [e.notification s] := by
  have hheader : (e.header s).length = 40 := length_notificationBytes _ _ _ _ _
  have hsome : (e.header s ++ rest).length ≠ 0 := by
    rw [List.length_append]
    omega
  obtain ⟨htype, -, -, -, hlen⟩ := loadAt_header e s (garbage (e.header s ++ rest).length)
    (by omega)
  have hcstring : cstring (block bufSize (store [0] eventLoc)) = e.name := by
    rw [Event.name_eq_nil h0]
    exact cstring_block_store (s := []) List.not_mem_nil (by decide)
  refine ⟨store [0] eventLoc, ?_⟩
  rw [observerLoop, readBytes_append_of_eq hheader]
  simp only [hsome, htype, hlen, h0, if_true, if_false, Nat.zero_ne_one]
  rw [notify_header e s _ (by omega) hcstring]

/-- The server at a message with a name. -/
theorem observerLoop_named (h0 : e.field.length ≠ 0) (hmax : e.field.length < bufSize) :
    ∃ eventLoc', observerLoop garbage eventLoc (e.header s ++ (e.field ++ [x] ++ rest)) =
      if e.LikeDisconnect then ⟨[], rest, .name⟩
      else (observerLoop garbage eventLoc' rest).after [e.notification s] := by
  simp only [bufSize] at hmax
  have hheader : (e.header s).length = 40 := length_notificationBytes _ _ _ _ _
  have hsome : (e.header s ++ (e.field ++ [x] ++ rest)).length ≠ 0 := by
    rw [List.length_append]
    omega
  obtain ⟨htype, -, -, -, hlen⟩ := loadAt_header e s
    (garbage (e.header s ++ (e.field ++ [x] ++ rest)).length) (by omega)
  have hsize : (e.field ++ [x]).length = nameSize e.field.length := by
    unfold nameSize
    rw [Nat.mod_eq_of_lt (by omega), List.length_append]
    rfl
  have hread : (e.field ++ [x]).length ≠ 0 := by simp
  obtain ⟨t, ht⟩ := e.field_append x h0
  have hcstring : cstring (block bufSize (store (e.field ++ [x]) eventLoc)) = e.name := by
    rw [ht]
    refine cstring_block_store e.noNul ?_
    rw [← ht, List.length_append, List.length_singleton, bufSize]
    omega
  have hlike : isDisconnect (store (e.field ++ [x]) eventLoc) = true ↔ e.LikeDisconnect := by
    rw [ht]
    exact isDisconnect_string_iff
  refine ⟨store (e.field ++ [x]) eventLoc, ?_⟩
  rw [observerLoop, readBytes_append_of_eq hheader]
  simp only [hsome, htype, hlen, h0, if_false, Nat.zero_ne_one]
  rw [readBytes_append_of_eq hsize]
  simp only [hlike, hread, or_false]
  rw [notify_header e s _ (by omega) hcstring]

/-- **The server at an event**: it ends at a name that looks like a disconnect, and has one more
notification otherwise. -/
theorem observerLoop_message (hmax : e.field.length < bufSize) :
    ∃ eventLoc', observerLoop garbage eventLoc (e.message s x ++ rest) =
      if e.LikeDisconnect then ⟨[], rest, .name⟩
      else (observerLoop garbage eventLoc' rest).after [e.notification s] := by
  by_cases h0 : e.field.length = 0
  · have hlike : ¬ e.LikeDisconnect := by
      rw [Event.LikeDisconnect, Event.name_eq_nil h0]
      decide
    simp only [Event.message, h0, ne_eq, not_true_eq_false, if_false, List.append_nil, hlike]
    exact observerLoop_unnamed garbage eventLoc s rest h0
  · simp only [Event.message, h0, ne_eq, not_false_eq_true, if_true, List.append_assoc]
    have h := observerLoop_named garbage eventLoc s x rest h0 hmax
    simpa only [List.append_assoc] using h

end Server

/-- The notifications that the events stand for. -/
def notifications (clock : ℕ → Stamp) : ℕ → List Event → List Notification
  | _, [] => []
  | k, e :: es => e.notification (clock k) :: notifications clock (k + 1) es

/-- The notifications that a buffer stands for. -/
def Delivery.notifications (d : Delivery) : List Notification :=
  C380.Notapp.notifications d.clock 0 d.events

/-- **The rest of a buffer**, by induction on its events. -/
theorem observerLoop_sendEvents (garbage : ℕ → Memory) (clock : ℕ → Stamp) (stale : Memory)
    (rest : Bytes) : ∀ (es : List Event) (pre : Bytes) (k : ℕ) (eventLoc : Memory),
    (pre ++ es.flatMap Event.bytes).length ≤ bufSize →
    ((∀ e ∈ es, ¬ e.LikeDisconnect) → ∃ eventLoc', observerLoop garbage eventLoc
        (sendEvents clock (store (pre ++ es.flatMap Event.bytes) stale)
          (pre ++ es.flatMap Event.bytes).length k pre.length ++ rest) =
        (observerLoop garbage eventLoc' rest).after (notifications clock k es)) ∧
      ((∃ e ∈ es, e.LikeDisconnect) → (observerLoop garbage eventLoc
        (sendEvents clock (store (pre ++ es.flatMap Event.bytes) stale)
          (pre ++ es.flatMap Event.bytes).length k pre.length ++ rest)).exit = .name)
  | [], pre, k, eventLoc, _ => by
    have hstop : sendEvents clock (store (pre ++ [].flatMap Event.bytes) stale)
        (pre ++ [].flatMap Event.bytes).length k pre.length = [] := by
      rw [sendEvents, if_neg (by simp)]
    rw [hstop, List.nil_append]
    refine ⟨fun _ => ⟨eventLoc, rfl⟩, fun ⟨e, he, _⟩ => absurd he List.not_mem_nil⟩
  | e :: es, pre, k, eventLoc, hfits => by
    have hsplit : pre ++ (e :: es).flatMap Event.bytes =
        pre ++ e.bytes ++ es.flatMap Event.bytes := by
      rw [List.flatMap_cons, List.append_assoc]
    have hmax : e.field.length < bufSize := by
      simp only [hsplit, List.length_append, e.length_bytes, eventStructSize] at hfits
      omega
    obtain ⟨x, hx⟩ := sendEvents_event clock stale k pre e (es.flatMap Event.bytes)
      (by simp only [bufSize] at hmax; omega)
    rw [← List.append_assoc pre, ← hsplit] at hx
    obtain ⟨eventLoc₁, hmsg⟩ := observerLoop_message garbage eventLoc (clock k) x
      (sendEvents clock (store (pre ++ (e :: es).flatMap Event.bytes) stale)
        (pre ++ (e :: es).flatMap Event.bytes).length (k + 1) (pre ++ e.bytes).length ++ rest) hmax
    rw [hsplit] at hfits hx hmsg ⊢
    obtain ⟨hsafe, hname⟩ := observerLoop_sendEvents garbage clock stale rest es (pre ++ e.bytes)
      (k + 1) eventLoc₁ hfits
    rw [hx, List.append_assoc, hmsg]
    by_cases hlike : e.LikeDisconnect
    · rw [if_pos hlike]
      exact ⟨fun hall => absurd hlike (hall e List.mem_cons_self), fun _ => rfl⟩
    · rw [if_neg hlike]
      refine ⟨fun hall => ?_, fun ⟨f, hf, hflike⟩ => ?_⟩
      · obtain ⟨eventLoc₂, hrest⟩ := hsafe fun f hf => hall f (List.mem_cons_of_mem _ hf)
        refine ⟨eventLoc₂, ?_⟩
        rw [hrest, ObserverRun.after_after]
        rfl
      · rw [ObserverRun.after_exit]
        rcases List.mem_cons.mp hf with rfl | hf
        · exact absurd hflike hlike
        · exact hname ⟨f, hf, hflike⟩

/-- The server at the disconnect message. -/
theorem observerLoop_disconnect (garbage : ℕ → Memory) (eventLoc m : Memory) :
    observerLoop garbage eventLoc (newDisconnectObserverMessage m) = ⟨[], [], .disconnection⟩ := by
  have hlen : (newDisconnectObserverMessage m).length = 40 := length_block
  obtain ⟨stale, hbytes⟩ := block_store_append (k := 40) (m := m)
    (show (encode 4 1).length ≤ 40 by decide)
  have hread : readBytes 40 (newDisconnectObserverMessage m) =
      (newDisconnectObserverMessage m, []) := by
    have h := readBytes_append_of_eq hlen []
    rwa [List.append_nil] at h
  have htype : ∀ m', loadAt 4 0 (store (newDisconnectObserverMessage m) m') = 1 := fun m' => by
    unfold newDisconnectObserverMessage
    rw [hbytes]
    exact loadAt_store_encode (by decide)
  rw [observerLoop, hread]
  simp only [hlen, htype, if_true]
  rfl

/-- **A sequence of buffers and the disconnect message**, by induction on the buffers. -/
theorem observerLoop_deliveries (garbage : ℕ → Memory) (m : Memory) :
    ∀ (ds : List Delivery) (eventLoc : Memory),
    ((∀ d ∈ ds, ∀ e ∈ d.events, ¬ e.LikeDisconnect) →
        observerLoop garbage eventLoc (doObserverClient ds m) =
          ⟨ds.flatMap Delivery.notifications, [], .disconnection⟩) ∧
      ((∃ d ∈ ds, ∃ e ∈ d.events, e.LikeDisconnect) →
        (observerLoop garbage eventLoc (doObserverClient ds m)).exit = .name)
  | [], eventLoc => by
    refine ⟨fun _ => observerLoop_disconnect garbage eventLoc m, ?_⟩
    rintro ⟨d, hd, -⟩
    exact absurd hd List.not_mem_nil
  | d :: ds, eventLoc => by
    have hclient : doObserverClient (d :: ds) m =
        sendEvents d.clock (store ([] ++ d.events.flatMap Event.bytes) d.stale)
          ([] ++ d.events.flatMap Event.bytes).length 0 ([] : Bytes).length ++
            doObserverClient ds m := by
      unfold doObserverClient
      rw [List.flatMap_cons, List.append_assoc]
      rfl
    obtain ⟨hsafe, hname⟩ := observerLoop_sendEvents garbage d.clock d.stale
      (doObserverClient ds m) d.events [] 0 eventLoc d.fits
    rw [hclient]
    constructor
    · intro hall
      obtain ⟨eventLoc₁, hrest⟩ := hsafe (hall d List.mem_cons_self)
      have ih := (observerLoop_deliveries garbage m ds eventLoc₁).1
        fun d' hd' => hall d' (List.mem_cons_of_mem _ hd')
      rw [hrest, ih]
      rfl
    · rintro ⟨d', hd', he⟩
      rcases List.mem_cons.mp hd' with rfl | hd'
      · exact hname he
      · by_cases hfirst : ∃ e ∈ d.events, e.LikeDisconnect
        · exact hname hfirst
        · obtain ⟨eventLoc₁, hrest⟩ := hsafe fun e he hlike => hfirst ⟨e, he, hlike⟩
          rw [hrest, ObserverRun.after_exit]
          exact (observerLoop_deliveries garbage m ds eventLoc₁).2 ⟨d', hd', he⟩

/-- **Observer protocol round trip, exactly.** The server decodes one notification for each event,
in order, with its time, mask and name, and ends at the disconnect message, iff no event has a name
that begins with the four bytes of `DISCONNECT_CODE`. -/
theorem observerThread_iff (ds : List Delivery) (garbage : ℕ → Memory) (eventLoc m : Memory) :
    ((observerLoop garbage eventLoc (doObserverClient ds m)).notifications =
        ds.flatMap Delivery.notifications ∧
      (observerLoop garbage eventLoc (doObserverClient ds m)).exit = .disconnection) ↔
    ∀ d ∈ ds, ∀ e ∈ d.events, ¬ e.LikeDisconnect := by
  obtain ⟨hsafe, hname⟩ := observerLoop_deliveries garbage m ds eventLoc
  constructor
  · rintro ⟨-, hexit⟩ d hd e he hlike
    rw [hname ⟨d, hd, e, he, hlike⟩] at hexit
    cases hexit
  · intro hall
    rw [hsafe hall]
    exact ⟨rfl, rfl⟩

/-- A file whose name is the four bytes of `DISCONNECT_CODE` is created. -/
def codeNamed : Delivery where
  events := [{
    wd := 1
    mask := 0x100
    cookie := 0
    name := disconnectBytes
    nuls := 12
    noNul := by decide
    noSlash := by decide
    short := by decide
    terminated := by decide }]
  fits := by decide
  stale := fun _ => 0
  clock := fun _ => ⟨0, 0, 0⟩

/-- **A file name taken for a disconnect**: the thread ends at the name, and the event is lost. -/
theorem observerThread_codeNamed :
    ¬ ((observerLoop (fun _ _ => 0) (fun _ => 0)
          (doObserverClient [codeNamed] fun _ => 0)).notifications =
        [codeNamed].flatMap Delivery.notifications ∧
      (observerLoop (fun _ _ => 0) (fun _ => 0)
          (doObserverClient [codeNamed] fun _ => 0)).exit = .disconnection) := by
  rintro ⟨-, hexit⟩
  rw [(observerLoop_deliveries _ _ [codeNamed] _).2
    ⟨codeNamed, List.mem_cons_self, _, List.mem_cons_self, List.prefix_rfl⟩] at hexit
  cases hexit

end C380.Notapp
