import C380.Notapp.CallEffects
import C380.Notapp.ObserverSession
import C380.Notapp.Views

/-!
# What users see, whatever observers send (`Assignment02/`)

The bytes an observer sends are not checked: the lengths, the times and the names are whatever the
client says. Still every entry that `observer_thread` adds is a row of the user protocol, unless the
thread has left a buffer before.

* `observerThreadRun_rows`: **on any input the entries are rows**: without NUL, shorter than 1024,
  and empty or with a time in front.
* `userScreens_fromThreads`: **a user client shows the strings of each broadcast**, and reads to the
  last byte, in every run of calls whose entries come out of such threads (`FromThread`).
-/

namespace C380.Notapp

open CText LittleEndian Transition

/-! ## Entries are rows -/

section Rows

/-- A number of 64 bits has at most 19 digits and a sign. -/
theorem length_formatLd_le {n : Int} (h : n.natAbs ≤ 2 ^ 63) : (formatLd n).length ≤ 20 := by
  have hlog : Nat.log 10 n.natAbs < 19 := by
    by_cases h0 : n.natAbs = 0
    · rw [h0, Nat.log_zero_right]
      omega
    · exact Nat.log_lt_of_lt_pow h0 (by omega)
  have hsign : (signBytes n).length ≤ 1 := by
    unfold signBytes
    split <;> simp
  rw [formatLd, List.length_append, length_decimal]
  omega

/-- A timestamp of 64-bit numbers is never cut off. -/
theorem length_timestamp_le {tv : Timeval} (hsec : tv.tvSec.natAbs ≤ 2 ^ 63)
    (husec : tv.tvUsec.natAbs ≤ 2 ^ 63) : (timestamp tv).length ≤ 42 := by
  have hld := length_formatLd_le hsec
  have hld' := length_formatLd_le husec
  rw [formatLd, List.length_append] at hld'
  simp only [timestamp, format06ld, List.length_append, List.length_replicate, List.length_cons,
    List.length_nil]
  omega

theorem zero_notMem_timestamp (tv : Timeval) : 0 ∉ timestamp tv := by
  intro h
  rw [timestamp, List.mem_append, List.mem_append, List.mem_append, List.mem_singleton,
    List.mem_singleton] at h
  rcases h with ((h | h) | h) | h
  · rcases mem_formatLd h with h | h
    · cases h
    · exact absurd h.1 (by decide)
  · cases h
  · rcases mem_format06ld h with h | h
    · cases h
    · exact absurd h.1 (by decide)
  · cases h

theorem zero_notMem_textsOf (mask : BitVec 32) : 0 ∉ (textsOf mask).flatten := by
  intro h
  obtain ⟨text, htext, h⟩ := List.mem_flatten.mp h
  obtain ⟨m, hm, rfl⟩ := List.mem_map.mp htext
  have hall : ∀ m ∈ maskTexts, 0 ∉ textBytes m.2 := by decide
  exact hall m (List.mem_filter.mp hm).1 h

/-- The bytes up to the first NUL have none. -/
theorem zero_notMem_cstring (s : Bytes) : 0 ∉ cstring s := by
  intro h
  have htake : s.takeWhile (· != 0) = cstring s :=
    List.prefix_iff_eq_take.mp (List.takeWhile_prefix _)
  rw [← htake] at h
  exact absurd (List.mem_takeWhile_imp h) (by decide)

/-- What is appended to the timestamp, whatever it is. -/
def appended (monitored host : Bytes) (name : Option Bytes) (mask : BitVec 32) : List Bytes :=
  [snprintf (bufSize - 1) (host ++ [9]), snprintf (bufSize - 1) (monitored ++ [9])] ++
    (match name with
      | some eventLoc => [eventLoc, [32]]
      | none => []) ++ textsOf mask

/-- A row is a sequence of `strcat` behind the timestamp, and a `strcpy`. -/
theorem assembleRow_eq_foldlM (monitored host : Bytes) {tv : Timeval} (name : Option Bytes)
    (mask : BitVec 32) (htv : (timestamp tv).length ≤ 42) :
    assembleRow monitored host tv name mask =
      ((appended monitored host name mask).foldlM (strcat bufSize) (timestamp tv)).bind
        (strcpy bufSize) := by
  have hstamp : snprintf (bufSize - 1) (timestamp tv) = timestamp tv :=
    List.take_of_length_le (htv.trans (by decide))
  simp only [assembleRow, appended, hstamp, List.foldlM_append, List.foldlM_cons, List.foldlM_nil,
    Option.bind_eq_bind, translateMasks_eq]
  cases name with
  | none => simp only [Option.bind_assoc, Option.pure_def, Option.bind_some, List.foldlM_nil]
  | some eventLoc =>
    simp only [Option.bind_assoc, Option.pure_def, Option.bind_some, List.foldlM_cons,
      List.foldlM_nil, Option.bind_eq_bind]

theorem zero_notMem_appended {monitored host : Bytes} {name : Option Bytes} (mask : BitVec 32)
    (hmonitored : 0 ∉ monitored) (hhost : 0 ∉ host) (hname : ∀ eventLoc ∈ name, 0 ∉ eventLoc) :
    0 ∉ (appended monitored host name mask).flatten := by
  have hcut : ∀ s : Bytes, 0 ∉ s → 0 ∉ snprintf (bufSize - 1) (s ++ [9]) := fun s hs h => by
    rcases List.mem_append.mp (List.mem_of_mem_take h) with h | h
    · exact hs h
    · exact absurd (List.mem_singleton.mp h) (by decide)
  have hevent : 0 ∉ (match name with
      | some eventLoc => [eventLoc, [32]]
      | none => ([] : List Bytes)).flatten := by
    cases name with
    | none => exact List.not_mem_nil
    | some eventLoc => simpa using hname eventLoc rfl
  unfold appended
  rw [List.flatten_append, List.flatten_append, List.mem_append, List.mem_append]
  rintro ((h | h) | h)
  · rw [List.flatten_cons, List.flatten_cons, List.flatten_nil, List.append_nil,
      List.mem_append] at h
    exact h.elim (hcut host hhost) (hcut monitored hmonitored)
  · exact hevent h
  · exact zero_notMem_textsOf mask h

/-- **A row that is put together is a row of the user protocol.** -/
theorem assembleRow_row {monitored host row : Bytes} {tv : Timeval} {name : Option Bytes}
    {mask : BitVec 32} (h : assembleRow monitored host tv name mask = some row)
    (hmonitored : 0 ∉ monitored) (hhost : 0 ∉ host) (hname : ∀ eventLoc ∈ name, 0 ∉ eventLoc)
    (hsec : tv.tvSec.natAbs ≤ 2 ^ 63) (husec : tv.tvUsec.natAbs ≤ 2 ^ 63) :
    ∃ r : Row, r.bytes = row := by
  have htv := length_timestamp_le hsec husec
  have hbuf : bufSize = 1024 := rfl
  rw [assembleRow_eq_foldlM monitored host name mask htv, foldlM_strcat _ _ (by omega),
    Option.bind_eq_some_iff] at h
  obtain ⟨buf, hbuf', hcopy⟩ := h
  rw [Option.ite_none_right_eq_some] at hbuf'
  obtain ⟨hfits, hbuf'⟩ := hbuf'
  rw [strcpy, strcat, Option.ite_none_right_eq_some] at hcopy
  obtain ⟨hshort, hrow⟩ := hcopy
  obtain rfl : buf = row := Option.some.inj hrow
  obtain rfl := Option.some.inj hbuf'
  refine ⟨⟨_, fun hzero => ?_, ?_, Or.inr ⟨tv, _, rfl⟩⟩, rfl⟩
  · rcases List.mem_append.mp hzero with hzero | hzero
    · exact zero_notMem_timestamp tv hzero
    · exact zero_notMem_appended mask hmonitored hhost hname hzero
  · rw [List.length_append]
    omega

end Rows

/-! ## The entries of a thread -/

/-- The number a client sends for a time has 64 bits. -/
theorem natAbs_toInt_le (n : ℕ) : (BitVec.ofNat 64 n).toInt.natAbs ≤ 2 ^ 63 := by
  have hlt := BitVec.toInt_lt (x := BitVec.ofNat 64 n)
  have hle := BitVec.le_toInt (BitVec.ofNat 64 n)
  omega

theorem notify_tv_le (notification eventLoc : Memory) :
    (notify notification eventLoc).tv.tvSec.natAbs ≤ 2 ^ 63 ∧
      (notify notification eventLoc).tv.tvUsec.natAbs ≤ 2 ^ 63 := by
  simp only [notify]
  exact ⟨natAbs_toInt_le _, natAbs_toInt_le _⟩

/-- An entry that the loop makes of a message is a row, whatever the message says. -/
theorem notify_entry_row {monitored host : Bytes} {notification eventLoc : Memory} {named : Bool}
    {entry : Entry} (h : (notify notification eventLoc).entry monitored host named = some entry)
    (hmonitored : 0 ∉ monitored) (hhost : 0 ∉ host) : ∃ r : Row, r.bytes = entry.string := by
  obtain ⟨row, hrow, rfl⟩ := Option.map_eq_some_iff.mp h
  obtain ⟨hsec, husec⟩ := notify_tv_le notification eventLoc
  refine assembleRow_row hrow hmonitored hhost (fun name hname => ?_) hsec husec
  rw [Option.mem_def, Option.ite_none_right_eq_some] at hname
  rw [← Option.some.inj hname.2]
  simp only [notify]
  exact zero_notMem_cstring (block bufSize eventLoc)

/-- **The entries of the loop are rows**, by induction on what is left to read. -/
theorem threadLoop_rows {monitored host : Bytes} (hmonitored : 0 ∉ monitored) (hhost : 0 ∉ host)
    (garbage : ℕ → Memory) (eventLoc : Memory) (input : Bytes) : ∀ {run : ThreadRun},
    threadLoop monitored host garbage eventLoc input = some run →
    ∀ entry ∈ run.entries, ∃ r : Row, r.bytes = entry.string := by
  have hcons : ∀ {made : Option Entry} {more : Option ThreadRun} {run : ThreadRun},
      (∀ entry, made = some entry → ∃ r : Row, r.bytes = entry.string) →
      (∀ {run}, more = some run → ∀ entry ∈ run.entries, ∃ r : Row, r.bytes = entry.string) →
      (made.bind fun entry => more.map (ThreadRun.after [entry])) = some run →
      ∀ entry ∈ run.entries, ∃ r : Row, r.bytes = entry.string := by
    intro made more run hmade hmore h entry hentry
    obtain ⟨first, hfirst, h⟩ := Option.bind_eq_some_iff.mp h
    obtain ⟨run', hrun', rfl⟩ := Option.map_eq_some_iff.mp h
    rcases List.mem_cons.mp hentry with rfl | hentry
    · exact hmade _ hfirst
    · exact hmore hrun' entry hentry
  intro run h
  fun_induction threadLoop monitored host garbage eventLoc input generalizing run with
  | case1 | case2 | case5 =>
    cases h
    exact fun _ hentry => absurd hentry List.not_mem_nil
  | case3 | case6 =>
    rename_i ih
    exact hcons (fun entry hentry => notify_entry_row hentry hmonitored hhost) ih h
  | case4 => cases h

theorem zero_notMem_strcpyBlock {size : ℕ} {str s : Bytes} (h : strcpyBlock size str = some s) :
    0 ∉ s := by
  rw [strcpyBlock, Option.ite_none_right_eq_some, strcpy, strcat,
    Option.ite_none_right_eq_some] at h
  obtain rfl := Option.some.inj h.2.2
  exact zero_notMem_cstring str

/-- **Every entry is a row**, whatever bytes the client sends. -/
theorem observerThreadRun_rows {garbage : ThreadGarbage} {input : Bytes} {run : ThreadRun}
    (h : observerThreadRun garbage input = some run) :
    ∀ entry ∈ run.entries, ∃ r : Row, r.bytes = entry.string := by
  simp only [observerThreadRun, Option.bind_eq_bind, Option.bind_eq_some_iff] at h
  obtain ⟨⟨tmpMonitored, input₁⟩, -, monitored, hmonitored, ⟨ipHost, input₂⟩, -, host, hhost, run',
    hrun', h⟩ := h
  obtain rfl := Option.some.inj h
  intro entry hentry
  rcases List.mem_cons.mp hentry with rfl | hentry
  · exact ⟨⟨[], List.not_mem_nil, by decide, Or.inl rfl⟩, rfl⟩
  · exact threadLoop_rows (zero_notMem_strcpyBlock hmonitored) (zero_notMem_strcpyBlock hhost) _ _ _
      hrun' entry hentry

/-! ## The server data -/

/-- A text of bytes. -/
def bytesText (bytes : Bytes) : String := String.ofList (bytes.map Char.ofUInt8)

/-- The entry as `add_entry` gets it; it does not look at `is_taken`. -/
def Entry.userEntry (entry : Entry) : UserEntry := ⟨false, entry.tv, bytesText entry.string⟩

@[simp] theorem textBytes_bytesText (bytes : Bytes) : textBytes (bytesText bytes) = bytes := by
  rw [textBytes, bytesText, String.toList_ofList, List.map_map]
  refine (List.map_congr_left fun b _ => ?_).trans (List.map_id bytes)
  have hchar : (Char.ofUInt8 b).toNat = b.toNat := UInt8.toNat_toUInt32 b
  simp only [Function.comp_apply, hchar, id_eq]
  exact UInt8.ofNat_toNat

/-- The entry comes out of a thread, on some input. -/
def UserEntry.OfThread (entry : UserEntry) : Prop :=
  ∃ garbage input run e, observerThreadRun garbage input = some run ∧ e ∈ run.entries ∧
    entry = e.userEntry

theorem UserEntry.OfThread.row {entry : UserEntry} (h : entry.OfThread) :
    ∃ r : Row, r.bytes = textBytes entry.string := by
  obtain ⟨garbage, input, run, e, hrun, he, rfl⟩ := h
  obtain ⟨r, hr⟩ := observerThreadRun_rows hrun e he
  exact ⟨r, by rw [hr, Entry.userEntry, textBytes_bytesText]⟩

/-- What is added comes out of a thread. -/
def FromThread {ι : Type} (_ : Leases ι) : Call ι → Prop
  | .addEntry _ entry => entry.OfThread
  | _ => True

/-- Every string of the array, taken or not, is a row. -/
def ServerData.HoldsRows (d : ServerData) : Prop :=
  ∀ i, ∃ r : Row, r.bytes = textBytes (d.entryArray i).string

/-- A string is an entry's, or was in the array before. -/
theorem ServerData.HoldsRows.of_strings {d d' : ServerData} (hd : d.HoldsRows)
    (h : ∀ i, (∃ j, (d'.entryArray i).string = (d.entryArray j).string) ∨
      ∃ r : Row, r.bytes = textBytes (d'.entryArray i).string) : d'.HoldsRows := by
  intro i
  rcases h i with ⟨j, hj⟩ | hrow
  · rw [hj]
    exact hd j
  · exact hrow

/-- A row is written over. -/
theorem ServerData.HoldsRows.update {d : ServerData} (hd : d.HoldsRows) {index : Fin clientMax}
    {row : UserEntry} {n m : Int} (hrow : ∃ r : Row, r.bytes = textBytes row.string) :
    ServerData.HoldsRows ⟨n, m, Function.update d.entryArray index row⟩ := by
  refine hd.of_strings fun i => ?_
  by_cases hi : i = index
  · rw [hi]
    exact Or.inr (by simpa using hrow)
  · exact Or.inl ⟨i, by simp [Function.update_of_ne hi]⟩

theorem ServerData.SameTexts.holdsRows {d d' : ServerData} (h : d.SameTexts d')
    (hd : d.HoldsRows) : d'.HoldsRows :=
  hd.of_strings fun i => Or.inl ⟨i, (h i).2⟩

theorem ServerData.HoldsRows.rowString {d : ServerData} (hd : d.HoldsRows) (i : ℕ) :
    ∃ r : Row, r.bytes = textBytes (d.rowString i) := by
  unfold ServerData.rowString
  split
  · exact hd _
  · exact ⟨⟨[], List.not_mem_nil, by decide, Or.inl rfl⟩, rfl⟩

section Leases

variable {ι : Type} [DecidableEq ι] {s s' : Leases ι} {a : Call ι}

/-- **A call keeps the rows**: it writes the string of an entry, or moves strings. -/
theorem LeaseStep.holdsRows (h : LeaseStep s a s') (hfrom : FromThread s a)
    (hs : s.data.HoldsRows) : s'.data.HoldsRows := by
  cases h with
  | registerObserver o hnew => exact s.data.registerObserver_sameTexts.holdsRows hs
  | addEntry o entry index hlive =>
    exact hs.update hfrom.row
  | sortEntryArray data hsort =>
    obtain ⟨p, -, ha⟩ := hsort.perm
    exact hs.of_strings fun i => Or.inl ⟨p i, by rw [ha i]⟩
  | unregisterObserver o index hlive =>
    exact (s.data.unregisterObserver_sameTexts index).holdsRows hs

theorem holdsRows_of_reach (h : Reach LeaseStep FromThread (Leases.init ι) s) :
    s.data.HoldsRows := by
  induction h with
  | init => exact fun _ => ⟨⟨[], List.not_mem_nil, by decide, Or.inl rfl⟩, rfl⟩
  | step a _ hfrom hstep ih => exact hstep.holdsRows hfrom ih

end Leases

/-! ## The screen -/

/-- What `do_user_client` prints for a list, once it has cleared the screen. -/
def screen (texts : List Bytes) : Bytes :=
  textBytes clientHeader ++ texts.flatMap fun text => if text.length > 0 then text ++ [10] else []

/-- What it prints for a stream, list by list. -/
def userScreens (garbage : Garbages) (input : Bytes) : Option (List Bytes) :=
  (doUserClient garbage input).map fun run => run.lists.map screen

/-- The bytes of a call of `send_entries` that no other call interrupts. -/
def sentBytes (d : ServerData) : Option Bytes :=
  (sendEntries fun _ => d).map fun sent =>
    intBytes sent.1 ++ sent.2.flatMap fun string => sendString (textBytes string ++ [0])

/-- A count and as many strings are a broadcast of the user protocol. -/
theorem broadcast_of_strings (strings : List String)
    (hrows : ∀ string ∈ strings, ∃ r : Row, r.bytes = textBytes string)
    (hmax : strings.length ≤ clientMax) : ∃ b : Broadcast,
      b.bytes = intBytes strings.length ++
        (strings.flatMap fun string => sendString (textBytes string ++ [0])) ∧
      b.strings = strings.map textBytes := by
  choose row hrow using hrows
  have hcount : (BitVec.ofInt 32 strings.length).toInt = strings.length := by
    rw [BitVec.toInt_ofInt, Int.bmod_eq_of_le] <;> simp only [clientMax] at hmax <;> omega
  let b : Broadcast := {
    observerCount := .ofInt 32 strings.length
    entryArray := fun i => textBytes (strings[i]?.getD "") ++ [0]
    rows := strings.attach.map fun string => row string.1 string.2
    count := by rw [hcount, List.length_map, List.length_attach]
    holds := fun i hi => by
      rw [List.length_map, List.length_attach] at hi
      refine ⟨[], ?_⟩
      rw [List.getElem_map, hrow, List.getElem_attach, List.getElem?_eq_getElem hi,
        Option.getD_some] }
  refine ⟨b, ?_, ?_⟩
  · have hrange : (List.range strings.length).map (fun i => strings[i]?.getD "") = strings := by
      refine List.ext_getElem (by simp) fun i hi hi' => ?_
      rw [List.getElem_map, List.getElem_range, List.getElem?_eq_getElem hi', Option.getD_some]
    rw [Broadcast.bytes, sendEntriesBytes, hcount, Int.toNat_natCast]
    conv_rhs => rw [← hrange, List.flatMap_map, List.length_map, List.length_range]
  · have hstrings : b.strings = strings.attach.map fun string => textBytes string.1 := by
      simp only [b, Broadcast.strings, List.map_map]
      exact List.map_congr_left fun string _ => hrow string.1 string.2
    rw [hstrings]
    exact List.attach_map_val

section Screens

variable {ι : Type} [DecidableEq ι]

/-- What the call sends is a broadcast of the user protocol. -/
theorem exists_broadcast {s : Leases ι} (h : Reach LeaseStep FromThread (Leases.init ι) s) :
    ∃ b : Broadcast, sentBytes s.data = some b.bytes ∧
      b.strings = (s.data.strings s.data.observerCount.toNat).map textBytes := by
  have hok := LeasesOk.of_reach h
  have hmax := hok.reachable.countOk.count_le
  obtain ⟨n, hn, -⟩ := hok.live
  have hlen : (s.data.strings s.data.observerCount.toNat).length = n := by
    rw [ServerData.strings, List.length_map, List.length_range, hn, Int.toNat_natCast]
  obtain ⟨b, hbytes, hstrings⟩ := broadcast_of_strings
    (s.data.strings s.data.observerCount.toNat)
    (fun string hstring => by
      obtain ⟨i, -, rfl⟩ := List.mem_map.mp hstring
      exact (holdsRows_of_reach h).rowString i)
    (by rw [hlen]; omega)
  refine ⟨b, ?_, hstrings⟩
  rw [hbytes, hlen, sentBytes, sendEntries_quiet hmax, Option.map_some, hn, ServerData.strings]

/-- **Users see every broadcast, whatever the observers send.** When the entries come out of threads
on any input, a user client shows for each call of `send_entries`, in order, the strings that are
not empty, and reads to the last byte. -/
theorem userScreens_fromThreads (garbage : Garbages) (ss : List (Leases ι))
    (h : ∀ s ∈ ss, Reach LeaseStep FromThread (Leases.init ι) s) :
    ∃ sent, (ss.mapM fun s => sentBytes s.data) = some sent ∧
      userScreens garbage sent.flatten = some (ss.map fun s =>
        screen ((s.data.strings s.data.observerCount.toNat).map textBytes)) := by
  have hbroadcasts : ∃ bs : List Broadcast,
      (ss.mapM fun s => sentBytes s.data) = some (bs.map Broadcast.bytes) ∧
      bs.map Broadcast.strings =
        ss.map fun s => (s.data.strings s.data.observerCount.toNat).map textBytes := by
    induction ss with
    | nil => exact ⟨[], rfl, rfl⟩
    | cons s ss ih =>
      obtain ⟨b, hsent, hstrings⟩ := exists_broadcast (h s List.mem_cons_self)
      obtain ⟨bs, hsent', hstrings'⟩ := ih fun s' hs' => h s' (List.mem_cons_of_mem _ hs')
      refine ⟨b :: bs, ?_, ?_⟩
      · rw [List.mapM_cons, hsent, hsent']
        rfl
      · rw [List.map_cons, List.map_cons, hstrings, hstrings']
  obtain ⟨bs, hsent, hstrings⟩ := hbroadcasts
  have hscreens : ∀ lists, (ss.map fun s =>
      (s.data.strings s.data.observerCount.toNat).map textBytes) = lists →
      (ss.map fun s => screen ((s.data.strings s.data.observerCount.toNat).map textBytes)) =
        lists.map screen := by
    rintro _ rfl
    rw [List.map_map]
    rfl
  refine ⟨bs.map Broadcast.bytes, hsent, ?_⟩
  rw [hscreens _ hstrings.symm, userScreens, doUserClient, ← List.flatMap_def,
    userLoop_broadcasts, Option.map_some]

end Screens

/-! ### A file is created -/

/-- What `add_entry` gets for the file. -/
def createdEntry : UserEntry := ⟨false, ⟨7, 42⟩, "7.000042\t10.0.0.7\t/tmp\ta IN_CREATE "⟩

theorem createdEntry_ofThread : createdEntry.OfThread :=
  ⟨⟨fun _ => 0, ⟨fun _ => 0, fun _ => 0⟩, ⟨fun _ => 0, fun _ => 0⟩, fun _ => 0, fun _ _ => 0⟩, _, _,
    ⟨⟨7, 42⟩, textBytes createdEntry.string⟩,
    ObserverSession.observerThreadRun_clean watchTmp_create _ fun _ => 0, by decide, by decide⟩

/-- The observer is registered, and the file is created. -/
def registered : Leases Unit := ⟨emptyServerData.registerObserver.2, fun _ => some ⟨0, by decide⟩⟩

def created : Leases Unit :=
  ⟨registered.data.addEntry createdEntry ⟨0, by decide⟩, registered.index⟩

theorem reach_registered : Reach LeaseStep FromThread (Leases.init Unit) registered := by
  refine Reach.init.step (.registerObserver ()) trivial ?_
  have hstate : registered = ⟨emptyServerData.registerObserver.2,
      Function.update (Leases.init Unit).index () emptyServerData.registerObserver.1⟩ :=
    congrArg (Leases.mk _) (funext fun ⟨⟩ => by decide)
  rw [hstate]
  exact .registerObserver (s := .init Unit) () rfl

theorem reach_created : Reach LeaseStep FromThread (Leases.init Unit) created :=
  reach_registered.step (.addEntry () createdEntry) createdEntry_ofThread (.addEntry () _ _ rfl)

/-- **Two broadcasts on a screen**: the header alone, and the header with the row of the file. -/
theorem userScreens_fromThreads_created :
    ∃ sent, ([registered, created].mapM fun s => sentBytes s.data) = some sent ∧
      userScreens (fun _ => ⟨fun _ => 0, fun _ => 0⟩) sent.flatten = some [
        textBytes clientHeader,
        textBytes clientHeader ++
          textBytes "7.000042\t10.0.0.7\t/tmp\ta IN_CREATE \n"] := by
  obtain ⟨sent, hsent, hscreens⟩ := userScreens_fromThreads (fun _ => ⟨fun _ => 0, fun _ => 0⟩)
    [registered, created] fun s hs => by
      rcases List.mem_pair.mp hs with rfl | rfl
      · exact reach_registered
      · exact reach_created
  refine ⟨sent, hsent, hscreens.trans ?_⟩
  decide

end C380.Notapp
