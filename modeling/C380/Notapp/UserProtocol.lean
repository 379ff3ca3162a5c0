import Mathlib.Data.Nat.Digits.Lemmas
import C380.Notapp.Calls
import C380.Notapp.Wire

/-!
# The user protocol (`send_entries` to `do_user_client`, `Assignment02/`)

A broadcast is an `int`, how many strings follow, and the strings. There is no other framing:
`do_user_client` reads a count, that many strings, and the next count, and takes a count, a size or
the beginning of a string for a disconnect when its first four bytes say `-10`.

* `Row`: a row as `observer_thread` writes it, empty or beginning with a `timestamp`.
* `Broadcast`: one call of `send_entries` that nobody changes `observer_count` under.
* `doUserClient_broadcasts`: **the client decodes every sequence of broadcasts** to the rows that
  were sent, to the last byte, whatever the memory it reads into held before.
* `sendEntries_bytes`: the bytes are those of the `send_entries` in `SendEntries.lean`.
-/

namespace C380.Notapp

open LittleEndian

/-! ## The rows of `observer_thread` -/

/-- A number in decimal. -/
def decimal (n : ℕ) : Bytes :=
  if n = 0 then [48] else (Nat.digits 10 n).reverse.map fun k => UInt8.ofNat (48 + k)

/-- A minus sign where there has to be one. -/
def signBytes (n : Int) : Bytes := if n < 0 then [45] else []

/-- `%ld`. -/
def formatLd (n : Int) : Bytes := signBytes n ++ decimal n.natAbs

/-- `%06ld`. -/
def format06ld (n : Int) : Bytes :=
  let width := (signBytes n).length + (decimal n.natAbs).length
  signBytes n ++ List.replicate (6 - width) 48 ++ decimal n.natAbs

/-- `"%ld.%06ld\t"` of a time. -/
def timestamp (tv : Timeval) : Bytes := formatLd tv.tvSec ++ [46] ++ format06ld tv.tvUsec ++ [9]

/-- A row of the entry array: empty, or what `observer_thread` has composed. -/
structure Row where
  bytes : Bytes
  noNul : 0 ∉ bytes
  short : bytes.length < 1024
  stamped : bytes = [] ∨ ∃ tv rest, bytes = timestamp tv ++ rest

theorem decimal_head (n : ℕ) : ∃ b rest, decimal n = b :: rest ∧ b.toNat < 58 := by
  by_cases h0 : n = 0
  · exact ⟨48, [], by rw [decimal, if_pos h0], by decide⟩
  · cases hd : (Nat.digits 10 n).reverse with
    | nil => exact absurd (List.reverse_eq_nil_iff.mp hd) (Nat.digits_ne_nil_iff_ne_zero.mpr h0)
    | cons k ks =>
      have hmem : k ∈ Nat.digits 10 n := by
        rw [← List.mem_reverse, hd]
        exact List.mem_cons_self
      have hk : k < 10 := Nat.digits_lt_base (by omega) hmem
      have hb : (UInt8.ofNat (48 + k)).toNat = 48 + k := by
        rw [UInt8.toNat_ofNat']
        omega
      exact ⟨UInt8.ofNat (48 + k), _, by rw [decimal, if_neg h0, hd, List.map_cons],
        by omega⟩

/-- The digits of a number. -/
theorem mem_decimal {n : ℕ} {b : UInt8} (h : b ∈ decimal n) : 48 ≤ b.toNat ∧ b.toNat < 58 := by
  unfold decimal at h
  split at h
  · obtain rfl := List.mem_singleton.mp h
    decide
  · obtain ⟨k, hk, rfl⟩ := List.mem_map.mp h
    have hlt : k < 10 := Nat.digits_lt_base (by omega) (List.mem_reverse.mp hk)
    rw [UInt8.toNat_ofNat']
    omega

/-- The characters of `%ld`. -/
theorem mem_formatLd {n : Int} {b : UInt8} (h : b ∈ formatLd n) :
    b = 45 ∨ 48 ≤ b.toNat ∧ b.toNat < 58 := by
  rcases List.mem_append.mp h with h | h
  · unfold signBytes at h
    split at h
    · exact Or.inl (List.mem_singleton.mp h)
    · exact absurd h List.not_mem_nil
  · exact Or.inr (mem_decimal h)

/-- The characters of `%06ld`. -/
theorem mem_format06ld {n : Int} {b : UInt8} (h : b ∈ format06ld n) :
    b = 45 ∨ 48 ≤ b.toNat ∧ b.toNat < 58 := by
  rw [format06ld, List.mem_append, List.mem_append] at h
  rcases h with (h | h) | h
  · exact mem_formatLd (List.mem_append_left _ h)
  · obtain rfl := List.eq_of_mem_replicate h
    exact Or.inr (by decide)
  · exact Or.inr (mem_decimal h)

/-- A timestamp begins with a digit or a minus sign. -/
theorem timestamp_head (tv : Timeval) : ∃ b rest, timestamp tv = b :: rest ∧ b.toNat < 58 := by
  obtain ⟨b, rest, hb, hlt⟩ := decimal_head tv.tvSec.natAbs
  by_cases hneg : tv.tvSec < 0
  · refine ⟨45, decimal tv.tvSec.natAbs ++ [46] ++ format06ld tv.tvUsec ++ [9], ?_, by decide⟩
    unfold timestamp formatLd signBytes
    rw [if_pos hneg]
    rfl
  · refine ⟨b, rest ++ [46] ++ format06ld tv.tvUsec ++ [9], ?_, hlt⟩
    unfold timestamp formatLd signBytes
    rw [if_neg hneg, hb]
    rfl

/-- **No row is taken for a disconnect**, also where it is shorter than an `int`. -/
theorem Row.not_isDisconnect (r : Row) (m : Memory) :
    isDisconnect (store (r.bytes ++ [0]) m) = false := by
  rcases r.stamped with h | ⟨tv, rest, h⟩
  · rw [h]
    exact isDisconnect_store_cons (by decide) _ m
  · obtain ⟨b, rest', hb, hlt⟩ := timestamp_head tv
    rw [h, hb]
    refine isDisconnect_store_cons ?_ _ m
    rintro rfl
    exact absurd hlt (by decide)

/-! ## The server's side -/

/-- The bytes of `send_entries` when `observer_count` does not change: the count, and a string for
each row below it. -/
def sendEntriesBytes (observerCount : Int) (entryArray : ℕ → Bytes) : Bytes :=
  intBytes observerCount ++
    (List.range observerCount.toNat).flatMap fun i => sendString (entryArray i)

/-- The buffer holds the string; behind the NUL is what `strcpy` did not overwrite. -/
def Holds (buffer string : Bytes) : Prop := ∃ stale, buffer = string ++ 0 :: stale

/-- One call of `send_entries`, with as many observers counted as there are rows. -/
structure Broadcast where
  observerCount : BitVec 32
  entryArray : ℕ → Bytes
  rows : List Row
  count : observerCount.toInt = rows.length
  holds : ∀ i (h : i < rows.length), Holds (entryArray i) rows[i].bytes

/-- The bytes the call writes. -/
def Broadcast.bytes (b : Broadcast) : Bytes := sendEntriesBytes b.observerCount.toInt b.entryArray

/-- The strings of its rows. -/
def Broadcast.strings (b : Broadcast) : List Bytes := b.rows.map Row.bytes

/-- **The bytes of `sendEntries`** with no call in between, `buffer` being the bytes of a string. -/
theorem sendEntries_bytes {d : ServerData} (hmax : d.observerCount ≤ (clientMax : Int))
    (buffer : String → Bytes) : ∃ header strings,
      sendEntries (fun _ => d) = some (header, strings) ∧
      intBytes header ++ strings.flatMap (fun s => sendString (buffer s)) =
        sendEntriesBytes d.observerCount fun i => buffer (d.rowString i) := by
  refine ⟨_, _, sendEntries_quiet hmax, ?_⟩
  unfold sendEntriesBytes ServerData.strings
  rw [List.flatMap_map]

/-! ## The client's side -/

/-- How the loop of `do_user_client` ends: at the end of the stream, or at a disconnect. -/
inductive UserExit where
  | closed
  | disconnect
  deriving DecidableEq, Repr

/-- The lists the client has read, what it has left, and how it ended. -/
structure UserRun where
  lists : List (List Bytes)
  left : Bytes
  exit : UserExit
  deriving DecidableEq, Repr

/-- What the variables of a call of `read_string` hold, for each number of bytes that are left: no
two calls are made with as many. -/
abbrev Garbages := ℕ → Garbage

/-- The inner loop with `n` strings still to read: the strings, and the rest of the stream. It has
no result when `read_string` gives `NULL`, which `strlen` is then called with. -/
def readEntries (garbage : Garbages) : ℕ → Bytes → Option (List Bytes × Bytes)
  | 0, input => some ([], input)
  | n + 1, input => do
    let (text, input) ← readString (garbage input.length) input
    let (texts, input) ← readEntries garbage n input
    some (cstring text :: texts, input)

theorem length_le_of_readEntries {garbage : Garbages} : ∀ {n : ℕ} {input rest : Bytes}
    {texts : List Bytes}, readEntries garbage n input = some (texts, rest) →
    rest.length ≤ input.length
  | 0, input, rest, texts, h => by
    obtain rfl := (Prod.mk.inj (Option.some.inj h)).2
    exact le_rfl
  | n + 1, input, rest, texts, h => by
    rw [readEntries, Option.bind_eq_bind, Option.bind_eq_some_iff] at h
    obtain ⟨⟨text, input₁⟩, hstr, h⟩ := h
    rw [Option.bind_eq_bind, Option.bind_eq_some_iff] at h
    obtain ⟨⟨texts₁, input₂⟩, hrest, h⟩ := h
    obtain rfl := (Prod.mk.inj (Option.some.inj h)).2
    exact (length_le_of_readEntries hrest).trans (length_le_of_readString hstr)

/-- The loop of `do_user_client`, with the variable `entry_count` as the last round left it.
`client_done` is never set. -/
def userLoop (garbage : Garbages) (entryCount : Memory) (input : Bytes) : Option UserRun :=
  if input.length = 0 then some ⟨[], input, .closed⟩
  else
    let entryCount := store (readBytes 4 input).1 entryCount
    if isDisconnect entryCount then some ⟨[], (readBytes 4 input).2, .disconnect⟩
    else
      match _hread : readEntries garbage (loadInt entryCount).toNat (readBytes 4 input).2 with
      | none => none
      | some (texts, rest) => (userLoop garbage entryCount rest).map fun run =>
        { run with lists := texts :: run.lists }
  termination_by input.length
  decreasing_by
    have hle := length_le_of_readEntries _hread
    unfold readBytes at hle
    rw [List.length_drop] at hle
    omega

/-- `do_user_client`, from its loop on. -/
def doUserClient (garbage : Garbages) (input : Bytes) : Option UserRun :=
  userLoop garbage (fun _ => 0) input

/-! ## The round trip -/

/-- **One list**: the inner loop reads the rows that were sent. -/
theorem readEntries_rows (garbage : Garbages) (rest : Bytes) :
    ∀ (rows : List Row) (entryArray : ℕ → Bytes),
    (∀ i (h : i < rows.length), Holds (entryArray i) rows[i].bytes) →
    readEntries garbage rows.length
      (((List.range rows.length).flatMap fun i => sendString (entryArray i)) ++ rest) =
        some (rows.map Row.bytes, rest)
  | [], _, _ => rfl
  | r :: rows, entryArray, holds => by
    obtain ⟨stale, hr⟩ := holds 0 (by simp)
    have ih := readEntries_rows garbage rest rows (fun i => entryArray (i + 1))
      fun i h => holds (i + 1) (by simpa using h)
    have hshort := r.short
    rw [List.length_cons, List.range_succ_eq_map, List.flatMap_cons, List.flatMap_map, hr,
      List.getElem_cons_zero, List.append_assoc, readEntries,
      readString_sendString r.noNul (by omega) stale _ _ (r.not_isDisconnect _)]
    simp only [Option.bind_eq_bind, Option.bind_some, ih, cstring_append_nul r.noNul, List.map_cons]

/-- **One broadcast**: the loop goes round once. -/
theorem userLoop_broadcast (garbage : Garbages) (entryCount : Memory) (b : Broadcast)
    (rest : Bytes) : ∃ entryCount', userLoop garbage entryCount (b.bytes ++ rest) =
      (userLoop garbage entryCount' rest).map fun run =>
        { run with lists := b.strings :: run.lists } := by
  have hcount : loadInt (store (intBytes b.observerCount.toInt) entryCount) = b.rows.length := by
    rw [loadInt_store_intBytes, ← b.count, ← BitVec.toInt_ofInt, BitVec.ofInt_toInt]
  have hdisc : isDisconnect (store (intBytes b.observerCount.toInt) entryCount) = false := by
    unfold isDisconnect
    rw [hcount, beq_eq_false_iff_ne, disconnectCode]
    omega
  have hrows := readEntries_rows garbage rest b.rows b.entryArray b.holds
  have hbytes : b.bytes ++ rest = intBytes b.observerCount.toInt ++
      (((List.range b.rows.length).flatMap fun i => sendString (b.entryArray i)) ++ rest) := by
    unfold Broadcast.bytes sendEntriesBytes
    rw [List.append_assoc, b.count, Int.toNat_natCast]
  have hsome : (b.bytes ++ rest).length ≠ 0 := by
    rw [hbytes, List.length_append, length_intBytes]
    omega
  refine ⟨store (intBytes b.observerCount.toInt) entryCount, ?_⟩
  rw [userLoop, if_neg hsome, hbytes, readBytes_append_of_eq (length_intBytes _)]
  simp only [hdisc, Bool.false_eq_true, if_false]
  split
  · rename_i h
    rw [hcount, Int.toNat_natCast, hrows] at h
    cases h
  · rename_i texts rest' h
    rw [hcount, Int.toNat_natCast, hrows] at h
    cases h
    rfl

/-- **A sequence of broadcasts**, by induction on the stream. -/
theorem userLoop_broadcasts (garbage : Garbages) : ∀ (bs : List Broadcast) (entryCount : Memory),
    userLoop garbage entryCount (bs.flatMap Broadcast.bytes) =
      some ⟨bs.map Broadcast.strings, [], .closed⟩
  | [], entryCount => by
    rw [List.flatMap_nil, userLoop, if_pos List.length_nil]
    rfl
  | b :: bs, entryCount => by
    obtain ⟨entryCount', h⟩ := userLoop_broadcast garbage entryCount b (bs.flatMap Broadcast.bytes)
    rw [List.flatMap_cons, h, userLoop_broadcasts garbage bs entryCount']
    rfl

/-- **User protocol round trip.** The client decodes every sequence of broadcasts to the lists that
were sent, in order, with no byte left, and ends where the stream does and not at a disconnect;
`read_string` never returns `NULL`. -/
theorem doUserClient_broadcasts (garbage : Garbages) (bs : List Broadcast) :
    doUserClient garbage (bs.flatMap Broadcast.bytes) =
      some ⟨bs.map Broadcast.strings, [], .closed⟩ :=
  userLoop_broadcasts garbage bs _

end C380.Notapp
