import C380.Lib.LittleEndian

/-!
# What goes over a socket (`Assignment02/notapp_base.c`)

The bytes that `send_string` writes, `read_string` on the other side, and `is_disconnect`, which
looks at the first four bytes of whatever it is given.

* A stream is the list of bytes still to read. `readBytes k` takes `k` of them, and fewer only at
  the end, as `read` does when it never returns short: it is never `-1`.
* A variable or a `malloc`ed block is a `Memory`: `read` stores what it got at the front, and what
  lies behind it stays. `is_disconnect` reads four bytes also where fewer were stored.
* `readString_sendString`: **`read_string` reads what `send_string` sent**, unless the string is
  too long for an `int` or its first four bytes are the disconnect code.
-/

namespace C380.Notapp

open LittleEndian

/-- The bytes of a stream. -/
abbrev Bytes := List UInt8

/-- The bytes from an address on. -/
abbrev Memory := ℕ → UInt8

/-- `DISCONNECT_CODE`. -/
def disconnectCode : Int := -10

/-- The memory after `bytes` are stored at its front. -/
def store (bytes : Bytes) (m : Memory) : Memory := fun i => bytes.getD i (m i)

/-- The first `k` bytes. -/
def block (k : ℕ) (m : Memory) : Bytes := (List.range k).map m

/-- The number in the `k` bytes at an offset. -/
def loadAt (k off : ℕ) (m : Memory) : ℕ := decode (block k fun i => m (off + i))

/-- An `int`, four bytes. -/
def loadInt (m : Memory) : Int := (BitVec.ofNat 32 (decode (block 4 m))).toInt

/-- A `size_t`, eight bytes. -/
def loadSize (m : Memory) : ℕ := decode (block 8 m)

/-- The bytes of an `int`. -/
def intBytes (n : Int) : Bytes := encode 4 (BitVec.ofInt 32 n).toNat

/-- `is_disconnect`. -/
def isDisconnect (val : Memory) : Bool := loadInt val == disconnectCode

/-- `strlen` of a buffer. -/
def strlen (string : Bytes) : ℕ := (string.takeWhile (· != 0)).length

/-- The string in a buffer: what stands before the first NUL. -/
def cstring (string : Bytes) : Bytes := string.take (strlen string)

/-- `send_string`: the size with the NUL, then the string with its NUL. -/
def sendString (string : Bytes) : Bytes :=
  encode 8 (strlen string + 1) ++ string.take (strlen string + 1)

/-- `read`: what it stores, and the rest of the stream. Its value is the number of bytes stored. -/
def readBytes (k : ℕ) (input : Bytes) : Bytes × Bytes := (input.take k, input.drop k)

/-- What a local variable and a new block hold before anything is stored there. -/
structure Garbage where
  strSize : Memory
  str : Memory

/-- `read_string`: the block it returns and the rest of the stream, `none` for `NULL`. -/
def readString (garbage : Garbage) (input : Bytes) : Option (Bytes × Bytes) :=
  let strSize := store (readBytes 8 input).1 garbage.strSize
  let input := (readBytes 8 input).2
  if isDisconnect strSize then none
  else
    let str := store (readBytes (loadSize strSize) input).1 garbage.str
    if isDisconnect str then none
    else some (block (loadSize strSize) str, (readBytes (loadSize strSize) input).2)

/-! ## Memory -/

section Memory

variable {bytes : Bytes} {m : Memory} {k : ℕ}

@[simp] theorem length_block : (block k m).length = k := by
  unfold block
  rw [List.length_map, List.length_range]

@[simp] theorem length_intBytes (n : Int) : (intBytes n).length = 4 := length_encode _ _

/-- What was stored is found again. -/
theorem block_store (h : k ≤ bytes.length) : block k (store bytes m) = bytes.take k := by
  refine List.ext_getElem (by rw [length_block, List.length_take]; omega) fun i hi hi' => ?_
  rw [length_block] at hi
  have hib : i < bytes.length := by omega
  simp only [block, List.getElem_map, List.getElem_range, store, List.getElem_take]
  exact (List.getElem_eq_getD (m i)).symm

/-- The first bytes of a number that was stored. -/
theorem block_store_encode {j n : ℕ} (h : k ≤ j) :
    block k (store (encode j n) m) = encode k n := by
  rw [block_store (by rw [length_encode]; exact h), take_encode k j n h]

/-- Fewer bytes are stored than are looked at. -/
theorem block_store_append (h : bytes.length ≤ k) :
    ∃ stale, block k (store bytes m) = bytes ++ stale := by
  have htake : (block k (store bytes m)).take bytes.length = bytes := by
    unfold block
    rw [← List.map_take, List.take_range, Nat.min_eq_left h]
    exact (block_store le_rfl).trans (List.take_length)
  refine ⟨(block k (store bytes m)).drop bytes.length, ?_⟩
  conv_lhs => rw [← List.take_append_drop bytes.length (block k (store bytes m)), htake]

theorem block_succ : block (k + 1) m = m 0 :: block k fun i => m (i + 1) := by
  unfold block
  rw [List.range_succ_eq_map, List.map_cons, List.map_map]
  rfl

theorem block_succ_last : block (k + 1) m = block k m ++ [m k] := by
  rw [block, List.range_succ, List.map_append, List.map_singleton]
  rfl

/-- Behind a prefix stands what was stored behind it. -/
theorem store_append_add (pre : Bytes) (i : ℕ) :
    store (pre ++ bytes) m (pre.length + i) = store bytes (fun j => m (pre.length + j)) i := by
  simp only [store, List.getD_eq_getElem?_getD]
  rw [List.getElem?_append_right (Nat.le_add_right _ _), Nat.add_sub_cancel_left]

/-- An offset past a field. -/
theorem loadAt_store_append {pre : Bytes} {off : ℕ} (h : pre.length ≤ off) :
    loadAt k off (store (pre ++ bytes) m) =
      loadAt k (off - pre.length) (store bytes fun j => m (pre.length + j)) := by
  obtain ⟨d, rfl⟩ := Nat.exists_eq_add_of_le h
  rw [Nat.add_sub_cancel_left, loadAt, loadAt]
  simp only [Nat.add_assoc, store_append_add]

/-- The field at the offset. -/
theorem loadAt_store_encode {n : ℕ} (h : n < 256 ^ k) :
    loadAt k 0 (store (encode k n ++ bytes) m) = n := by
  have hblock : block k (store (encode k n ++ bytes) m) = encode k n := by
    rw [block_store (by rw [List.length_append, length_encode]; omega),
      List.take_append_of_le_length (by rw [length_encode]), take_encode k k n le_rfl]
  simp only [loadAt, Nat.zero_add]
  rw [hblock, decode_encode_of_lt h]

/-- An `int` is found again. -/
theorem loadInt_store_intBytes (n : Int) (m : Memory) :
    loadInt (store (intBytes n) m) = n.bmod (2 ^ 32) := by
  have hlt : (BitVec.ofInt 32 n).toNat < 256 ^ 4 := (BitVec.ofInt 32 n).isLt
  unfold loadInt intBytes
  rw [block_store_encode le_rfl, decode_encode_of_lt hlt, BitVec.ofNat_toNat, BitVec.setWidth_eq,
    BitVec.toInt_ofInt]

/-- The first half of a small `size_t`, read as an `int`. -/
theorem loadInt_store_size {n : ℕ} (h : n < 2 ^ 31) (m : Memory) :
    loadInt (store (encode 8 n) m) = n := by
  unfold loadInt
  rw [block_store_encode (by omega), decode_encode_of_lt (by omega), BitVec.toInt_ofNat',
    Int.bmod_eq_of_le]
  all_goals omega

theorem loadSize_store {n : ℕ} (h : n < 2 ^ 64) (m : Memory) :
    loadSize (store (encode 8 n) m) = n := by
  unfold loadSize
  rw [block_store_encode le_rfl, decode_encode_of_lt (by omega)]

/-- The four bytes of `DISCONNECT_CODE`. -/
def disconnectBytes : Bytes := [0xF6, 0xFF, 0xFF, 0xFF]

/-- **What `is_disconnect` sees**: the first four bytes. -/
theorem isDisconnect_iff : isDisconnect m = true ↔ block 4 m = disconnectBytes := by
  have hlt : decode (block 4 m) < 2 ^ 32 := by
    have := decode_lt (block 4 m)
    rwa [length_block] at this
  have hcode : decode disconnectBytes = 2 ^ 32 - 10 := rfl
  unfold isDisconnect
  rw [beq_iff_eq, loadInt, disconnectCode]
  constructor
  · intro h
    refine decode_injective (by rw [length_block]; rfl) ?_
    rw [BitVec.toInt_ofNat', Int.bmod_def] at h
    rw [hcode]
    split at h <;> omega
  · intro h
    rw [h, hcode]
    rfl

/-- Data that does not begin with the first byte of the code is no disconnect. -/
theorem isDisconnect_store_cons {b : UInt8} (h : b ≠ 0xF6) (bytes : Bytes) (m : Memory) :
    isDisconnect (store (b :: bytes) m) = false := by
  rw [Bool.eq_false_iff, Ne, isDisconnect_iff, block_succ]
  exact fun heq => h (List.cons.inj heq).1

end Memory

/-! ## Strings -/

section Strings

variable {s : Bytes}

/-- A string without a NUL ends at the NUL put behind it. -/
theorem strlen_append_nul (h : 0 ∉ s) (stale : Bytes) : strlen (s ++ 0 :: stale) = s.length := by
  have hall : ∀ b ∈ s, (b != 0) = true := fun b hb => by
    rw [bne_iff_ne]
    rintro rfl
    exact h hb
  rw [strlen, List.takeWhile_append_of_pos hall, List.takeWhile_cons_of_neg (by simp),
    List.append_nil]

theorem cstring_append_nul (h : 0 ∉ s) (stale : Bytes) : cstring (s ++ 0 :: stale) = s := by
  unfold cstring
  rw [strlen_append_nul h, List.take_left]

theorem sendString_append_nul (h : 0 ∉ s) (stale : Bytes) :
    sendString (s ++ 0 :: stale) = encode 8 (s.length + 1) ++ (s ++ [0]) := by
  unfold sendString
  rw [strlen_append_nul h, List.take_length_add_append]
  rfl

/-- The string stored in a buffer that is large enough. -/
theorem cstring_block_store (h : 0 ∉ s) {rest : Bytes} {m : Memory} {k : ℕ}
    (hlen : (s ++ 0 :: rest).length ≤ k) : cstring (block k (store (s ++ 0 :: rest) m)) = s := by
  obtain ⟨stale, hb⟩ := block_store_append (m := m) hlen
  rw [hb, List.append_assoc, List.cons_append, cstring_append_nul h]

/-- **A string is taken for a disconnect** iff it begins with the four bytes: the NUL of a shorter
one is none of them. -/
theorem isDisconnect_string_iff {rest : Bytes} {m : Memory} :
    isDisconnect (store (s ++ 0 :: rest) m) = true ↔ disconnectBytes <+: s := by
  rw [isDisconnect_iff]
  constructor
  · intro h
    by_cases hlen : 4 ≤ s.length
    · rw [block_store (by rw [List.length_append]; omega), List.take_append_of_le_length hlen] at h
      exact h ▸ List.take_prefix 4 s
    · have hnul : store (s ++ 0 :: rest) m s.length = 0 := by
        simp [store, List.getD_eq_getElem?_getD]
      have hmem : (0 : UInt8) ∈ block 4 (store (s ++ 0 :: rest) m) :=
        List.mem_map.mpr ⟨s.length, List.mem_range.mpr (by omega), hnul⟩
      rw [h] at hmem
      exact absurd hmem (by decide)
  · rintro ⟨t, rfl⟩
    have hfour : 4 = disconnectBytes.length := rfl
    rw [block_store (by simp [disconnectBytes]), List.append_assoc, hfour, List.take_left]

@[simp] theorem readBytes_append (bytes rest : Bytes) :
    readBytes bytes.length (bytes ++ rest) = (bytes, rest) := by
  unfold readBytes
  rw [List.take_left, List.drop_left]

theorem readBytes_append_of_eq {k : ℕ} {bytes : Bytes} (h : bytes.length = k) (rest : Bytes) :
    readBytes k (bytes ++ rest) = (bytes, rest) := by
  rw [← h, readBytes_append]

/-- **`read_string` reads what `send_string` sent**, and leaves what follows, as long as nothing in
it looks like a disconnect. -/
theorem readString_sendString (h : 0 ∉ s) (hlen : s.length + 1 < 2 ^ 31) (stale rest : Bytes)
    (garbage : Garbage) (hdata : isDisconnect (store (s ++ [0]) garbage.str) = false) :
    readString garbage (sendString (s ++ 0 :: stale) ++ rest) = some (s ++ [0], rest) := by
  have hsize : isDisconnect (store (encode 8 (s.length + 1)) garbage.strSize) = false := by
    unfold isDisconnect
    rw [loadInt_store_size hlen, beq_eq_false_iff_ne, disconnectCode]
    omega
  have hload : loadSize (store (encode 8 (s.length + 1)) garbage.strSize) = s.length + 1 :=
    loadSize_store (by omega) _
  have hstr : (s ++ [0]).length = s.length + 1 := by simp
  have hblock : block (s.length + 1) (store (s ++ [0]) garbage.str) = s ++ [0] := by
    rw [block_store (by rw [hstr]), ← hstr, List.take_length]
  rw [sendString_append_nul h, List.append_assoc, readString,
    readBytes_append_of_eq (length_encode _ _)]
  simp only [hsize, hload, Bool.false_eq_true, if_false]
  rw [readBytes_append_of_eq hstr]
  simp only [hdata, hblock, Bool.false_eq_true, if_false]

/-- `read_string` puts nothing back. -/
theorem length_le_of_readString {garbage : Garbage} {input str rest : Bytes}
    (h : readString garbage input = some (str, rest)) : rest.length ≤ input.length := by
  cases hd : isDisconnect (store (input.take 8) garbage.strSize) with
  | true => simp [readString, readBytes, hd] at h
  | false =>
    cases hs : isDisconnect (store ((input.drop 8).take
        (loadSize (store (input.take 8) garbage.strSize))) garbage.str) with
    | true => simp [readString, readBytes, hd, hs] at h
    | false =>
      simp only [readString, readBytes, hd, hs, Bool.false_eq_true, if_false] at h
      obtain rfl := (Prod.mk.inj (Option.some.inj h)).2
      rw [List.length_drop, List.length_drop]
      omega

end Strings

end C380.Notapp
