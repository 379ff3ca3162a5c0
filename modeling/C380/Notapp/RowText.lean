import C380.Lib.CText
import C380.Notapp.ObserverProtocol
import C380.Notapp.UserProtocol

/-!
# The text of a row (`Assignment02/server.c`)

`observer_thread` puts a row together in `msg_buf`, a buffer of `BUF_SIZE` characters: the time, the
host and the monitored path, each through `snprintf`, then the name of the event and the names of
the bits of its mask. Only the single `snprintf`s are bounded; `strcat` writes whatever it is given.

* `assembleRow` is `none` where a `strcat` or the `strcpy` to `entry.string` leaves its buffer.
* `RowInput.row_eq`: a row is put together whole, or something leaves the buffer.
* `rowFits_iff`: **a row fits iff the lengths of its parts add up to at most 1023**.
* `not_rowFits_longPath`: a path of 1023 characters never does.
-/

namespace C380.Notapp

open CText

/-- The characters of a text as bytes. -/
def textBytes (text : String) : Bytes := text.toList.map fun c => UInt8.ofNat c.toNat

/-- The bits that `translate_masks` tests, in its order, and their texts. -/
def maskTexts : List (BitVec 32 × String) := [
  (0x00000001, "IN_ACCESS "),
  (0x00000004, "IN_ATTRIB "),
  (0x00000008, "IN_CLOSE_WRITE "),
  (0x00000010, "IN_CLOSE_NO_WRITE "),
  (0x00000100, "IN_CREATE "),
  (0x00000200, "IN_DELETE "),
  (0x00000400, "IN_DELETE_SELF "),
  (0x00000002, "IN_MODIFY "),
  (0x00000800, "IN_MOVE_SELF "),
  (0x00000040, "IN_MOVED_FROM "),
  (0x00000080, "IN_MOVED_TO "),
  (0x00000020, "IN_OPEN "),
  (0x00008000, "IN_IGNORED "),
  (0x40000000, "IN_ISDIR "),
  (0x00004000, "IN_Q_OVERFLOW "),
  (0x00002000, "IN_UNMOUNT ")]

/-- `translate_masks`. -/
def translateMasks (buf : Bytes) (mask : BitVec 32) : Option Bytes :=
  maskTexts.foldlM
    (fun buf m => if mask &&& m.1 ≠ 0 then strcat bufSize buf (textBytes m.2) else some buf) buf

/-- `strcpy` to a buffer of `size` characters. -/
def strcpy (size : Nat) (text : Bytes) : Option Bytes := strcat size [] text

/-- The body of the loop of `observer_thread` from `msg_buf` to `entry.string`. The bytes 9 and 32
are the tab and the space. `name` is `event_loc` where `notification.len` is not 0. -/
def assembleRow (monitored host : Bytes) (tv : Timeval) (name : Option Bytes) (mask : BitVec 32) :
    Option Bytes := do
  let msgBuf := snprintf (bufSize - 1) (timestamp tv)
  let tmpBuf := snprintf (bufSize - 1) (host ++ [9])
  let msgBuf ← strcat bufSize msgBuf tmpBuf
  let tmpBuf := snprintf (bufSize - 1) (monitored ++ [9])
  let msgBuf ← strcat bufSize msgBuf tmpBuf
  let msgBuf ← match name with
    | some eventLoc => do
      let msgBuf ← strcat bufSize msgBuf eventLoc
      strcat bufSize msgBuf [32]
    | none => some msgBuf
  let msgBuf ← translateMasks msgBuf mask
  strcpy bufSize msgBuf

/-- What `observer_thread` makes a row of. -/
structure RowInput where
  monitored : Bytes
  host : Bytes
  tv : Timeval
  name : Option Bytes
  mask : BitVec 32
  monitored_short : monitored.length ≤ 1023
  host_short : host.length ≤ 15
  sec_nonneg : 0 ≤ tv.tvSec
  sec_lt : tv.tvSec < 2 ^ 63
  usec_nonneg : 0 ≤ tv.tvUsec
  usec_lt : tv.tvUsec < 10 ^ 6
  name_short : ∀ eventLoc ∈ name, eventLoc.length ≤ 255

/-- The row of the input. -/
def RowInput.row (i : RowInput) : Option Bytes :=
  assembleRow i.monitored i.host i.tv i.name i.mask

/-- The row is put together without leaving a buffer, and has at most 1023 characters. -/
def RowInput.Fits (i : RowInput) : Prop := ∃ row, i.row = some row ∧ row.length ≤ 1023

/-- The length of the texts of a mask. -/
def maskLength (mask : BitVec 32) : ℕ :=
  ((maskTexts.filter fun m => mask &&& m.1 ≠ 0).map fun m => m.2.length).sum

/-- The lengths of the parts of a row: the digits of the seconds, the point, six digits and the
tab; the host and its tab; the path and its tab, cut off at 1022 characters; the name and its
space; the texts of the mask. -/
def RowInput.textLength (i : RowInput) : ℕ :=
  Nat.log 10 i.tv.tvSec.toNat + 9 + (i.host.length + 1) + min (i.monitored.length + 1) 1022 +
    (match i.name with
      | some eventLoc => eventLoc.length + 1
      | none => 0) + maskLength i.mask

/-! ## The lengths of the parts -/

theorem length_decimal (n : ℕ) : (decimal n).length = Nat.log 10 n + 1 := by
  unfold decimal
  by_cases h0 : n = 0
  · rw [if_pos h0, h0, Nat.log_zero_right]
    rfl
  · rw [if_neg h0, List.length_map, List.length_reverse, Nat.length_digits 10 n (by omega) h0]

/-- The timestamp of a time after 1970. -/
theorem length_timestamp {tv : Timeval} (hsec : 0 ≤ tv.tvSec) (husec : 0 ≤ tv.tvUsec)
    (hlt : tv.tvUsec < 10 ^ 6) :
    (timestamp tv).length = Nat.log 10 tv.tvSec.toNat + 9 := by
  have hdigits : Nat.log 10 tv.tvUsec.natAbs < 6 := by
    by_cases h0 : tv.tvUsec.natAbs = 0
    · rw [h0, Nat.log_zero_right]
      omega
    · exact Nat.log_lt_of_lt_pow h0 (by omega)
  have hsign : ∀ n : Int, 0 ≤ n → signBytes n = [] := fun n hn => if_neg (by omega)
  have habs : tv.tvSec.natAbs = tv.tvSec.toNat := by omega
  simp only [timestamp, formatLd, format06ld, hsign _ hsec, hsign _ husec, List.length_append,
    List.length_replicate, length_decimal, List.length_cons, List.length_nil, habs]
  omega

@[simp] theorem length_textBytes (text : String) : (textBytes text).length = text.length := by
  rw [textBytes, List.length_map, String.length_toList]

/-- The texts of a mask. -/
def textsOf (mask : BitVec 32) : List Bytes :=
  (maskTexts.filter fun m => mask &&& m.1 ≠ 0).map fun m => textBytes m.2

theorem length_textsOf (mask : BitVec 32) : (textsOf mask).flatten.length = maskLength mask := by
  rw [textsOf, maskLength, List.length_flatten, List.map_map]
  congr 2
  funext m
  exact length_textBytes m.2

/-- `translate_masks` appends the texts of the bits that are set. -/
theorem translateMasks_eq (buf : Bytes) (mask : BitVec 32) :
    translateMasks buf mask = (textsOf mask).foldlM (strcat bufSize) buf := by
  rw [textsOf, List.foldlM_map, List.foldlM_filter, translateMasks]
  simp only [decide_eq_true_eq]
  rfl

/-! ## The row -/

/-- What is appended to the timestamp. -/
def RowInput.texts (i : RowInput) : List Bytes :=
  [i.host ++ [9], (i.monitored ++ [9]).take 1022] ++
    (match i.name with
      | some eventLoc => [eventLoc, [32]]
      | none => []) ++ textsOf i.mask

theorem RowInput.length_text (i : RowInput) :
    (timestamp i.tv).length + i.texts.flatten.length = i.textLength := by
  have hname : (match i.name with
      | some eventLoc => [eventLoc, [32]]
      | none => ([] : List Bytes)).flatten.length =
        match i.name with
        | some eventLoc => eventLoc.length + 1
        | none => 0 := by
    cases i.name with
    | none => rfl
    | some eventLoc => simp
  have htime := length_timestamp i.sec_nonneg i.usec_nonneg i.usec_lt
  rw [RowInput.texts, List.flatten_append, List.flatten_append, List.length_append,
    List.length_append, hname, length_textsOf, htime, RowInput.textLength]
  simp only [List.flatten_cons, List.flatten_nil, List.append_nil, List.length_append,
    List.length_take, List.length_cons, List.length_nil]
  omega

/-- The timestamp is not cut off. -/
theorem RowInput.length_timestamp_le (i : RowInput) : (timestamp i.tv).length ≤ 27 := by
  have hlog : Nat.log 10 i.tv.tvSec.toNat < 19 := by
    by_cases h0 : i.tv.tvSec.toNat = 0
    · rw [h0, Nat.log_zero_right]
      omega
    · have := i.sec_lt
      exact Nat.log_lt_of_lt_pow h0 (by omega)
  rw [length_timestamp i.sec_nonneg i.usec_nonneg i.usec_lt]
  omega

/-- The row is a sequence of `strcat` behind the timestamp, and a `strcpy`. -/
theorem RowInput.row_eq_foldlM (i : RowInput) :
    i.row = (i.texts.foldlM (strcat bufSize) (timestamp i.tv)).bind (strcpy bufSize) := by
  have hstamp : snprintf (bufSize - 1) (timestamp i.tv) = timestamp i.tv :=
    List.take_of_length_le (i.length_timestamp_le.trans (by decide))
  have hhost : snprintf (bufSize - 1) (i.host ++ [9]) = i.host ++ [9] := by
    refine List.take_of_length_le (le_trans ?_ (show 16 ≤ bufSize - 1 - 1 by decide))
    rw [List.length_append, List.length_singleton]
    have := i.host_short
    omega
  have hpath : snprintf (bufSize - 1) (i.monitored ++ [9]) = (i.monitored ++ [9]).take 1022 := rfl
  simp only [row, assembleRow, texts, hstamp, hhost, hpath, List.foldlM_append, List.foldlM_cons,
    List.foldlM_nil, Option.bind_eq_bind, translateMasks_eq]
  cases i.name with
  | none =>
    simp only [Option.bind_assoc, Option.pure_def, Option.bind_some, List.foldlM_nil]
  | some eventLoc =>
    simp only [Option.bind_assoc, Option.pure_def, Option.bind_some, List.foldlM_cons,
      List.foldlM_nil, Option.bind_eq_bind]

/-- **The row is put together whole, or it leaves the buffer.** -/
theorem RowInput.row_eq (i : RowInput) : i.row =
    if i.textLength ≤ 1023 then some (timestamp i.tv ++ i.texts.flatten) else none := by
  have hstamp := i.length_timestamp_le
  have hlen := i.length_text
  have hbuf : bufSize = 1024 := rfl
  rw [row_eq_foldlM, foldlM_strcat i.texts _ (by omega), hlen]
  by_cases hfits : i.textLength ≤ 1023
  · rw [if_pos (by omega), if_pos hfits, Option.bind_some, strcpy, strcat, List.nil_append,
      List.length_append, hlen, List.length_nil, if_pos (by omega)]
  · rw [if_neg (by omega), if_neg hfits]
    rfl

/-- **A row fits iff its parts have at most 1023 characters together.** -/
theorem rowFits_iff (i : RowInput) : i.Fits ↔ i.textLength ≤ 1023 := by
  unfold RowInput.Fits
  rw [i.row_eq]
  constructor
  · rintro ⟨row, hrow, -⟩
    by_contra hlong
    rw [if_neg hlong] at hrow
    cases hrow
  · intro hfits
    refine ⟨_, if_pos hfits, ?_⟩
    rw [List.length_append, i.length_text]
    exact hfits

/-- A path of 1023 characters, opened in the first second of 1970. -/
def longPath : RowInput where
  monitored := List.replicate 1023 97
  host := textBytes "127.0.0.1"
  tv := ⟨0, 0⟩
  name := none
  mask := 0x20
  monitored_short := by rw [List.length_replicate]
  host_short := by decide
  sec_nonneg := le_rfl
  sec_lt := by decide
  usec_nonneg := le_rfl
  usec_lt := by decide
  name_short := by simp

/-- **A path of 1023 characters does not fit**: with the time and the host alone the row has 1041
characters. -/
theorem not_rowFits_longPath : longPath.row = none ∧ ¬ longPath.Fits := by
  have hlong : ¬ longPath.textLength ≤ 1023 := by
    rw [RowInput.textLength, show longPath.monitored.length = 1023 from List.length_replicate]
    omega
  have hrow : longPath.row = none := by
    rw [longPath.row_eq, if_neg hlong]
  refine ⟨hrow, ?_⟩
  rintro ⟨row, hsome, -⟩
  rw [hrow] at hsome
  cases hsome

end C380.Notapp
