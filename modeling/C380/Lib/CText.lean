import Mathlib.Data.BitVec
import Mathlib.Data.List.TakeWhile

/-!
# Reading C strings

The parts of `ctype.h`, `stdio.h`, `stdlib.h` and `string.h` that split a string into words and
tokens and read numbers, in the C locale. A string is the list of its characters, without the
terminating null character.

* `scanWord w` is the conversion `%<w>s` of `sscanf`; `scanWord_append` reads a word between white
  space.
* `strtok` returns a token and the string that the next call goes on with; `strtok_append` and
  `strtok_all` read what stands before a separator and at the end.
* `strtoull base` is the value of the longest numeral at the front, `none` if there is none; the
  conversion `%llu` reads the same with base 10. `strtoull_digits` reads a string of digits, which
  is worth `numeral`; `numeral_append` puts two together.
* `snprintf` and `strcat` write into a buffer of a given size; `strcat` of what does not fit is
  undefined in C and `none` here. `foldlM_strcat` says when a sequence of them fits.
-/

namespace CText

/-! ## Words -/

/-- `isspace`: the space and the five control characters from tab to carriage return. -/
def isspace (c : Char) : Bool := c.toNat == 32 || (9 ≤ c.toNat && c.toNat ≤ 13)

/-- `%<w>s`: white space is skipped, then at most `w` other characters are the word. The rest of the
string is returned too. -/
def scanWord (w : Nat) (s : List Char) : Option (List Char × List Char) :=
  let s := s.dropWhile isspace
  let word := (s.takeWhile fun c => !isspace c).take w
  if word = [] then none else some (word, s.drop word.length)

/-- The string is empty or begins with white space. -/
def EndsWord (s : List Char) : Prop := ∀ c ∈ s.head?, isspace c = true

section Words

variable {α : Type} {p : α → Bool}

/-- The prefix of a list up to a place where the predicate fails. -/
theorem takeWhile_append_eq {a b : List α} (ha : ∀ x ∈ a, p x = true)
    (hb : ∀ x ∈ b.head?, p x = false) : (a ++ b).takeWhile p = a := by
  rw [List.takeWhile_append_of_pos ha]
  cases b with
  | nil => rw [List.takeWhile_nil, List.append_nil]
  | cons x b => rw [List.takeWhile_cons_of_neg (by simp [hb x rfl]), List.append_nil]

/-- The rest of a list after such a prefix. -/
theorem dropWhile_append_eq {a b : List α} (ha : ∀ x ∈ a, p x = true)
    (hb : ∀ x ∈ b.head?, p x = false) : (a ++ b).dropWhile p = b := by
  rw [List.dropWhile_append_of_pos ha]
  cases b with
  | nil => rfl
  | cons x b => rw [List.dropWhile_cons_of_neg (by simp [hb x rfl])]

end Words

/-- **A word between white space** is read up to the width. -/
theorem scanWord_append {w : ℕ} {spaces word rest : List Char} (hw : 0 < w)
    (hspaces : ∀ c ∈ spaces, isspace c = true) (hne : word ≠ [])
    (hword : ∀ c ∈ word, isspace c = false) (hrest : EndsWord rest) :
    scanWord w (spaces ++ word ++ rest) = some (word.take w, word.drop w ++ rest) := by
  have hhead : ∀ c ∈ (word ++ rest).head?, isspace c = false := by
    cases word with
    | nil => exact absurd rfl hne
    | cons c word =>
      rintro _ ⟨⟩
      exact hword c List.mem_cons_self
  have htake : (word ++ rest).takeWhile (fun c => !isspace c) = word :=
    takeWhile_append_eq (fun c hc => by rw [hword c hc]; rfl)
      fun c hc => by rw [hrest c hc]; rfl
  have hne' : word.take w ≠ [] := by
    rw [ne_eq, List.take_eq_nil_iff]
    rintro (h | h)
    · omega
    · exact hne h
  rw [scanWord, List.append_assoc, dropWhile_append_eq hspaces hhead, htake, if_neg hne']
  congr 2
  rw [List.length_take]
  rcases Nat.le_total w word.length with h | h
  · rw [Nat.min_eq_left h, List.drop_append_of_le_length h]
  · rw [Nat.min_eq_right h, List.drop_left, List.drop_of_length_le h, List.nil_append]

/-! ## Tokens -/

/-- `strtok`, first with the string itself and then with the string returned: separators are
skipped, and the characters up to the next one are the token. `none` is a null pointer. -/
def strtok (seps : List Char) (s : List Char) : Option (List Char × List Char) :=
  let s := s.dropWhile seps.contains
  let token := s.takeWhile fun c => !seps.contains c
  if token = [] then none else some (token, s.drop (token.length + 1))

/-- A string that begins with no separator is not shortened. -/
theorem dropWhile_seps {seps token : List Char} (rest : List Char) (hne : token ≠ [])
    (htoken : ∀ c ∈ token, c ∉ seps) :
    (token ++ rest).dropWhile seps.contains = token ++ rest := by
  cases token with
  | nil => exact absurd rfl hne
  | cons c token =>
    refine List.dropWhile_cons_of_neg ?_
    simpa using htoken c List.mem_cons_self

/-- The token before a separator. -/
theorem strtok_append {seps token rest : List Char} {sep : Char} (hsep : sep ∈ seps)
    (hne : token ≠ []) (htoken : ∀ c ∈ token, c ∉ seps) :
    strtok seps (token ++ sep :: rest) = some (token, rest) := by
  have htake : (token ++ sep :: rest).takeWhile (fun c => !seps.contains c) = token := by
    refine takeWhile_append_eq (fun c hc => by simpa using htoken c hc) ?_
    rintro _ ⟨⟩
    simpa using hsep
  rw [strtok, dropWhile_seps _ hne htoken, htake, if_neg hne, ← List.drop_drop, List.drop_left]
  rfl

/-- The last token. -/
theorem strtok_all {seps token : List Char} (hne : token ≠ []) (htoken : ∀ c ∈ token, c ∉ seps) :
    strtok seps token = some (token, []) := by
  have hdrop := dropWhile_seps [] hne htoken
  have htake : token.takeWhile (fun c => !seps.contains c) = token :=
    List.takeWhile_eq_self_iff.mpr fun c hc => by simpa using htoken c hc
  rw [List.append_nil] at hdrop
  rw [strtok, hdrop, htake, if_neg hne, List.drop_of_length_le (Nat.le_succ _)]

/-! ## Numbers -/

/-- The value of a digit or a letter. -/
def digitValue (c : Char) : Nat :=
  if 48 ≤ c.toNat ∧ c.toNat ≤ 57 then c.toNat - 48
  else if 65 ≤ c.toNat ∧ c.toNat ≤ 90 then c.toNat - 55
  else if 97 ≤ c.toNat ∧ c.toNat ≤ 122 then c.toNat - 87
  else 36

/-- A digit of the base, which is at most 36. -/
def isDigit (base : Nat) (c : Char) : Bool := digitValue c < base

/-- The number that digits stand for. -/
def numeral (base : Nat) (digits : List Char) : Nat :=
  digits.foldl (fun n c => base * n + digitValue c) 0

/-- The digits behind a prefix `0x` or `0X`, which base 16 allows before a digit. -/
def skipPrefix (base : Nat) : List Char → List Char
  | '0' :: x :: c :: s =>
    if base = 16 ∧ (x = 'x' ∨ x = 'X') ∧ isDigit 16 c then c :: s else '0' :: x :: c :: s
  | s => s

/-- The value of a numeral with its sign: what does not fit is the largest value. -/
def numberValue (base : Nat) (negative : Bool) (digits : List Char) : BitVec 64 :=
  if 2 ^ 64 ≤ numeral base digits then -1
  else if negative then -BitVec.ofNat 64 (numeral base digits)
  else BitVec.ofNat 64 (numeral base digits)

/-- `strtoull`: white space, an optional sign, an optional prefix and digits. `none` if no
conversion is made. -/
def strtoull (base : Nat) (s : List Char) : Option (BitVec 64) :=
  let s := s.dropWhile isspace
  let negative := s.head? == some '-'
  let s := if negative ∨ s.head? = some '+' then s.tail else s
  let digits := (skipPrefix base s).takeWhile (isDigit base)
  if digits = [] then none else some (numberValue base negative digits)

section Numbers

variable {base : ℕ}

theorem foldl_digits (base n : ℕ) : ∀ digits : List Char,
    digits.foldl (fun n c => base * n + digitValue c) n =
      n * base ^ digits.length + numeral base digits
  | [] => by simp [numeral]
  | c :: digits => by
    have hc : numeral base (c :: digits) =
        digits.foldl (fun n c => base * n + digitValue c) (base * 0 + digitValue c) := rfl
    rw [hc, List.foldl_cons, foldl_digits base (base * n + digitValue c) digits,
      foldl_digits base (base * 0 + digitValue c) digits, List.length_cons, Nat.pow_succ,
      Nat.mul_zero, Nat.zero_add, Nat.add_mul, Nat.add_assoc, Nat.mul_comm base n, Nat.mul_assoc,
      Nat.mul_comm base (base ^ digits.length)]

/-- Digits behind others. -/
theorem numeral_append (base : ℕ) (a b : List Char) :
    numeral base (a ++ b) = numeral base a * base ^ b.length + numeral base b := by
  rw [numeral, List.foldl_append]
  exact foldl_digits base _ b

/-- White space has no value as a digit. -/
theorem digitValue_of_isspace {c : Char} (h : isspace c = true) : digitValue c = 36 := by
  simp only [isspace, Bool.or_eq_true, beq_iff_eq, Bool.and_eq_true, decide_eq_true_eq] at h
  unfold digitValue
  rw [if_neg (by omega), if_neg (by omega), if_neg (by omega)]

/-- A digit is neither white space nor a sign, a comma or the letter of a prefix. -/
theorem isDigit_ne {c : Char} (hbase : base ≤ 16) (h : isDigit base c = true) :
    isspace c = false ∧ c ≠ '-' ∧ c ≠ '+' ∧ c ≠ ',' ∧ c ≠ 'x' ∧ c ≠ 'X' := by
  have hlt : digitValue c < base := of_decide_eq_true h
  have hne : ∀ d, 16 ≤ digitValue d → c ≠ d := by
    rintro d hd rfl
    omega
  refine ⟨?_, hne _ (by decide), hne _ (by decide), hne _ (by decide), hne _ (by decide),
    hne _ (by decide)⟩
  rw [Bool.eq_false_iff]
  intro hspace
  have := digitValue_of_isspace hspace
  omega

/-- **A string of digits** is read as their number. -/
theorem strtoull_digits {digits : List Char} (hbase : base ≤ 16) (hne : digits ≠ [])
    (hdigits : ∀ c ∈ digits, isDigit base c = true) :
    strtoull base digits = some (numberValue base false digits) := by
  have hfree := fun c hc => isDigit_ne hbase (hdigits c hc)
  have hdrop : digits.dropWhile isspace = digits := by
    cases digits with
    | nil => rfl
    | cons c digits =>
      refine List.dropWhile_cons_of_neg ?_
      rw [(hfree c List.mem_cons_self).1]
      exact Bool.false_ne_true
  have hminus : (digits.head? == some '-') = false :=
    beq_eq_false_iff_ne.mpr fun h => (hfree _ (List.mem_of_mem_head? h)).2.1 rfl
  have hplus : digits.head? ≠ some '+' := fun h => (hfree _ (List.mem_of_mem_head? h)).2.2.1 rfl
  have hprefix : skipPrefix base digits = digits := by
    unfold skipPrefix
    split
    · rename_i x c s
      obtain ⟨-, -, -, -, hx, hX⟩ := hfree x (by simp)
      rw [if_neg (by simp [hx, hX])]
    · rfl
  have hall : digits.takeWhile (isDigit base) = digits := List.takeWhile_eq_self_iff.mpr hdigits
  simp [strtoull, hdrop, hminus, hplus, hprefix, hall, hne]

/-- The digits of a prefix are worth the same iff nothing is left out, or everything is zero. -/
theorem numeral_take_eq_iff (hbase : 2 ≤ base) {digits : List Char} {k : ℕ}
    (hk : k ≤ digits.length) : numeral base (digits.take k) = numeral base digits ↔
      digits.length = k ∨ numeral base digits = 0 := by
  have hsplit := numeral_append base (digits.take k) (digits.drop k)
  rw [List.take_append_drop, List.length_drop] at hsplit
  constructor
  · intro h
    by_contra hne
    rw [not_or] at hne
    have hpow : 2 ≤ base ^ (digits.length - k) :=
      hbase.trans (Nat.le_self_pow (by omega) base)
    have hle : numeral base (digits.take k) * 2 ≤
        numeral base (digits.take k) * base ^ (digits.length - k) := Nat.mul_le_mul_left _ hpow
    omega
  · rintro (h | h)
    · rw [List.take_of_length_le h.le]
    · rw [h] at hsplit ⊢
      have hzero : numeral base (digits.take k) * base ^ (digits.length - k) = 0 := by omega
      exact (Nat.mul_eq_zero.mp hzero).resolve_right (Nat.pow_pos (by omega)).ne'

/-- The digits of a prefix are worth at most what all are worth. -/
theorem numeral_take_le (hbase : 1 ≤ base) (digits : List Char) (k : ℕ) :
    numeral base (digits.take k) ≤ numeral base digits := by
  have hsplit := numeral_append base (digits.take k) (digits.drop k)
  rw [List.take_append_drop] at hsplit
  have := Nat.le_mul_of_pos_right (numeral base (digits.take k))
    (Nat.pow_pos (n := (digits.drop k).length) hbase)
  omega

/-- The value read is the number iff it fits. -/
theorem numberValue_toNat (digits : List Char) : (numberValue base false digits).toNat =
    if numeral base digits < 2 ^ 64 then numeral base digits else 2 ^ 64 - 1 := by
  unfold numberValue
  by_cases h : numeral base digits < 2 ^ 64
  · rw [if_neg (by omega), if_pos h, if_neg Bool.false_ne_true, BitVec.toNat_ofNat,
      Nat.mod_eq_of_lt h]
  · rw [if_pos (by omega), if_neg h]
    rfl

end Numbers

/-! ## Buffers -/

section Buffers

variable {α : Type}

/-- `snprintf` with a size: the text is cut off so that it fits with its null character. -/
def snprintf (size : Nat) (text : List α) : List α := text.take (size - 1)

/-- `strcat` in a buffer of `size` characters, one of which is the null character. -/
def strcat (size : Nat) (buf text : List α) : Option (List α) :=
  if buf.length + text.length < size then some (buf ++ text) else none

/-- **A sequence of `strcat` fits iff its last string does.** -/
theorem foldlM_strcat {size : ℕ} : ∀ (texts : List (List α)) (buf : List α), buf.length < size →
    texts.foldlM (strcat size) buf =
      if buf.length + texts.flatten.length < size then some (buf ++ texts.flatten) else none
  | [], buf, hbuf => by
    rw [List.foldlM_nil, List.flatten_nil, List.append_nil, List.length_nil, Nat.add_zero,
      if_pos hbuf]
    rfl
  | text :: texts, buf, hbuf => by
    rw [List.foldlM_cons, List.flatten_cons, List.length_append, strcat]
    by_cases hfits : buf.length + text.length < size
    · rw [if_pos hfits, Option.bind_eq_bind, Option.bind_some,
        foldlM_strcat texts (buf ++ text) (by rwa [List.length_append]), List.length_append,
        List.append_assoc, Nat.add_assoc]
    · rw [if_neg hfits, if_neg (by omega)]
      rfl

end Buffers

end CText
