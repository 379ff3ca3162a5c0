import C380.Lib.CText
import C380.Valws.Windowset

/-!
# Reading the trace (`Assignment03/valws379.c`, `valws379_base.c`)

`main` reads lines with `fgets`, at most 999 characters each, and gives the references it finds to
`window_set_insert`. A `Line` is the string `fgets` leaves in `str_buffer`; nothing here depends on
its length.

* `lineAction` is what the loop does with a line that is not skipped: the previous value of
  `ref_page_size` is one of its arguments, since a failed conversion leaves it there. `readLine`
  is one iteration of the loop, `main` the whole program on its arguments and lines.
* `Documented` is the form of a memory access in the design document, `{I|S|L|M} address,size`.
* `readsExactly_iff`: **a line is read as documented iff** the program does not take it for a
  reference, or it is one whose numbers fit into 64 bits and whose second word is read whole. The
  loop checks the code of a line and nothing else.
-/

namespace C380.Valws

open CText

/-! ## The loop of `main` -/

/-- The string in `str_buffer`. -/
abbrev Line := List Char

/-- `valid_codes`. -/
def validCodes : List (List Char) := [['I'], ['S'], ['L'], ['M']]

/-- `is_valid_code`. -/
def isValidCode (key : List Char) : Bool := validCodes.contains key

/-- `is_empty_line`, which is true of the lines that are not empty. -/
def isEmptyLine (line : Line) : Bool := line.any fun c => !isspace c

/-- `sscanf(str_buffer, "%4s %100s", char_code, str_numbers)`: the two fields, if both are
filled. -/
def scanFields (strBuffer : Line) : Option (List Char × List Char) := do
  let (charCode, rest) ← scanWord 4 strBuffer
  let (strNumbers, _) ← scanWord 100 rest
  some (charCode, strNumbers)

/-- The numbers of a line that the program takes for a reference. -/
def referenceNumbers (strBuffer : Line) : Option (List Char) :=
  match scanFields strBuffer with
  | some (charCode, strNumbers) => if isValidCode charCode then some strNumbers else none
  | none => none

/-- `seps`. -/
def seps : List Char := [',']

/-- `ref_address` and `ref_page_size` after `strtoull` of the first token and `sscanf` with `%llu`
of the second. `none` is a null token, which both of them read through. -/
def readNumbers (refPageSize : Ull) (strNumbers : List Char) : Option (Ull × Ull) := do
  let (token, rest) ← strtok seps strNumbers
  let refAddress := (strtoull 16 token).getD 0
  let (token, _) ← strtok seps rest
  some (refAddress, (strtoull 10 token).getD refPageSize)

/-- The variables of `main` and what it has printed. -/
structure Reader where
  memRefCount : Ull
  refPageSize : Ull
  windowSet : WindowSet
  printed : List (Ull × Ull)

/-- One iteration of the loop. `none` is the end of the program in a null token. -/
def readLine (fuel : Nat) (skipsize : Ull) (st : Reader) (line : Line) : Option Reader :=
  match referenceNumbers line with
  | none => some st
  | some strNumbers =>
    let memRefCount := st.memRefCount + 1
    if memRefCount < skipsize then some { st with memRefCount := memRefCount }
    else do
      let (refAddress, refPageSize) ← readNumbers st.refPageSize strNumbers
      let windowSet ← windowSetInsert fuel st.windowSet refAddress refPageSize
      some ⟨memRefCount, refPageSize, windowSet,
        st.printed ++ [(memRefCount, getWindowSetSize windowSet)]⟩

/-- What a run has printed, and its window set unless it ended in a null token. -/
structure Outcome where
  printed : List (Ull × Ull)
  windowSet : Option WindowSet

/-- The `while` loop. -/
def readLoop (fuel : Nat) (skipsize : Ull) : List Line → Reader → Outcome
  | [], st => ⟨st.printed, some st.windowSet⟩
  | line :: lines, st =>
    if isEmptyLine line then
      match readLine fuel skipsize st line with
      | some st' => readLoop fuel skipsize lines st'
      | none => ⟨st.printed, none⟩
    else ⟨st.printed, some st.windowSet⟩

/-- `main`, with the value of `-s` if it is given. -/
def main (fuel : Nat) (skip : Option Ull) (pageSize windowSize : Ull) (lines : List Line) :
    Outcome :=
  let skipsize := match skip with
    | some s => s + 1
    | none => 0
  readLoop fuel skipsize lines ⟨0, 0, initializeWindowSet pageSize windowSize, []⟩

/-! ## One line -/

/-- What the loop does with a line. -/
inductive LineAction where
  | pass
  | crash
  | insert (address size : Ull)
  deriving DecidableEq, Repr

/-- What the loop does with a line that is not skipped. -/
def lineAction (refPageSize : Ull) (line : Line) : LineAction :=
  match referenceNumbers line with
  | none => .pass
  | some strNumbers =>
    match readNumbers refPageSize strNumbers with
    | none => .crash
    | some (address, size) => .insert address size

/-- An iteration on a line that is not skipped, by its action. -/
theorem readLine_eq_lineAction {fuel : ℕ} {skipsize : Ull} {st : Reader} (line : Line)
    (hskip : ¬ st.memRefCount + 1 < skipsize) : readLine fuel skipsize st line =
      match lineAction st.refPageSize line with
      | .pass => some st
      | .crash => none
      | .insert address size =>
        (windowSetInsert fuel st.windowSet address size).map fun windowSet =>
          ⟨st.memRefCount + 1, size, windowSet,
            st.printed ++ [(st.memRefCount + 1, getWindowSetSize windowSet)]⟩ := by
  unfold readLine lineAction
  cases referenceNumbers line with
  | none => rfl
  | some strNumbers =>
    simp only [if_neg hskip]
    cases readNumbers st.refPageSize strNumbers with
    | none => rfl
    | some numbers =>
      simp only [Option.bind_eq_bind, Option.bind_some]
      cases windowSetInsert fuel st.windowSet numbers.1 numbers.2 <;> rfl

/-- Only what the program does not take for a reference is passed over. -/
theorem lineAction_eq_pass_iff {refPageSize : Ull} {line : Line} :
    lineAction refPageSize line = .pass ↔ referenceNumbers line = none := by
  unfold lineAction
  cases referenceNumbers line with
  | none => exact iff_of_true rfl rfl
  | some strNumbers =>
    refine iff_of_false ?_ (Option.some_ne_none _)
    simp only
    cases readNumbers refPageSize strNumbers with
    | none => exact LineAction.noConfusion
    | some numbers => exact LineAction.noConfusion

/-! ## The documented form -/

/-- `{I|S|L|M} address,size`: the code alone is the first word, and the second is a hexadecimal
address, a comma and a decimal size. -/
inductive Documented : Line → List Char → List Char → Prop
  | line {before code between address size rest : List Char}
      (before_space : ∀ c ∈ before, isspace c = true) (valid : code ∈ validCodes)
      (between_ne : between ≠ []) (between_space : ∀ c ∈ between, isspace c = true)
      (address_ne : address ≠ []) (address_hex : ∀ c ∈ address, isDigit 16 c = true)
      (size_ne : size ≠ []) (size_dec : ∀ c ∈ size, isDigit 10 c = true) (ends : EndsWord rest) :
      Documented (before ++ code ++ (between ++ (address ++ ',' :: size) ++ rest)) address size

section Documented

variable {line : Line} {address size : List Char}

/-- The second word of a documented line, read with any width. -/
theorem Documented.scanWord (h : Documented line address size) {w : ℕ} (hw : 0 < w) :
    ∃ code rest rest', CText.scanWord 4 line = some (code, rest) ∧ isValidCode code = true ∧
      CText.scanWord w rest = some ((address ++ ',' :: size).take w, rest') := by
  cases h with
  | @line before code between address size rest before_space valid between_ne between_space
      address_ne address_hex size_ne size_dec ends =>
    obtain ⟨hcode, hcode_ne, hlen⟩ : (∀ c ∈ code, isspace c = false) ∧ code ≠ [] ∧
        code.length ≤ 4 := by
      simp only [validCodes, List.mem_cons, List.not_mem_nil, or_false] at valid
      rcases valid with rfl | rfl | rfl | rfl <;> simp [isspace]
    have hword : ∀ c ∈ address ++ ',' :: size, isspace c = false := by
      intro c hc
      rcases List.mem_append.mp hc with hc | hc
      · exact (isDigit_ne le_rfl (address_hex c hc)).1
      · rcases List.mem_cons.mp hc with rfl | hc
        · decide
        · exact (isDigit_ne (by omega) (size_dec c hc)).1
    have hends : EndsWord (between ++ (address ++ ',' :: size) ++ rest) := by
      cases between with
      | nil => exact absurd rfl between_ne
      | cons c between =>
        rintro _ ⟨⟩
        exact between_space c List.mem_cons_self
    refine ⟨code, between ++ (address ++ ',' :: size) ++ rest,
      (address ++ ',' :: size).drop w ++ rest, ?_, ?_, ?_⟩
    · rw [scanWord_append (by omega) before_space hcode_ne hcode hends,
        List.take_of_length_le hlen, List.drop_of_length_le hlen, List.nil_append]
    · exact List.contains_iff_mem.mpr valid
    · exact scanWord_append hw between_space (by simp) hword ends

/-- The numbers of a documented line are its second word, cut off after 100 characters. -/
theorem Documented.referenceNumbers (h : Documented line address size) :
    referenceNumbers line = some ((address ++ ',' :: size).take 100) := by
  obtain ⟨code, rest, rest', hcode, hvalid, hword⟩ := h.scanWord (w := 100) (by omega)
  have hfields : scanFields line = some (code, (address ++ ',' :: size).take 100) := by
    rw [scanFields, hcode]
    show (CText.scanWord 100 rest >>= _) = _
    rw [hword]
    rfl
  rw [Valws.referenceNumbers, hfields]
  simp only [if_pos hvalid]

/-- The digits of an address are what stands before the comma. -/
theorem Documented.not_mem_comma (h : Documented line address size) : ',' ∉ address := by
  cases h with
  | line _ _ _ _ _ address_hex _ _ _ =>
    intro hc
    exact (isDigit_ne le_rfl (address_hex _ hc)).2.2.2.1 rfl

theorem Documented.length_size_pos (h : Documented line address size) : 0 < size.length := by
  cases h with
  | line _ _ _ _ _ _ size_ne _ _ => exact List.length_pos_iff.mpr size_ne

/-- A line is documented with one address and one size. -/
theorem Documented.unique {address' size' : List Char} (h : Documented line address size)
    (h' : Documented line address' size') : address = address' ∧ size = size' := by
  have hword : address ++ ',' :: size = address' ++ ',' :: size' := by
    set w := (address ++ ',' :: size).length + (address' ++ ',' :: size').length with hw
    have hpos : 0 < w := by
      rw [hw, List.length_append, List.length_cons]
      omega
    obtain ⟨_, rest, _, hcode, -, hscan⟩ := h.scanWord hpos
    obtain ⟨_, rest', _, hcode', -, hscan'⟩ := h'.scanWord hpos
    obtain ⟨-, rfl⟩ := Prod.mk.inj (Option.some.inj (hcode.symm.trans hcode'))
    obtain ⟨heq, -⟩ := Prod.mk.inj (Option.some.inj (hscan.symm.trans hscan'))
    rwa [List.take_of_length_le (by omega), List.take_of_length_le (by omega)] at heq
  have hfront : ∀ {a s : List Char}, ',' ∉ a → (a ++ ',' :: s).takeWhile (· != ',') = a :=
    fun ha => takeWhile_append_eq (fun c hc => bne_iff_ne.mpr fun e => ha (by rwa [← e]))
      (by rintro _ ⟨⟩; rfl)
  have haddress : address = address' := by
    rw [← hfront (s := size) h.not_mem_comma, hword, hfront h'.not_mem_comma]
  subst haddress
  exact ⟨rfl, (List.cons.inj (List.append_cancel_left hword)).2⟩

theorem mem_seps {c : Char} : c ∈ seps ↔ c = ',' := List.mem_singleton

/-- No character of the address ends a token. -/
theorem Documented.not_mem_seps (h : Documented line address size) : ∀ c ∈ address, c ∉ seps :=
  fun _ hc hsep => h.not_mem_comma (mem_seps.mp hsep ▸ hc)

/-- The 100 characters end with the comma or before it: there is one token. -/
theorem Documented.strtok_long (h : Documented line address size) (hlen : ¬ address.length ≤ 98) :
    ∃ token, strtok seps ((address ++ ',' :: size).take 100) = some (token, []) := by
  have hfree := h.not_mem_seps
  have htake := @List.take_append _ address (',' :: size) 100
  have hne : address ≠ [] := by
    rintro rfl
    exact hlen (Nat.zero_le _)
  by_cases h99 : address.length = 99
  · rw [List.take_of_length_le (l := address) (by omega), h99] at htake
    rw [htake]
    exact ⟨address, strtok_append (mem_seps.mpr rfl) hne hfree⟩
  · rw [Nat.sub_eq_zero_of_le (by omega), List.take_zero, List.append_nil] at htake
    rw [htake]
    refine ⟨_, strtok_all ?_ fun c hc => hfree c (List.mem_of_mem_take hc)⟩
    rw [ne_eq, List.take_eq_nil_iff]
    rintro (h | h)
    · omega
    · exact hne h

/-- **The tokens of a documented line**: both numbers, if the first 100 characters of the second
word reach beyond the comma. -/
theorem Documented.readNumbers (h : Documented line address size) (refPageSize : Ull) :
    readNumbers refPageSize ((address ++ ',' :: size).take 100) =
      if address.length ≤ 98 then
        some (numberValue 16 false address, numberValue 10 false (size.take (99 - address.length)))
      else none := by
  by_cases hlen : address.length ≤ 98
  · have hfree := h.not_mem_seps
    cases h with
    | line _ _ _ _ address_ne address_hex size_ne size_dec _ =>
      have htake : (address ++ ',' :: size).take 100 =
          address ++ ',' :: size.take (99 - address.length) := by
        rw [List.take_append, List.take_of_length_le (l := address) (by omega),
          show 100 - address.length = (99 - address.length) + 1 by omega, List.take_succ_cons]
      have hdigits : ∀ c ∈ size.take (99 - address.length), isDigit 10 c = true :=
        fun c hc => size_dec c (List.mem_of_mem_take hc)
      have hfree' : ∀ c ∈ size.take (99 - address.length), c ∉ seps := fun c hc hsep =>
        (isDigit_ne (by omega) (hdigits c hc)).2.2.2.1 (mem_seps.mp hsep)
      have hne : size.take (99 - address.length) ≠ [] := by
        rw [ne_eq, List.take_eq_nil_iff]
        rintro (h | h)
        · omega
        · exact size_ne h
      rw [if_pos hlen, htake, Valws.readNumbers, strtok_append (mem_seps.mpr rfl) address_ne hfree]
      simp only [Option.bind_eq_bind, Option.bind_some, strtok_all hne hfree',
        strtoull_digits le_rfl address_ne address_hex,
        strtoull_digits (by omega : 10 ≤ 16) hne hdigits, Option.getD_some]
  · obtain ⟨token, htoken⟩ := h.strtok_long hlen
    rw [if_neg hlen, Valws.readNumbers, htoken]
    rfl

/-- What the loop does with a documented line. -/
theorem Documented.lineAction (h : Documented line address size) (refPageSize : Ull) :
    lineAction refPageSize line =
      if address.length ≤ 98 then
        .insert (numberValue 16 false address)
          (numberValue 10 false (size.take (99 - address.length)))
      else .crash := by
  rw [Valws.lineAction, h.referenceNumbers]
  simp only [h.readNumbers]
  by_cases hlen : address.length ≤ 98
  · simp only [if_pos hlen]
  · simp only [if_neg hlen]

end Documented

/-! ## Exactness -/

/-- The line is read as the design document says, whatever the value left from earlier lines: a
memory access is inserted with its address and its size, and any other line is passed over. -/
def ReadsExactly (line : Line) : Prop :=
  ∀ refPageSize : Ull,
    (∀ address size, Documented line address size →
      ∃ a n : Ull, lineAction refPageSize line = .insert a n ∧
        a.toNat = numeral 16 address ∧ n.toNat = numeral 10 size) ∧
    ((¬ ∃ address size, Documented line address size) → lineAction refPageSize line = .pass)

/-- What is read of the numbers is worth the same iff both fit and no digit that counts is cut
off. -/
theorem numbers_exact_iff {address size : List Char} (hlen : address.length ≤ 98) :
    ((numberValue 16 false address).toNat = numeral 16 address ∧
      (numberValue 10 false (size.take (99 - address.length))).toNat = numeral 10 size) ↔
    numeral 16 address < 2 ^ 64 ∧ numeral 10 size < 2 ^ 64 ∧
      (address.length + size.length < 100 ∨ numeral 10 size = 0) := by
  rw [numberValue_toNat, numberValue_toNat]
  have hle := numeral_take_le (by omega : 1 ≤ 10) size (99 - address.length)
  have htake : numeral 10 (size.take (99 - address.length)) = numeral 10 size ↔
      address.length + size.length < 100 ∨ numeral 10 size = 0 := by
    by_cases hshort : size.length ≤ 99 - address.length
    · rw [List.take_of_length_le hshort]
      exact iff_of_true rfl (by omega)
    · rw [numeral_take_eq_iff (by omega) (by omega)]
      omega
  split <;> split <;> omega

/-- **A line is read exactly iff** the program does not take it for a reference, or it is a memory
access whose numbers are below `2 ^ 64` and whose second word has at most 100 characters; a size of
0 may be cut off. -/
theorem readsExactly_iff (line : Line) : ReadsExactly line ↔
    referenceNumbers line = none ∨ ∃ address size, Documented line address size ∧
      numeral 16 address < 2 ^ 64 ∧ numeral 10 size < 2 ^ 64 ∧
      (address.length + size.length < 100 ∨ address.length ≤ 98 ∧ numeral 10 size = 0) := by
  constructor
  · intro h
    by_cases hdoc : ∃ address size, Documented line address size
    · obtain ⟨address, size, hdoc⟩ := hdoc
      obtain ⟨a, n, hact, ha, hn⟩ := (h 0).1 address size hdoc
      rw [hdoc.lineAction] at hact
      split at hact
      · rename_i hlen
        obtain ⟨rfl, rfl⟩ := LineAction.insert.inj hact
        obtain ⟨h16, h10, hshort⟩ := (numbers_exact_iff hlen).mp ⟨ha, hn⟩
        exact Or.inr ⟨address, size, hdoc, h16, h10, hshort.imp_right fun h0 => ⟨hlen, h0⟩⟩
      · cases hact
    · exact Or.inl (lineAction_eq_pass_iff.mp ((h 0).2 hdoc))
  · rintro (hnone | ⟨address, size, hdoc, h16, h10, hshort⟩) refPageSize
    · refine ⟨fun address size hdoc => ?_, fun _ => lineAction_eq_pass_iff.mpr hnone⟩
      rw [hdoc.referenceNumbers] at hnone
      cases hnone
    · refine ⟨fun address' size' hdoc' => ?_, fun hnot => absurd ⟨_, _, hdoc⟩ hnot⟩
      obtain ⟨rfl, rfl⟩ := hdoc.unique hdoc'
      have hlen : address.length ≤ 98 := by
        have := hdoc.length_size_pos
        omega
      rw [hdoc.lineAction, if_pos hlen]
      exact ⟨_, _, rfl, (numbers_exact_iff hlen).mpr
        ⟨h16, h10, hshort.imp_right And.right⟩⟩

/-- **A line of program output**: the first word is a code, so the program reads `am` as an address
and a null token as the size. -/
theorem not_readsExactly_text : ¬ ReadsExactly "I am here\n".toList := by
  intro h
  have hact : lineAction 0 "I am here\n".toList = .crash := by decide
  by_cases hdoc : ∃ address size, Documented "I am here\n".toList address size
  · obtain ⟨address, size, hdoc⟩ := hdoc
    obtain ⟨a, n, hinsert, -⟩ := (h 0).1 address size hdoc
    rw [hact] at hinsert
    cases hinsert
  · have hpass := (h 0).2 hdoc
    rw [hact] at hpass
    cases hpass

end C380.Valws
