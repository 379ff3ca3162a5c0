import C380.Lib.Fields
import C380.Notapp.ObserverSession

/-!
# What a row tells

A row is one text: the time, the host and the path end at a tab, the name of the file and the words
of the mask at a space. Tabs and spaces in them are not marked.

* `Readable`: a path without a tab, and a name that has no space and is no word of the mask.
* `row_eq_iff`: **two rows are equal iff they tell the same**: the time, the host, the path, the
  name or that there is none, and the bits that `translate_masks` knows.
* `serve_eq_iff`: **two clean sessions leave the same entries iff the same was observed.**
-/

namespace C380.Notapp

open CText Fields LittleEndian

/-! ## The time -/

section Time

/-- The character of a digit, and its value. -/
def digitByte (d : ℕ) : UInt8 := UInt8.ofNat (48 + d)

def byteDigit (b : UInt8) : ℕ := b.toNat - 48

theorem byteDigit_digitByte : ∀ d < 10, byteDigit (digitByte d) = d := by decide

theorem decimal_eq_padded (n : ℕ) :
    decimal n = padded 10 digitByte (if n = 0 then 1 else 0) n := by
  unfold decimal padded
  by_cases h0 : n = 0
  · rw [if_pos h0, if_pos h0, h0]
    rfl
  · rw [if_neg h0, if_neg h0]
    rfl

theorem replicate_decimal_inj {k k' n n' : ℕ}
    (h : List.replicate k 48 ++ decimal n = List.replicate k' 48 ++ decimal n') : n = n' := by
  have hzeros : ∀ j m, List.replicate j 48 ++ decimal m =
      padded 10 digitByte (j + if m = 0 then 1 else 0) m := by
    intro j m
    simp only [decimal_eq_padded, padded, List.replicate_add, List.map_append, List.map_replicate,
      List.append_assoc]
    rfl
  rw [hzeros, hzeros] at h
  exact padded_inj (by decide) byteDigit_digitByte h

/-- A minus sign is in front, or nowhere. -/
theorem signBytes_inj {n n' : Int} {k k' : ℕ}
    (h : signBytes n ++ (List.replicate k 48 ++ decimal n.natAbs) =
      signBytes n' ++ (List.replicate k' 48 ++ decimal n'.natAbs)) : n = n' := by
  have hmem : ∀ (m : Int) (j : ℕ),
      45 ∈ signBytes m ++ (List.replicate j 48 ++ decimal m.natAbs) ↔ m < 0 := by
    intro m j
    have hdigits : 45 ∉ List.replicate j 48 ++ decimal m.natAbs := fun hd => by
      rcases List.mem_append.mp hd with hd | hd
      · exact absurd (List.eq_of_mem_replicate hd) (by decide)
      · exact absurd (mem_decimal hd).1 (by decide)
    rw [List.mem_append, or_iff_left hdigits, signBytes]
    by_cases hneg : m < 0
    · simp [hneg]
    · simp [hneg]
  have hsign : n < 0 ↔ n' < 0 := by rw [← hmem n k, h, hmem]
  have hbytes : signBytes n = signBytes n' := by
    unfold signBytes
    exact if_congr hsign rfl rfl
  rw [hbytes] at h
  have habs := replicate_decimal_inj (List.append_cancel_left h)
  omega

theorem formatLd_inj {n n' : Int} (h : formatLd n = formatLd n') : n = n' :=
  @signBytes_inj n n' 0 0 h

theorem format06ld_inj {n n' : Int} (h : format06ld n = format06ld n') : n = n' := by
  simp only [format06ld, List.append_assoc] at h
  exact signBytes_inj h

/-- **The time in front of a row.** -/
theorem timestamp_append_inj {tv tv' : Timeval} {x y : Bytes} :
    timestamp tv ++ x = timestamp tv' ++ y ↔ tv = tv' ∧ x = y := by
  have hpoint : ∀ n : Int, (46 : UInt8) ∉ formatLd n := fun n h => by
    rcases mem_formatLd h with h | h
    · cases h
    · exact absurd h.1 (by decide)
  have htab : ∀ n : Int, (9 : UInt8) ∉ format06ld n := fun n h => by
    rcases mem_format06ld h with h | h
    · cases h
    · exact absurd h.1 (by decide)
  simp only [timestamp, List.append_assoc, List.cons_append, List.nil_append]
  rw [append_sep_inj (hpoint _) (hpoint _), append_sep_inj (htab _) (htab _)]
  constructor
  · rintro ⟨hsec, husec, hrest⟩
    obtain ⟨sec, usec⟩ := tv
    obtain ⟨sec', usec'⟩ := tv'
    obtain rfl : sec = sec' := formatLd_inj hsec
    obtain rfl : usec = usec' := format06ld_inj husec
    exact ⟨rfl, hrest⟩
  · rintro ⟨rfl, rfl⟩
    exact ⟨rfl, rfl, rfl⟩

end Time

/-! ## The words of the mask -/

section Mask

/-- The word of a text. -/
def maskWord (text : String) : Bytes := (textBytes text).dropLast

/-- The words that `translate_masks` appends. -/
def wordsOf (mask : BitVec 32) : List Bytes :=
  (maskTexts.filter fun m => mask &&& m.1 ≠ 0).map fun m => maskWord m.2

/-- The bits that it knows. -/
def knownBits : BitVec 32 := (maskTexts.map Prod.fst).foldr (· ||| ·) 0

theorem textBytes_eq_maskWord : ∀ m ∈ maskTexts, textBytes m.2 = maskWord m.2 ++ [32] := by
  decide

theorem space_notMem_maskWord : ∀ m ∈ maskTexts, 32 ∉ maskWord m.2 := by decide

theorem flatten_textsOf (mask : BitVec 32) :
    (textsOf mask).flatten = (wordsOf mask).flatMap fun word => word ++ [32] := by
  rw [textsOf, wordsOf, List.flatMap_def, List.map_map]
  refine congrArg List.flatten (List.map_congr_left fun m hm => ?_)
  exact textBytes_eq_maskWord m (List.mem_filter.mp hm).1

theorem maskWord_mem_wordsOf {m : BitVec 32 × String} (hm : m ∈ maskTexts) (mask : BitVec 32) :
    maskWord m.2 ∈ wordsOf mask ↔ mask &&& m.1 ≠ 0 := by
  have hinj : ∀ m ∈ maskTexts, ∀ m' ∈ maskTexts, maskWord m.2 = maskWord m'.2 → m.1 = m'.1 := by
    decide
  rw [wordsOf, List.mem_map]
  constructor
  · rintro ⟨m', hm', hword⟩
    obtain ⟨hmem, hbit⟩ := List.mem_filter.mp hm'
    rw [← hinj m' hmem m hm hword]
    exact of_decide_eq_true hbit
  · exact fun hbit => ⟨m, List.mem_filter.mpr ⟨hm, decide_eq_true hbit⟩, rfl⟩

/-- What is left of a mask at one bit. -/
theorem and_maskBit {m : BitVec 32 × String} (hm : m ∈ maskTexts) (mask : BitVec 32) :
    mask &&& m.1 = 0 ∨ mask &&& m.1 = m.1 := by
  have hbit : ∀ m ∈ maskTexts, ∃ i : Fin 32, m.1 = BitVec.twoPow 32 i := by decide
  obtain ⟨i, hi⟩ := hbit m hm
  rw [hi, BitVec.and_twoPow]
  split
  · exact Or.inr rfl
  · exact Or.inl rfl

/-- Masks that agree at each of some bits agree at all of them. -/
theorem and_foldr_or {mask mask' : BitVec 32} : ∀ bits : List (BitVec 32),
    (∀ bit ∈ bits, mask &&& bit = mask' &&& bit) →
    mask &&& bits.foldr (· ||| ·) 0 = mask' &&& bits.foldr (· ||| ·) 0
  | [], _ => by simp only [List.foldr_nil, BitVec.ofNat_eq_ofNat, BitVec.and_zero]
  | bit :: bits, h => by
    rw [List.foldr_cons, BitVec.and_or_distrib_left, BitVec.and_or_distrib_left,
      h bit List.mem_cons_self, and_foldr_or bits fun b hb => h b (List.mem_cons_of_mem _ hb)]

/-- **The words tell the bits that are known.** -/
theorem wordsOf_eq_iff {mask mask' : BitVec 32} :
    wordsOf mask = wordsOf mask' ↔ mask &&& knownBits = mask' &&& knownBits := by
  constructor
  · intro h
    refine and_foldr_or _ fun bit hbit => ?_
    obtain ⟨m, hm, rfl⟩ := List.mem_map.mp hbit
    have hsame : mask &&& m.1 ≠ 0 ↔ mask' &&& m.1 ≠ 0 := by
      rw [← maskWord_mem_wordsOf hm, h, maskWord_mem_wordsOf hm]
    rcases and_maskBit hm mask with h0 | h0
    · rw [h0, not_not.mp (mt hsame.mpr (not_not.mpr h0))]
    · rcases and_maskBit hm mask' with h1 | h1
      · rw [h1, not_not.mp (mt hsame.mp (not_not.mpr h1))]
      · rw [h0, h1]
  · intro h
    have hknown : ∀ m ∈ maskTexts, knownBits &&& m.1 = m.1 := by decide
    have hat : ∀ m ∈ maskTexts, mask &&& m.1 = mask' &&& m.1 := fun m hm => by
      rw [← hknown m hm, ← BitVec.and_assoc, ← BitVec.and_assoc, h]
    rw [wordsOf, wordsOf]
    refine congrArg _ (List.filter_congr fun m hm => ?_)
    rw [hat m hm]

end Mask

/-! ## The row -/

/-- What a row tells of an event. -/
structure Observed where
  tv : Timeval
  host : Bytes
  path : Bytes
  name : Option Bytes
  mask : BitVec 32
  deriving DecidableEq

namespace Event

variable (path host : Bytes) (e : Event) (s : Stamp)

/-- The name that the row has, if any. -/
def shownName (e : Event) : Option Bytes := if e.field.length ≠ 0 then some e.name else none

def observed : Observed := ⟨s.tv, host, path, e.shownName, e.mask &&& knownBits⟩

/-- The name has no space and is no word of a mask. -/
structure Readable (e : Event) : Prop where
  name_space : 32 ∉ e.name
  name_word : e.name ∉ maskTexts.map fun m => maskWord m.2

/-- The fields behind the last tab, each with a space behind it. -/
def words (e : Event) : List Bytes := e.shownName.toList ++ wordsOf e.mask

theorem row_eq_words : e.row path host s = timestamp s.tv ++
    (host ++ 9 :: (path ++ 9 :: e.words.flatMap fun word => word ++ [32])) := by
  simp only [row, words, List.flatMap_append, flatten_textsOf, List.append_assoc, shownName,
    List.cons_append, List.nil_append]
  by_cases h0 : e.field.length = 0
  · simp [h0]
  · simp [h0]

variable {path host e s}

theorem space_notMem_words (h : e.Readable) : ∀ word ∈ e.words, 32 ∉ word := by
  intro word hword
  rcases List.mem_append.mp hword with hword | hword
  · rw [Option.mem_toList, shownName, Option.ite_none_right_eq_some] at hword
    rw [← Option.some.inj hword.2]
    exact h.name_space
  · obtain ⟨m, hm, rfl⟩ := List.mem_map.mp hword
    exact space_notMem_maskWord m (List.mem_filter.mp hm).1

/-- A name is not among the words of a mask. -/
theorem Readable.shownName_notMem (h : e.Readable) (mask : BitVec 32) :
    ∀ name ∈ e.shownName, name ∉ wordsOf mask := by
  intro name hname hword
  rw [shownName, Option.mem_def, Option.ite_none_right_eq_some] at hname
  obtain rfl := Option.some.inj hname.2
  obtain ⟨m, hm, hm'⟩ := List.mem_map.mp hword
  exact h.name_word (List.mem_map.mpr ⟨m, (List.mem_filter.mp hm).1, hm'⟩)

/-- **The words tell the name**, or that there is none. -/
theorem words_eq_iff {e' : Event} (h : e.Readable) (h' : e'.Readable) :
    e.words = e'.words ↔ e.shownName = e'.shownName ∧ wordsOf e.mask = wordsOf e'.mask := by
  refine ⟨fun hwords => ?_, fun ⟨hname, hmask⟩ => by rw [words, words, hname, hmask]⟩
  have hnone := h.shownName_notMem e'.mask
  have hnone' := h'.shownName_notMem e.mask
  unfold words at hwords
  cases hname : e.shownName with
  | none =>
    rw [hname] at hwords
    cases hname' : e'.shownName with
    | none =>
      rw [hname'] at hwords
      exact ⟨rfl, hwords⟩
    | some name' =>
      rw [hname'] at hwords
      refine absurd ?_ (hnone' name' hname')
      rw [show wordsOf e.mask = _ from hwords]
      exact List.mem_cons_self
  | some name =>
    rw [hname] at hwords
    cases hname' : e'.shownName with
    | none =>
      rw [hname'] at hwords
      refine absurd ?_ (hnone name hname)
      rw [show wordsOf e'.mask = _ from hwords.symm]
      exact List.mem_cons_self
    | some name' =>
      rw [hname'] at hwords
      obtain ⟨rfl, hmask⟩ := List.cons.inj hwords
      exact ⟨rfl, hmask⟩

/-- **Two rows are equal iff they tell the same.** -/
theorem row_eq_iff {path' host' : Bytes} {e' : Event} {s' : Stamp} (hhost : 9 ∉ host)
    (hhost' : 9 ∉ host') (hpath : 9 ∉ path) (hpath' : 9 ∉ path') (he : e.Readable)
    (he' : e'.Readable) : e.row path host s = e'.row path' host' s' ↔
      e.observed path host s = e'.observed path' host' s' := by
  rw [row_eq_words, row_eq_words, timestamp_append_inj, append_sep_inj hhost hhost',
    append_sep_inj hpath hpath']
  have hwords : ((e.words.flatMap fun word => word ++ [32]) =
      e'.words.flatMap fun word => word ++ [32]) ↔ e.words = e'.words :=
    ⟨flatMap_sep_inj (space_notMem_words he) (space_notMem_words he'), fun h => by rw [h]⟩
  rw [hwords, words_eq_iff he he', wordsOf_eq_iff, observed, observed, Observed.mk.injEq]

end Event

/-- A file with the name of a word: its opening reads like an access to the directory, which is
open. -/
def fileInAccess : Event where
  wd := 1
  mask := 0x20
  cookie := 0
  name := maskWord "IN_ACCESS "
  nuls := 7
  noNul := by decide
  noSlash := by decide
  short := by decide
  terminated := by decide

example (path host : Bytes) (s : Stamp) :
    ∃ e : Event, e.row path host s = fileInAccess.row path host s ∧
      e.shownName = none ∧ fileInAccess.shownName ≠ none :=
  ⟨⟨1, 0x21, 0, [], 0, by decide, by decide, by decide, by decide⟩, rfl, rfl, by decide⟩

/-! ## The session -/

namespace ObserverSession

/-- What the entries of a session tell. -/
def observed (t : ObserverSession) : List Observed :=
  t.events.map fun x => x.1.observed t.fileordir t.ipBuffer x.2

/-- The path has no tab, and the names are `Readable`. -/
structure Readable (t : ObserverSession) : Prop where
  path_tab : 9 ∉ t.fileordir
  names : ∀ x ∈ t.events, x.1.Readable

variable {t t' : ObserverSession}

theorem tab_notMem_ip (t : ObserverSession) : 9 ∉ t.ipBuffer := fun h => by
  rcases t.ip_dotted 9 h with h | h
  · cases h
  · exact absurd h.1 (by decide)

theorem entry_eq_iff (h : t.Readable) (h' : t'.Readable) {x y : Event × Stamp} (hx : x ∈ t.events)
    (hy : y ∈ t'.events) : t.entry x = t'.entry y ↔
      x.1.observed t.fileordir t.ipBuffer x.2 = y.1.observed t'.fileordir t'.ipBuffer y.2 := by
  have hrow := @Event.row_eq_iff _ _ _ x.2 _ _ _ y.2 t.tab_notMem_ip t'.tab_notMem_ip h.path_tab
    h'.path_tab (h.names x hx) (h'.names y hy)
  rw [entry, entry, Entry.mk.injEq, hrow]
  exact and_iff_right_of_imp fun hobserved => congrArg Observed.tv hobserved

end ObserverSession

/-- **Nothing readable is lost or mixed up.** What the server makes of two clean sessions is equal
iff the same was observed in them, event by event: the time, the host, the path, the name or that
there is none, and the known bits of the mask. -/
theorem serve_eq_iff (t t' : ObserverSession) (garbage garbage' : ThreadGarbage) (m m' : Memory)
    (h : t.Clean) (h' : t'.Clean) (hread : t.Readable) (hread' : t'.Readable) :
    serve garbage (t.bytes m) = serve garbage' (t'.bytes m') ↔ t.observed = t'.observed := by
  rw [ObserverSession.serve_clean h, ObserverSession.serve_clean h', Option.some.injEq,
    Served.observer.injEq, ThreadRun.mk.injEq, List.cons.injEq]
  simp only [true_and, and_true]
  exact map_eq_map_congr fun x hx y hy => ObserverSession.entry_eq_iff hread hread' hx hy

theorem watchTmp_readable (wd mask : BitVec 32) : (watchTmp wd mask).Readable where
  path_tab := (by decide : 9 ∉ textBytes "/tmp")
  names := fun x hx => by
    obtain rfl := List.mem_singleton.mp hx
    exact ⟨(by decide : 32 ∉ textBytes "a"),
      (by decide : textBytes "a" ∉ maskTexts.map fun m => maskWord m.2)⟩

/-- The watch descriptor is not told, and a deletion is not taken for a creation. -/
theorem serve_eq_iff_watchTmp :
    (serve ⟨fun _ => 0, ⟨fun _ => 0, fun _ => 0⟩, ⟨fun _ => 0, fun _ => 0⟩, fun _ => 0,
        fun _ _ => 0⟩ ((watchTmp 1 0x100).bytes fun _ => 0) =
      serve ⟨fun _ => 9, ⟨fun _ => 9, fun _ => 9⟩, ⟨fun _ => 9, fun _ => 9⟩, fun _ => 9,
        fun _ _ => 9⟩ ((watchTmp 2 0x100).bytes fun _ => 9)) ∧
    serve ⟨fun _ => 0, ⟨fun _ => 0, fun _ => 0⟩, ⟨fun _ => 0, fun _ => 0⟩, fun _ => 0,
        fun _ _ => 0⟩ ((watchTmp 1 0x100).bytes fun _ => 0) ≠
      serve ⟨fun _ => 0, ⟨fun _ => 0, fun _ => 0⟩, ⟨fun _ => 0, fun _ => 0⟩, fun _ => 0,
        fun _ _ => 0⟩ ((watchTmp 1 0x200).bytes fun _ => 0) := by
  have hread := watchTmp_readable
  refine ⟨(serve_eq_iff _ _ _ _ _ _ watchTmp_create (watchTmp_clean (by decide)) (hread _ _)
    (hread _ _)).mpr (by decide), fun h => ?_⟩
  have hobserved := (serve_eq_iff _ _ _ _ _ _ watchTmp_create (watchTmp_clean (by decide))
    (hread _ _) (hread _ _)).mp h
  revert hobserved
  decide

end C380.Notapp
