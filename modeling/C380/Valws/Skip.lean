import C380.Valws.Reader

/-!
# The option `-s` (`Assignment03/valws379.c`)

`skipsize` is the argument of `-s` plus one, and a reference is skipped while the counter of
references, already raised for it, is below. `dropReferences` removes references from the input
instead.

* `main_skip`: **skipping is dropping**, for inputs of fewer than `2 ^ 64` references: the same
  sizes are printed and the same window is left, with larger numbers.
* `main_skip_wrapped`: the counter is a 64-bit number, so the `2 ^ 64`-th reference is skipped
  again.
-/

namespace C380.Valws

/-- The program takes the line for a reference. -/
def isReference (line : Line) : Bool := (referenceNumbers line).isSome

/-- The input without its first `n` references before the first blank line. -/
def dropReferences : Nat → List Line → List Line
  | 0, lines => lines
  | _ + 1, [] => []
  | n + 1, line :: lines =>
    if isEmptyLine line then
      if isReference line then dropReferences n lines else line :: dropReferences (n + 1) lines
    else line :: lines

/-- The number of references before the first blank line. -/
def referenceCount (lines : List Line) : Nat :=
  (lines.takeWhile isEmptyLine).countP isReference

/-- The outcome with every printed number larger by `s`. -/
def Outcome.renumber (s : Ull) (o : Outcome) : Outcome :=
  ⟨o.printed.map fun p => (p.1 + s, p.2), o.windowSet⟩

section Loop

variable {fuel : ℕ} {skipsize : Ull} {line : Line} {lines : List Line} {st : Reader}

/-! ## One iteration -/

theorem isReference_eq_false : isReference line = false ↔ referenceNumbers line = none :=
  Option.isSome_eq_false_iff.trans Option.isNone_iff_eq_none

/-- A reference is not passed over. -/
theorem lineAction_ne_pass (h : isReference line = true) (refPageSize : Ull) :
    lineAction refPageSize line ≠ .pass := by
  intro hpass
  rw [lineAction_eq_pass_iff, ← isReference_eq_false, h] at hpass
  cases hpass

theorem readLine_skip (h : isReference line = true) (hlt : st.memRefCount + 1 < skipsize) :
    readLine fuel skipsize st line = some { st with memRefCount := st.memRefCount + 1 } := by
  obtain ⟨strNumbers, hnum⟩ := Option.isSome_iff_exists.mp h
  simp only [readLine, hnum, if_pos hlt]

theorem readLoop_cons (h : isEmptyLine line = true) {st' : Reader}
    (hline : readLine fuel skipsize st line = some st') :
    readLoop fuel skipsize (line :: lines) st = readLoop fuel skipsize lines st' := by
  rw [readLoop, if_pos h, hline]

/-- What is no reference is passed over. -/
theorem readLoop_pass (h : isEmptyLine line = true) (href : isReference line = false) :
    readLoop fuel skipsize (line :: lines) st = readLoop fuel skipsize lines st := by
  refine readLoop_cons h ?_
  rw [readLine, isReference_eq_false.mp href]

theorem readLoop_cons_none (h : isEmptyLine line = true)
    (hline : readLine fuel skipsize st line = none) :
    readLoop fuel skipsize (line :: lines) st = ⟨st.printed, none⟩ := by
  rw [readLoop, if_pos h, hline]

theorem readLoop_blank (h : isEmptyLine line = false) :
    readLoop fuel skipsize (line :: lines) st = ⟨st.printed, some st.windowSet⟩ := by
  rw [readLoop, h]
  rfl

theorem referenceCount_reference (h : isEmptyLine line = true) (href : isReference line = true) :
    referenceCount (line :: lines) = referenceCount lines + 1 := by
  unfold referenceCount
  rw [List.takeWhile_cons_of_pos h, List.countP_cons_of_pos href]

theorem referenceCount_pass (h : isEmptyLine line = true) (href : isReference line = false) :
    referenceCount (line :: lines) = referenceCount lines := by
  unfold referenceCount
  rw [List.takeWhile_cons_of_pos h, List.countP_cons_of_neg (Bool.eq_false_iff.mp href)]

end Loop

/-- The reader of a run with `-s`, when no reference is skipped any more, against that of the run
on the shorter input. -/
structure Renumbered (s : Ull) (st st' : Reader) : Prop where
  memRefCount : st.memRefCount = st'.memRefCount + s
  refPageSize : st.refPageSize = st'.refPageSize
  windowSet : st.windowSet = st'.windowSet
  printed : st.printed = st'.printed.map fun p => (p.1 + s, p.2)

theorem renumber_ended {s : Ull} {p p' : List (Ull × Ull)} {ws ws' : Option WindowSet}
    (hp : p = p'.map fun p => (p.1 + s, p.2)) (hws : ws = ws') :
    (⟨p, ws⟩ : Outcome) = Outcome.renumber s ⟨p', ws'⟩ := by
  rw [Outcome.renumber, hp, hws]

/-- A reference that neither run skips ends both, or keeps the readers renumbered. -/
theorem Renumbered.readLine {s skipsize skipsize' : Ull} {st st' : Reader}
    (h : Renumbered s st st') (fuel : ℕ) {line : Line} (href : isReference line = true)
    (hskip : ¬ st.memRefCount + 1 < skipsize) (hskip' : ¬ st'.memRefCount + 1 < skipsize') :
    (readLine fuel skipsize st line = none ∧ readLine fuel skipsize' st' line = none) ∨
    ∃ st₁ st₁', readLine fuel skipsize st line = some st₁ ∧
      readLine fuel skipsize' st' line = some st₁' ∧ Renumbered s st₁ st₁' ∧
      st₁.memRefCount = st.memRefCount + 1 := by
  have hcount : st.memRefCount + 1 = st'.memRefCount + 1 + s := by
    rw [h.memRefCount]
    bv_omega
  rw [readLine_eq_lineAction line hskip, readLine_eq_lineAction line hskip', h.refPageSize,
    h.windowSet]
  cases hact : lineAction st'.refPageSize line with
  | pass => exact absurd hact (lineAction_ne_pass href _)
  | crash => exact Or.inl ⟨rfl, rfl⟩
  | insert address size =>
    simp only
    cases windowSetInsert fuel st'.windowSet address size with
    | none => exact Or.inl ⟨rfl, rfl⟩
    | some windowSet =>
      refine Or.inr ⟨_, _, rfl, rfl, ⟨hcount, rfl, rfl, ?_⟩, rfl⟩
      rw [h.printed, hcount, List.map_append]
      rfl

section Run

variable {fuel : ℕ} {s : Ull} (hs : s.toNat + 1 < 2 ^ 64)
include hs

/-- **No reference is skipped once `s` have been.** -/
theorem readLoop_renumber : ∀ (lines : List Line) (st st' : Reader), Renumbered s st st' →
    s.toNat ≤ st.memRefCount.toNat → st.memRefCount.toNat + referenceCount lines < 2 ^ 64 →
    readLoop fuel (s + 1) lines st = (readLoop fuel 0 lines st').renumber s
  | [], st, st', h, _, _ => renumber_ended h.printed (congrArg some h.windowSet)
  | line :: lines, st, st', h, hge, hlt => by
    by_cases hblank : isEmptyLine line = true
    · by_cases href : isReference line = true
      · rw [referenceCount_reference hblank href] at hlt
        have hskip : ¬ st.memRefCount + 1 < s + 1 := by bv_omega
        have hskip' : ¬ st'.memRefCount + 1 < 0 := by bv_omega
        rcases h.readLine fuel href hskip hskip' with ⟨hnone, hnone'⟩ |
          ⟨st₁, st₁', hsome, hsome', h₁, hcount⟩
        · rw [readLoop_cons_none hblank hnone, readLoop_cons_none hblank hnone']
          exact renumber_ended h.printed rfl
        · rw [readLoop_cons hblank hsome, readLoop_cons hblank hsome']
          have hsucc : st₁.memRefCount.toNat = st.memRefCount.toNat + 1 := by
            rw [hcount]
            bv_omega
          exact readLoop_renumber lines st₁ st₁' h₁ (by omega) (by omega)
      · rw [Bool.not_eq_true] at href
        rw [referenceCount_pass hblank href] at hlt
        rw [readLoop_pass hblank href, readLoop_pass hblank href]
        exact readLoop_renumber lines st st' h hge hlt
    · rw [Bool.not_eq_true] at hblank
      rw [readLoop_blank hblank, readLoop_blank hblank]
      exact renumber_ended h.printed (congrArg some h.windowSet)

/-- **Skipped references leave no trace**: `n` of them are still to be skipped. -/
theorem readLoop_skip : ∀ (lines : List Line) (n : ℕ) (st : Reader),
    st.memRefCount.toNat + n = s.toNat → st.printed = [] →
    st.memRefCount.toNat + referenceCount lines < 2 ^ 64 →
    readLoop fuel (s + 1) lines st =
      (readLoop fuel 0 (dropReferences n lines) { st with memRefCount := 0 }).renumber s
  | lines, 0, st, hn, hp, hlt => by
    rw [dropReferences]
    refine readLoop_renumber hs lines st _ ⟨?_, rfl, rfl, ?_⟩ (by omega) hlt
    · simp only
      bv_omega
    · rw [hp]
      rfl
  | [], n + 1, st, hn, hp, _ => renumber_ended (by rw [hp]; rfl) rfl
  | line :: lines, n + 1, st, hn, hp, hlt => by
    rw [dropReferences]
    by_cases hblank : isEmptyLine line = true
    · rw [if_pos hblank]
      by_cases href : isReference line = true
      · rw [referenceCount_reference hblank href] at hlt
        rw [if_pos href, readLoop_cons hblank (readLine_skip href (by bv_omega))]
        exact readLoop_skip lines n _ (by simp only; bv_omega) hp (by simp only; bv_omega)
      · rw [if_neg href]
        rw [Bool.not_eq_true] at href
        rw [referenceCount_pass hblank href] at hlt
        rw [readLoop_pass hblank href, readLoop_pass hblank href]
        exact readLoop_skip lines (n + 1) st hn hp hlt
    · rw [if_neg hblank]
      rw [Bool.not_eq_true] at hblank
      rw [readLoop_blank hblank, readLoop_blank hblank]
      exact renumber_ended (by rw [hp]; rfl) rfl

/-- The printed numbers are consecutive from `s + 1`. -/
def Numbered (s : Ull) (printed : List (Ull × Ull)) : Prop :=
  printed.map (fun p => p.1.toNat) = List.range' (s.toNat + 1) printed.length

omit hs in
/-- A reference that is not skipped is printed with the next number. -/
theorem readLine_printed {skipsize : Ull} {st st' : Reader} {line : Line}
    (href : isReference line = true) (hskip : ¬ st.memRefCount + 1 < skipsize)
    (h : readLine fuel skipsize st line = some st') : st'.memRefCount = st.memRefCount + 1 ∧
      ∃ size, st'.printed = st.printed ++ [(st.memRefCount + 1, size)] := by
  rw [readLine_eq_lineAction line hskip] at h
  cases hact : lineAction st.refPageSize line with
  | pass => exact absurd hact (lineAction_ne_pass href _)
  | crash =>
    rw [hact] at h
    cases h
  | insert address size =>
    rw [hact] at h
    obtain ⟨windowSet, -, rfl⟩ := Option.map_eq_some_iff.mp h
    exact ⟨rfl, _, rfl⟩

/-- **The numbers of a run with `-s`**, the counter being `s` and the number of lines printed. -/
theorem readLoop_numbered : ∀ (lines : List Line) (st : Reader),
    st.memRefCount.toNat + referenceCount lines < 2 ^ 64 → Numbered s st.printed →
    st.printed.length = st.memRefCount.toNat - s.toNat →
    Numbered s (readLoop fuel (s + 1) lines st).printed
  | [], st, _, hnum, _ => hnum
  | line :: lines, st, hlt, hnum, hlen => by
    by_cases hblank : isEmptyLine line = true
    · by_cases href : isReference line = true
      · rw [referenceCount_reference hblank href] at hlt
        by_cases hskip : st.memRefCount + 1 < s + 1
        · rw [readLoop_cons hblank (readLine_skip href hskip)]
          refine readLoop_numbered lines _ ?_ hnum ?_
          · simp only
            bv_omega
          · simp only [hlen]
            bv_omega
        · cases hline : readLine fuel (s + 1) st line with
          | none =>
            rw [readLoop_cons_none hblank hline]
            exact hnum
          | some st' =>
            obtain ⟨hcount, size, hprinted⟩ := readLine_printed href hskip hline
            have hsucc : st'.memRefCount.toNat = st.memRefCount.toNat + 1 := by
              rw [hcount]
              bv_omega
            have hge : s.toNat ≤ st.memRefCount.toNat := by bv_omega
            rw [readLoop_cons hblank hline]
            refine readLoop_numbered lines st' (by omega) ?_ ?_
            · rw [Numbered, hprinted, List.map_append, hnum, List.length_append,
                List.length_singleton, List.range'_concat, List.map_singleton]
              congr 2
              rw [← hcount, hsucc, hlen]
              omega
            · rw [hprinted, List.length_append, List.length_singleton, hlen, hsucc]
              omega
      · rw [Bool.not_eq_true] at href
        rw [referenceCount_pass hblank href] at hlt
        rw [readLoop_pass hblank href]
        exact readLoop_numbered lines st hlt hnum hlen
    · rw [Bool.not_eq_true] at hblank
      rw [readLoop_blank hblank]
      exact hnum

end Run

/-! ## The whole program -/

/-- **Skipping is dropping.** On an input of fewer than `2 ^ 64` references before its first blank
line, a run with `-s s` is the run without `-s` on the input without its first `s` references, with
every number larger by `s`; the numbers are consecutive from `s + 1`. -/
theorem main_skip (fuel : ℕ) (pageSize windowSize s : Ull) (hs : s.toNat + 1 < 2 ^ 64)
    (lines : List Line) (hlen : referenceCount lines < 2 ^ 64) :
    main fuel (some s) pageSize windowSize lines =
      (main fuel none pageSize windowSize (dropReferences s.toNat lines)).renumber s ∧
    (main fuel (some s) pageSize windowSize lines).printed.map (fun p => p.1.toNat) =
      List.range' (s.toNat + 1) (main fuel (some s) pageSize windowSize lines).printed.length := by
  constructor
  · exact readLoop_skip hs lines s.toNat _ (Nat.zero_add _) rfl (by simpa using hlen)
  · exact readLoop_numbered hs lines _ (by simpa using hlen) rfl (Nat.zero_sub _).symm

/-- A skipped reference among a comment and another reference. -/
theorem main_skip_one :
    main 16 (some 1) 16 2 ["# start\n".toList, "I 0,4\n".toList, " S 10,4\n".toList] =
      (main 16 none 16 2 (dropReferences (1 : Ull).toNat
        ["# start\n".toList, "I 0,4\n".toList, " S 10,4\n".toList])).renumber 1 ∧
    (main 16 (some 1) 16 2 ["# start\n".toList, "I 0,4\n".toList,
      " S 10,4\n".toList]).printed.map (fun p => p.1.toNat) =
      List.range' ((1 : Ull).toNat + 1) (main 16 (some 1) 16 2
        ["# start\n".toList, "I 0,4\n".toList, " S 10,4\n".toList]).printed.length :=
  main_skip 16 16 2 1 (by decide) _ (by decide)

/-! ## A counter that wraps -/

/-- A reference of one byte at address 0. -/
def oneByte : Line := "I 0,1\n".toList

/-- In a window of no references it leaves no trace. -/
theorem insert_oneByte :
    windowSetInsert 16 (initializeWindowSet 1 0) 0 1 = some (initializeWindowSet 1 0) := by
  have hput : windowsetPut 16 newHashtable ⟨0, 1⟩ = some (.mk 1 0 0
      (Function.update (fun _ => .list newLinkedList) 0 (.list ⟨1, [⟨0, 1⟩]⟩))) := rfl
  have hdelete : windowsetDelete (.mk 1 0 0 (Function.update (fun _ => .list newLinkedList) 0
      (.list ⟨1, [⟨0, 1⟩]⟩))) ⟨0, 1⟩ = newHashtable := by
    have hlist : windowsetDelete (.mk 1 0 0 (Function.update (fun _ => .list newLinkedList) 0
        (.list ⟨1, [⟨0, 1⟩]⟩))) ⟨0, 1⟩ = .mk 0 0 0 (Function.update (Function.update
          (fun _ => .list newLinkedList) 0 (.list ⟨1, [⟨0, 1⟩]⟩)) 0 (.list newLinkedList)) := rfl
    rw [hlist, Function.update_idem, Function.update_eq_self]
    rfl
  have hmem : processMemRef (initializeWindowSet 1 0).pageExponent 0 1 = ⟨0, 1⟩ := by decide
  have hput' : windowsetPut 16 (initializeWindowSet 1 0).hashtable ⟨0, 1⟩ = _ := hput
  have hdequeue : dequeue (enqueue (initializeWindowSet 1 0).queue ⟨0, 1⟩) =
      (⟨0, 1⟩, newQueue) := rfl
  rw [windowSetInsert, hmem, hput', hdequeue]
  simp only [Option.bind_eq_bind, Option.bind_some, hdelete]
  rfl

/-- Each line is printed, unless the counter is below `skipsize`. -/
theorem readLine_oneByte {skipsize : Ull} {st : Reader}
    (hws : st.windowSet = initializeWindowSet 1 0) (hskip : ¬ st.memRefCount + 1 < skipsize) :
    readLine 16 skipsize st oneByte = some ⟨st.memRefCount + 1, 1, initializeWindowSet 1 0,
      st.printed ++ [(st.memRefCount + 1, 0)]⟩ := by
  have hact : lineAction st.refPageSize oneByte = .insert 0 1 := rfl
  rw [readLine_eq_lineAction oneByte hskip, hact, hws]
  simp only [insert_oneByte, Option.map_some]
  rfl

theorem length_readLoop_oneByte : ∀ (n : ℕ) (st : Reader),
    st.windowSet = initializeWindowSet 1 0 →
    (readLoop 16 0 (List.replicate n oneByte) st).printed.length = st.printed.length + n
  | 0, st, _ => rfl
  | n + 1, st, hws => by
    have hskip : ¬ st.memRefCount + 1 < 0 := by bv_omega
    rw [List.replicate_succ, readLoop_cons (by decide) (readLine_oneByte hws hskip),
      length_readLoop_oneByte n _ rfl, List.length_append, List.length_singleton]
    omega

/-- With `-s 0` the last line before the counter wraps to 0 is not printed. -/
theorem length_readLoop_wrapped : ∀ (n : ℕ) (st : Reader),
    st.windowSet = initializeWindowSet 1 0 → st.memRefCount.toNat + (n + 1) = 2 ^ 64 →
    (readLoop 16 1 (List.replicate (n + 1) oneByte) st).printed.length = st.printed.length + n
  | 0, st, hws, hcount => by
    have hzero : st.memRefCount + 1 < 1 := by bv_omega
    rw [List.replicate_succ, readLoop_cons (by decide) (readLine_skip (by decide) hzero)]
    rfl
  | n + 1, st, hws, hcount => by
    have hskip : ¬ st.memRefCount + 1 < 1 := by bv_omega
    rw [List.replicate_succ, readLoop_cons (by decide) (readLine_oneByte hws hskip),
      length_readLoop_wrapped n _ rfl (by simp only; bv_omega), List.length_append,
      List.length_singleton]
    omega

theorem length_main_oneByte (n : ℕ) :
    (main 16 none 1 0 (List.replicate n oneByte)).printed.length = n :=
  (length_readLoop_oneByte n _ rfl).trans (Nat.zero_add n)

theorem length_main_wrapped {n : ℕ} (hn : n + 1 = 2 ^ 64) :
    (main 16 (some 0) 1 0 (List.replicate (n + 1) oneByte)).printed.length = n :=
  (length_readLoop_wrapped n ⟨0, 0, initializeWindowSet 1 0, []⟩ rfl
    ((Nat.zero_add _).trans hn)).trans (Nat.zero_add n)

/-- **The `2 ^ 64`-th reference is skipped** with `-s 0`, which should skip none. -/
theorem main_skip_wrapped : main 16 (some 0) 1 0 (List.replicate (2 ^ 64) oneByte) ≠
    (main 16 none 1 0 (dropReferences (0 : Ull).toNat
      (List.replicate (2 ^ 64) oneByte))).renumber 0 := by
  obtain ⟨n, hn⟩ : ∃ n, 2 ^ 64 = n + 1 := ⟨2 ^ 64 - 1, rfl⟩
  have hdrop : ∀ lines, dropReferences (0 : Ull).toNat lines = lines := fun lines => by
    rw [show (0 : Ull).toNat = 0 from rfl, dropReferences]
  rw [hn, hdrop]
  intro h
  have hlen := length_main_wrapped hn.symm
  rw [h, Outcome.renumber, List.length_map, length_main_oneByte] at hlen
  omega

end C380.Valws
