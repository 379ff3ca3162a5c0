import C380.Valws.Skip
import C380.Valws.Sparse

/-!
# What the program prints (`Assignment03/valws379.c`)

`Trace lines refs` says that the lines up to the first blank one are memory accesses in the
documented form, whose numbers fit, and lines that the program does not take for one; `refs` are the
accesses. `workingSets` is what the program is for: after each access that is not skipped, its
number and the number of distinct pages of the last `window_size` accesses.

* `main_lossless`: the program prints `workingSets`, provided no `delete` of the run loses a page.
* `main_workingSets`: **it does so for every trace that fits into its window and for every sparse
  one**, with `-s` and without.

`Progress` is the invariant of the loop.
-/

namespace C380.Valws

open CText

/-- The references of the lines that `main` reads. -/
inductive Trace : List Line → List Reference → Prop
  | eof : Trace [] []
  | blank {line : Line} {lines : List Line} (hblank : isEmptyLine line = false) :
      Trace (line :: lines) []
  | other {line : Line} {lines : List Line} {refs : List Reference}
      (hline : isEmptyLine line = true) (hnone : referenceNumbers line = none)
      (hrest : Trace lines refs) : Trace (line :: lines) refs
  | access {line : Line} {lines : List Line} {refs : List Reference} {address size : List Char}
      {r : Reference} (hdoc : Documented line address size)
      (hshort : address.length + size.length < 100)
      (haddress : numeral 16 address = r.address.toNat) (hsize : numeral 10 size = r.size.toNat)
      (hrest : Trace lines refs) : Trace (line :: lines) (r :: refs)

/-- The numbered sizes of the working sets, the first `k` references being skipped. -/
noncomputable def workingSets (pageSize windowSize : Ull) (k : ℕ) (refs : List Reference) :
    List (ℕ × ℕ) :=
  (List.range (refs.length - k)).map fun i =>
    (k + i + 1, (windowPages pageSize windowSize ((refs.drop k).take (i + 1))).ncard)

/-- What is asked of the references that are not skipped. -/
structure Lossless (fuel : ℕ) (pageSize windowSize : Ull) (refs : List Reference) : Prop where
  valid : ∀ r ∈ refs, r.Valid
  puts : pagePuts pageSize refs < 2 ^ 60
  lossless : RunLossless fuel pageSize windowSize refs

variable {fuel k : ℕ} {pageSize windowSize skipsize : Ull} {refs done : List Reference}
  {r : Reference} {line : Line} {lines : List Line} {st : Reader}

/-! ## One line -/

theorem Documented.isEmptyLine {address size : List Char} (h : Documented line address size) :
    isEmptyLine line = true := by
  cases h with
  | @line before code between address size rest before_space valid between_ne between_space
      address_ne address_hex size_ne size_dec ends =>
    refine List.any_eq_true.mpr ⟨',', by simp, ?_⟩
    decide

theorem Documented.isReference {address size : List Char} (h : Documented line address size) :
    isReference line = true := by
  rw [Valws.isReference, h.referenceNumbers]
  rfl

/-- A documented line whose numbers fit is inserted with its numbers. -/
theorem Documented.insert {address size : List Char} (h : Documented line address size)
    (hshort : address.length + size.length < 100)
    (haddress : numeral 16 address = r.address.toNat) (hsize : numeral 10 size = r.size.toNat)
    (refPageSize : Ull) : Valws.lineAction refPageSize line = .insert r.address r.size := by
  have hlen : address.length ≤ 98 := by
    have := h.length_size_pos
    omega
  have ha := r.address.isLt
  have hs := r.size.isLt
  obtain ⟨h16, h10⟩ := (numbers_exact_iff hlen).mpr ⟨by omega, by omega, Or.inl hshort⟩
  rw [h.lineAction, if_pos hlen]
  exact congrArg₂ _ (BitVec.eq_of_toNat_eq (h16.trans haddress))
    (BitVec.eq_of_toNat_eq (h10.trans hsize))

/-! ## The size after a call -/

theorem Lossless.of_prefix {refs' : List Reference} (h : Lossless fuel pageSize windowSize refs)
    (hpre : refs' <+: refs) : Lossless fuel pageSize windowSize refs' := by
  refine ⟨fun r hr => h.valid r (hpre.mem hr), ?_, fun pre r hpre' => h.lossless pre r
    (hpre'.trans hpre)⟩
  obtain ⟨post, rfl⟩ := hpre
  have hputs := h.puts
  simp only [pagePuts, List.map_append, List.sum_append] at hputs ⊢
  omega

/-- The window set after a run that loses nothing, and its size. -/
theorem Lossless.run (h : Lossless fuel pageSize windowSize refs) (hfuel : 16 ≤ fuel)
    (hp : 1 ≤ pageSize.toNat) :
    ∃ ws, runWindow fuel refs (initializeWindowSet pageSize windowSize) = some ws ∧
      (getWindowSetSize ws).toNat = (windowPages pageSize windowSize refs).ncard := by
  obtain ⟨ws, hrun, hok⟩ := windowOk_run hfuel hp refs h.valid h.puts h.lossless
  refine ⟨ws, hrun, ?_⟩
  rw [coe_windowPageSet hp windowSize h.valid, Set.ncard_coe_finset, hok.card,
    ← hok.table.count_eq_card]
  rfl

/-! ## The loop -/

/-- The state of the loop when the references `done` have been read. -/
structure Progress (fuel k : ℕ) (pageSize windowSize : Ull) (done : List Reference) (st : Reader) :
    Prop where
  count : st.memRefCount.toNat = done.length
  window : runWindow fuel (done.drop k) (initializeWindowSet pageSize windowSize) =
    some st.windowSet
  printed : st.printed.map (fun p => (p.1.toNat, p.2.toNat)) =
    workingSets pageSize windowSize k done

theorem workingSets_skipped (h : done.length ≤ k) :
    workingSets pageSize windowSize k done = [] := by
  rw [workingSets, Nat.sub_eq_zero_of_le h]
  rfl

/-- One more reference is one more size. -/
theorem workingSets_concat (h : k ≤ done.length) :
    workingSets pageSize windowSize k (done ++ [r]) = workingSets pageSize windowSize k done ++
      [(done.length + 1, (windowPages pageSize windowSize (done.drop k ++ [r])).ncard)] := by
  have hdrop : (done ++ [r]).drop k = done.drop k ++ [r] := List.drop_append_of_le_length h
  rw [workingSets, workingSets, hdrop, List.length_append, List.length_singleton,
    Nat.sub_add_comm h, List.range_succ, List.map_append, List.map_singleton]
  congr 1
  · refine List.map_congr_left fun i hi => ?_
    rw [List.mem_range] at hi
    rw [List.take_append_of_le_length (by rw [List.length_drop]; omega)]
  · rw [List.take_of_length_le (by rw [List.length_append, List.length_drop,
      List.length_singleton]), show k + (done.length - k) + 1 = done.length + 1 by omega]

/-- The counter after one more reference. -/
theorem Progress.count_succ (h : Progress fuel k pageSize windowSize done st)
    (hlen : done.length + 1 < 2 ^ 64) : (st.memRefCount + 1).toNat = done.length + 1 := by
  have := h.count
  bv_omega

/-- A skipped reference is counted. -/
theorem Progress.skip (h : Progress fuel k pageSize windowSize done st)
    (hlen : done.length + 1 < 2 ^ 64) (hk : done.length + 1 ≤ k) :
    Progress fuel k pageSize windowSize (done ++ [r])
      { st with memRefCount := st.memRefCount + 1 } := by
  have hdrop : (done ++ [r]).drop k = done.drop k := by
    rw [List.drop_of_length_le (by rw [List.length_append, List.length_singleton]; exact hk),
      List.drop_of_length_le (by omega)]
  refine ⟨?_, ?_, ?_⟩
  · rw [List.length_append, List.length_singleton]
    exact h.count_succ hlen
  · rw [hdrop]
    exact h.window
  · rw [workingSets_skipped (by rw [List.length_append, List.length_singleton]; exact hk),
      h.printed, workingSets_skipped (by omega)]

/-- A reference that is not skipped is inserted, and its size printed. -/
theorem Progress.insert (h : Progress fuel k pageSize windowSize done st) (hfuel : 16 ≤ fuel)
    (hp : 1 ≤ pageSize.toNat) (hlen : done.length + 1 < 2 ^ 64) (hk : k ≤ done.length)
    (hl : Lossless fuel pageSize windowSize ((done ++ [r]).drop k)) :
    ∃ ws, windowSetInsert fuel st.windowSet r.address r.size = some ws ∧
      Progress fuel k pageSize windowSize (done ++ [r]) ⟨st.memRefCount + 1, r.size, ws,
        st.printed ++ [(st.memRefCount + 1, getWindowSetSize ws)]⟩ := by
  obtain ⟨ws, hrun, hsize⟩ := hl.run hfuel hp
  rw [List.drop_append_of_le_length hk] at hrun hsize
  have hinsert := hrun
  rw [runWindow_append h.window] at hinsert
  refine ⟨ws, hinsert, ?_, ?_, ?_⟩
  · rw [List.length_append, List.length_singleton]
    exact h.count_succ hlen
  · rw [List.drop_append_of_le_length hk]
    exact hrun
  · rw [workingSets_concat hk, List.map_append, h.printed, List.map_singleton, hsize,
      h.count_succ hlen]

/-- **The loop reads a trace to its end** and prints what it should. -/
theorem readLoop_trace (hfuel : 16 ≤ fuel) (hp : 1 ≤ pageSize.toNat)
    (hskip : ∀ m : Ull, 1 ≤ m.toNat → (m < skipsize ↔ m.toNat ≤ k)) (htrace : Trace lines refs) :
    ∀ (done : List Reference) (st : Reader), Progress fuel k pageSize windowSize done st →
    done.length + refs.length < 2 ^ 64 →
    Lossless fuel pageSize windowSize ((done ++ refs).drop k) →
    (readLoop fuel skipsize lines st).windowSet.isSome ∧
      (readLoop fuel skipsize lines st).printed.map (fun p => (p.1.toNat, p.2.toNat)) =
        workingSets pageSize windowSize k (done ++ refs) := by
  induction htrace with
  | eof =>
    intro done st h _ _
    rw [List.append_nil]
    exact ⟨rfl, h.printed⟩
  | blank hblank =>
    intro done st h _ _
    rw [readLoop_blank hblank, List.append_nil]
    exact ⟨rfl, h.printed⟩
  | other hline hnone _ ih =>
    intro done st h hlen hl
    rw [readLoop_pass hline (isReference_eq_false.mpr hnone)]
    exact ih done st h hlen hl
  | @access line lines refs address size r hdoc hshort haddress hsize _ ih =>
    intro done st h hlen hl
    rw [List.length_cons] at hlen
    rw [List.append_cons] at hl ⊢
    have hmore : (done ++ [r]).length + refs.length < 2 ^ 64 := by
      rw [List.length_append, List.length_singleton]
      omega
    have hcount := h.count_succ (by omega)
    have htest := hskip (st.memRefCount + 1) (by omega)
    rw [hcount] at htest
    by_cases hk : done.length + 1 ≤ k
    · rw [readLoop_cons hdoc.isEmptyLine (readLine_skip hdoc.isReference (htest.mpr hk))]
      exact ih _ _ (h.skip (by omega) hk) hmore hl
    · have hpre : (done ++ [r]).drop k <+: (done ++ [r] ++ refs).drop k :=
        (List.prefix_append _ _).drop k
      obtain ⟨ws, hinsert, hnext⟩ := h.insert hfuel hp (by omega) (by omega) (hl.of_prefix hpre)
      have hread := @readLine_eq_lineAction fuel _ _ line (mt htest.mp hk)
      rw [hdoc.insert hshort haddress hsize] at hread
      simp only [hinsert, Option.map_some] at hread
      rw [readLoop_cons hdoc.isEmptyLine hread]
      exact ih _ _ hnext hmore hl

/-! ## The whole program -/

/-- The number of references that `-s` skips. -/
def skipCount : Option Ull → ℕ
  | none => 0
  | some s => s.toNat

/-- The test of `skipsize` that `main` makes. -/
theorem skipCount_iff (skip : Option Ull) : skipCount skip + 1 < 2 ^ 64 → ∀ m : Ull, 1 ≤ m.toNat →
    (m < (match skip with | some s => s + 1 | none => 0) ↔ m.toNat ≤ skipCount skip) := by
  intro hskip m hm
  cases skip with
  | none =>
    refine iff_of_false (by bv_omega) ?_
    rw [skipCount]
    omega
  | some s =>
    rw [skipCount] at hskip ⊢
    bv_omega

/-- The program prints the sizes of the working sets when no `delete` loses a page. -/
theorem main_lossless (hfuel : 16 ≤ fuel) (hp : 1 ≤ pageSize.toNat) (htrace : Trace lines refs)
    {skip : Option Ull} (hskip : skipCount skip + 1 < 2 ^ 64) (hlen : refs.length < 2 ^ 64)
    (hl : Lossless fuel pageSize windowSize (refs.drop (skipCount skip))) :
    (main fuel skip pageSize windowSize lines).windowSet.isSome ∧
      (main fuel skip pageSize windowSize lines).printed.map (fun p => (p.1.toNat, p.2.toNat)) =
        workingSets pageSize windowSize (skipCount skip) refs := by
  have hstart : Progress fuel (skipCount skip) pageSize windowSize []
      ⟨0, 0, initializeWindowSet pageSize windowSize, []⟩ := by
    refine ⟨rfl, by rw [List.drop_nil]; rfl, ?_⟩
    rw [workingSets_skipped (Nat.zero_le _)]
    rfl
  have hloop := readLoop_trace hfuel hp (skipCount_iff skip hskip) htrace [] _ hstart
    (by rw [List.length_nil]; omega) hl
  rw [List.nil_append] at hloop
  exact hloop

/-- **The program prints the sizes of the working sets**: for every trace of documented memory
accesses whose counted part fits into the window or is sparse, with `-s` and without, the output is
the number of every counted access with the number of distinct pages of the last `window_size` of
them. -/
theorem main_workingSets (fuel : ℕ) (hfuel : 16 ≤ fuel) (skip : Option Ull)
    (pageSize windowSize : Ull) (hp : 1 ≤ pageSize.toNat) (lines : List Line)
    (refs : List Reference) (htrace : Trace lines refs) (hskip : skipCount skip + 1 < 2 ^ 64)
    (hlen : refs.length < 2 ^ 64) (hvalid : ∀ r ∈ refs.drop (skipCount skip), r.Valid)
    (hputs : pagePuts pageSize (refs.drop (skipCount skip)) < 2 ^ 60)
    (hsafe : (refs.drop (skipCount skip)).length ≤ windowSize.toNat ∨
      Sparse pageSize (refs.drop (skipCount skip))) :
    (main fuel skip pageSize windowSize lines).windowSet.isSome ∧
      (main fuel skip pageSize windowSize lines).printed.map (fun p => (p.1.toNat, p.2.toNat)) =
        workingSets pageSize windowSize (skipCount skip) refs := by
  refine main_lossless hfuel hp htrace hskip hlen ⟨hvalid, hputs, ?_⟩
  rcases hsafe with hshort | hsparse
  · exact runLossless_of_short hfuel hp hvalid hputs hshort
  · exact runLossless_of_sparse hfuel hp hvalid hputs hsparse

/-- A comment, an access that is skipped, three that are counted, and one after the blank line. -/
def commentedTrace : List Line :=
  ["# start\n".toList, "I 0,4\n".toList, " S 10,20\n".toList, "L 4,1\n".toList,
    " M 10,1\n".toList, "\n".toList, "I 30,1\n".toList]

theorem trace_commentedTrace :
    Trace commentedTrace [⟨0, 4⟩, ⟨16, 20⟩, ⟨4, 1⟩, ⟨16, 1⟩] := by
  have hdoc : ∀ (before address size : List Char) (code : Char), [code] ∈ validCodes →
      before.all isspace → address ≠ [] → address.all (isDigit 16) → size ≠ [] →
      size.all (isDigit 10) →
      Documented (before ++ [code] ++ ([' '] ++ (address ++ ',' :: size) ++ ['\n']))
        address size := by
    intro before address size code hcode hbefore hne hhex hne' hdec
    refine .line (List.all_eq_true.mp hbefore) hcode (List.cons_ne_nil _ _) ?_ hne
      (List.all_eq_true.mp hhex) hne' (List.all_eq_true.mp hdec) ?_
    · simp [isspace]
    · simp [EndsWord, isspace]
  refine .other rfl rfl (.access (hdoc [] ['0'] ['4'] 'I' (by decide) rfl (by decide) rfl
    (by decide) rfl) (by decide) rfl rfl ?_)
  refine .access (hdoc [' '] ['1', '0'] ['2', '0'] 'S' (by decide) rfl (by decide) rfl (by decide)
    rfl) (by decide) rfl rfl ?_
  refine .access (hdoc [] ['4'] ['1'] 'L' (by decide) rfl (by decide) rfl (by decide) rfl)
    (by decide) rfl rfl ?_
  exact .access (hdoc [' '] ['1', '0'] ['1'] 'M' (by decide) rfl (by decide) rfl (by decide) rfl)
    (by decide) rfl rfl (.blank rfl)

theorem main_workingSets_commented :
    (main 16 (some 1) 16 2 commentedTrace).windowSet.isSome ∧
      (main 16 (some 1) 16 2 commentedTrace).printed.map (fun p => (p.1.toNat, p.2.toNat)) =
        workingSets 16 2 1 [⟨0, 4⟩, ⟨16, 20⟩, ⟨4, 1⟩, ⟨16, 1⟩] := by
  have hvalid : ∀ r ∈ [Reference.mk 16 20, ⟨4, 1⟩, ⟨16, 1⟩], r.Valid := by
    unfold Reference.Valid
    decide
  exact main_workingSets 16 le_rfl (some 1) 16 2 (by decide) commentedTrace _ trace_commentedTrace
    (by decide) (by decide) hvalid (by decide)
    (Or.inr (sparse_of_card_le (by decide) hvalid (by decide)))

end C380.Valws
