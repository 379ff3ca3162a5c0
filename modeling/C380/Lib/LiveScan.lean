import Mathlib.Data.List.Basic
import Mathlib.Data.List.Sort

/-!
# Scanning slots while they change

A scan goes through the slots `0, 1, …` of something that others change meanwhile. Each slot is
tested twice (is it inside, is it marked) and then read, at three moments. `seen` are the states
that there have been since the scan began.

* `Scanned`: what is known at slot `i`. `Scanned.skip` and `Scanned.take` are the two ways past a
  slot.
* `Whole`: the scan has come to a slot that was not inside.
* `Whole.mem`: **a slot that was inside and marked all the time has been read**, whatever became of
  the others.
* `Whole.eq_of_still`: if nothing changed, the scan has read the marked slots, in order.
-/

namespace LiveScan

/-- What can be asked of a slot. -/
structure View (δ γ : Type) where
  inside : δ → ℕ → Prop
  marked : δ → ℕ → Prop
  text : δ → ℕ → γ
  inside_of_le : ∀ d i j, i ≤ j → inside d j → inside d i

variable {δ γ : Type}

/-- The scan is at slot `i`, after `rows`. -/
structure Scanned (v : View δ γ) (seen : List δ) (i : ℕ) (rows : List (ℕ × γ)) : Prop where
  increasing : rows.Pairwise fun r r' => r.1 < r'.1
  below : ∀ r ∈ rows, r.1 < i
  inside : ∀ r ∈ rows, ∃ d ∈ seen, v.inside d r.1
  marked : ∀ r ∈ rows, ∃ d ∈ seen, v.marked d r.1
  text : ∀ r ∈ rows, ∃ d ∈ seen, v.text d r.1 = r.2
  skipped : ∀ j < i, (∃ d ∈ seen, ¬ v.marked d j) ∨ ∃ x, (j, x) ∈ rows

/-- The scan is over. -/
def Whole (v : View δ γ) (seen : List δ) (rows : List (ℕ × γ)) : Prop :=
  ∃ i, Scanned v seen i rows ∧ ∃ d ∈ seen, ¬ v.inside d i

section Scan

variable {v : View δ γ} {seen seen' : List δ} {i j : ℕ} {rows : List (ℕ × γ)} {x : γ}

theorem scanned_zero (seen : List δ) : Scanned v seen 0 [] :=
  ⟨.nil, fun _ h => (nomatch h), fun _ h => (nomatch h), fun _ h => (nomatch h),
    fun _ h => (nomatch h), fun _ h => absurd h (Nat.not_lt_zero _)⟩

/-- More is seen. -/
theorem Scanned.mono (h : Scanned v seen i rows) (hseen : seen ⊆ seen') :
    Scanned v seen' i rows where
  increasing := h.increasing
  below := h.below
  inside r hr := (h.inside r hr).imp fun _ hd => ⟨hseen hd.1, hd.2⟩
  marked r hr := (h.marked r hr).imp fun _ hd => ⟨hseen hd.1, hd.2⟩
  text r hr := (h.text r hr).imp fun _ hd => ⟨hseen hd.1, hd.2⟩
  skipped j hj := (h.skipped j hj).imp_left fun ⟨d, hd⟩ => ⟨d, hseen hd.1, hd.2⟩

/-- A slot that is not marked is left out. -/
theorem Scanned.skip (h : Scanned v seen i rows) (hmarked : ∃ d ∈ seen, ¬ v.marked d i) :
    Scanned v seen (i + 1) rows where
  increasing := h.increasing
  below r hr := Nat.lt_succ_of_lt (h.below r hr)
  inside := h.inside
  marked := h.marked
  text := h.text
  skipped j hj := by
    rcases Nat.lt_succ_iff_lt_or_eq.mp hj with hlt | rfl
    · exact h.skipped j hlt
    · exact Or.inl hmarked

/-- A slot is read. -/
theorem Scanned.take (h : Scanned v seen i rows) (hinside : ∃ d ∈ seen, v.inside d i)
    (hmarked : ∃ d ∈ seen, v.marked d i) (htext : ∃ d ∈ seen, v.text d i = x) :
    Scanned v seen (i + 1) (rows ++ [(i, x)]) where
  increasing := by
    refine List.pairwise_append.mpr ⟨h.increasing, List.pairwise_singleton _ _,
      fun r hr r' hr' => ?_⟩
    rw [List.mem_singleton.mp hr']
    exact h.below r hr
  below := List.forall_mem_append.mpr
    ⟨fun r hr => Nat.lt_succ_of_lt (h.below r hr),
      List.forall_mem_singleton.mpr (Nat.lt_succ_self i)⟩
  inside := List.forall_mem_append.mpr ⟨h.inside, List.forall_mem_singleton.mpr hinside⟩
  marked := List.forall_mem_append.mpr ⟨h.marked, List.forall_mem_singleton.mpr hmarked⟩
  text := List.forall_mem_append.mpr ⟨h.text, List.forall_mem_singleton.mpr htext⟩
  skipped j hj := by
    rcases Nat.lt_succ_iff_lt_or_eq.mp hj with hlt | rfl
    · exact (h.skipped j hlt).imp_right fun ⟨y, hy⟩ => ⟨y, List.mem_append_left _ hy⟩
    · exact Or.inr ⟨x, List.mem_append_right _ (List.mem_singleton_self _)⟩

/-- **A slot that was inside and marked all the time has been read.** -/
theorem Whole.mem (h : Whole v seen rows) (hj : ∀ d ∈ seen, v.inside d j ∧ v.marked d j) :
    ∃ y, (j, y) ∈ rows := by
  obtain ⟨i, hscan, d, hd, hout⟩ := h
  have hlt : j < i := not_le.mp fun hle => hout (v.inside_of_le d i j hle (hj d hd).1)
  rcases hscan.skipped j hlt with ⟨d', hd', hnot⟩ | hmem
  · exact absurd (hj d' hd').2 hnot
  · exact hmem

/-- Rows in the order of their slots are told by their members. -/
theorem rows_eq {rows' : List (ℕ × γ)} (h : rows.Pairwise fun r r' => r.1 < r'.1)
    (h' : rows'.Pairwise fun r r' => r.1 < r'.1) (hmem : ∀ r, r ∈ rows ↔ r ∈ rows') :
    rows = rows' := by
  have hnodup : ∀ {l : List (ℕ × γ)}, l.Pairwise (fun r r' => r.1 < r'.1) → l.Nodup :=
    fun hl => hl.imp fun hlt heq => hlt.ne (congrArg Prod.fst heq)
  exact ((List.perm_ext_iff_of_nodup (hnodup h) (hnodup h')).mpr hmem).eq_of_pairwise
    (fun r r' _ _ hlt hgt => absurd (hlt.trans hgt) (lt_irrefl _)) h h'

/-- **If nothing changed, the scan has read the marked slots, in order.** -/
theorem Whole.eq_of_still (h : Whole v seen rows) {d₀ : δ}
    (hinside : ∀ d ∈ seen, ∀ i, v.inside d i ↔ v.inside d₀ i)
    (hmarked : ∀ d ∈ seen, ∀ i, v.marked d i ↔ v.marked d₀ i)
    (htext : ∀ d ∈ seen, ∀ i, v.text d i = v.text d₀ i) {slots : List ℕ}
    (hslots : slots.Pairwise (· < ·)) (hmem : ∀ i, i ∈ slots ↔ v.inside d₀ i ∧ v.marked d₀ i) :
    rows = slots.map fun i => (i, v.text d₀ i) := by
  obtain ⟨i, hscan, d, hd, hout⟩ := h
  have hf : ∀ r ∈ rows, v.text d₀ r.1 = r.2 := fun r hr => by
    obtain ⟨d', hd', ht⟩ := hscan.text r hr
    rw [← htext d' hd', ht]
  refine rows_eq hscan.increasing (List.pairwise_map.mpr hslots) fun r => ?_
  rw [List.mem_map]
  constructor
  · intro hr
    obtain ⟨d₁, hd₁, hin⟩ := hscan.inside r hr
    obtain ⟨d₂, hd₂, hm⟩ := hscan.marked r hr
    exact ⟨r.1, (hmem r.1).mpr ⟨(hinside d₁ hd₁ _).mp hin, (hmarked d₂ hd₂ _).mp hm⟩,
      by rw [hf r hr]⟩
  · rintro ⟨j, hj, rfl⟩
    obtain ⟨hin, hm⟩ := (hmem j).mp hj
    obtain ⟨y, hy⟩ := Whole.mem ⟨i, hscan, d, hd, hout⟩ fun d' hd' =>
      ⟨(hinside d' hd' j).mpr hin, (hmarked d' hd' j).mpr hm⟩
    rwa [hf _ hy]

end Scan

end LiveScan
