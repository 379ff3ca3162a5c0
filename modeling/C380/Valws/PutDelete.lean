import C380.Valws.Runs

/-!
# A `delete` right after a `put` of the same key

`put` of a key and `delete` of it may change the shape of the table in different ways: the `put`
splits a list at 16 nodes, or splits one that was split before whatever its length, and the
`delete` merges every child on the way that is left with fewer than `MERGE_SIZE` keys.

* `put_lossless`: none of these merges destroys an entry. A child that is below `MERGE_SIZE`
  after the two calls was below it before them, so it was `Flat`, and `put` kept it so; a table
  that the `put` built by a split is `Flat` when it holds fewer than 16 keys.
* `runTable_put_delete`: so the two calls restore the multiplicities and the counter of the root,
  in every state of every run.
-/

namespace C380.Valws

open CountedBag

variable {L D : ℕ} {k : Ull}

/-- A merge on the way destroys nothing when it only happens to a flat child. -/
theorem lostBy_expanded_eq_zero {t : Hashtable} {ll : LinkedList} (hbelow : t.lostBy k = 0)
    (hflat : (delete t k).count.toNat < 6 → t.Flat) : (Bucket.expanded t ll).lostBy k = 0 := by
  unfold Bucket.lostBy
  rw [hbelow, zero_add]
  split
  · rename_i hm
    exact subEntries_eq_zero ((hflat (by simpa [BitVec.lt_def] using hm)).delete k)
  · rfl

/-- A well-formed table stores a key iff its multiplicity is not zero. -/
theorem TableOk.multiplicity_pos {x : Prop} {lo : ℕ} {t : Hashtable} (h : TableOk x lo D L t) :
    0 < t.multiplicity k ↔ k ∈ t.keys := by
  rw [multiplicity_eq_total, ← count_bag, Multiset.count_pos,
    mem_bag fun e he => (h.values e he).1, ← Hashtable.coe_keys, Multiset.mem_coe]

/-- **The counter is back where it was** after the two calls. -/
theorem count_put_delete {x : Prop} {lo : ℕ} {t t' : Hashtable} (ht : TableOk x lo D L t)
    (hins : Inserted x lo (D + 1) L k 1 t t')
    (hdel : Deleted x lo (D + 1) L k 0 t' (delete t' k)) :
    (delete t' k).count.toNat = t.count.toNat := by
  have hdown := hdel.count_eq hins.ok.keys_nodup
  have hup := hins.count
  rw [hins.multiplicity, if_pos rfl] at hdown
  by_cases hk : k ∈ t.keys
  · have := ht.multiplicity_pos.mpr hk
    rw [if_pos hk] at hup
    rw [if_neg (by omega)] at hdown
    omega
  · have := multiplicity_eq_zero hk
    rw [if_neg hk] at hup
    rw [if_pos (by omega)] at hdown
    omega

/-- **A table built by a split loses nothing** to a `delete` of one of its keys. -/
theorem lostBy_split_eq_zero {t : Hashtable} {ll : LinkedList} (hD : D < 2 ^ 61)
    (ht : TableOk True 6 D L t) (hflat : t.count.toNat ≤ 15 → t.Flat) :
    (Bucket.expanded t ll).lostBy k = 0 := by
  have hlost : t.lostBy k = 0 :=
    (lostBy_eq_zero_iff (by omega) le_rfl hD ht).mpr (not_loses_of_large ht)
  have hdel := delete_spec (x := True) le_rfl hD ht fun _ => hlost
  have hcount := hdel.count_eq ht.keys_nodup
  refine lostBy_expanded_eq_zero hlost fun hlt => hflat ?_
  split at hcount <;> omega

/-- A list that `put` splits has at most 16 nodes, and is not in the deepest tables. -/
theorem split_bounds {x : Prop} {lo n : ℕ} {ll ll' : LinkedList} {c l s : Ull}
    {b : Fin tableSize → Bucket} (ht : TableOk x lo D L (.mk c l s b))
    (hagree : ∀ k' ∈ (Hashtable.mk c l s b).keys, k'.toNat % 16 ^ L = k.toNat % 16 ^ L)
    (hb : b (bucketIndex k s) = .list ll) (hstep : SllStep k n ll ll')
    (hgt : ll'.count > splitSize) :
    (keysOf ll'.nodes).Nodup ∧ ll'.nodes.length ≤ 16 ∧ L < 15 := by
  have hok := ht.here.bucket (bucketIndex k s)
  rw [Hashtable.bucket_mk, hb] at hok
  have hlen := length_sllStep hstep
  cases hok with
  | fresh list count short =>
    have hnd := hstep.raise.nodup list.nodup
    have hcount := count_sllStep hstep count short
    have h15 : 15 < ll'.count.toNat := by simpa [BitVec.lt_def] using hgt
    refine ⟨hnd, ?_, depth_lt_of_sllStep ht hagree hb hstep hnd (by omega)⟩
    split at hlen <;> omega
  | spent list _ short depth =>
    refine ⟨hstep.raise.nodup list.nodup, ?_, depth⟩
    split at hlen <;> omega

/-- **A `delete` right after a `put` of the same key destroys nothing.** -/
theorem put_lossless (hD : D + 1 < 2 ^ 61) :
    ∀ (fuel L : ℕ) (t t' : Hashtable), 16 ≤ fuel + L → TableOk False 1 D L t →
      (∀ k' ∈ t.keys, k'.toNat % 16 ^ L = k.toNat % 16 ^ L) → put fuel t k = some t' →
      t'.lostBy k = 0
  | 0, L, t, t', _, _, _, hput => by
    rw [put] at hput
    cases hput
  | fuel + 1, L, .mk c l s b, t', hfuel, ht, hagree, hput => by
    have hn := ht.here
    -- the bucket of the key in the new table
    have hlost : ∀ c' B, some (Hashtable.mk c' l s (Function.update b (bucketIndex k s) B)) =
        some t' → B.lostBy k = 0 → t'.lostBy k = 0 := by
      intro c' B he hB
      rw [← Option.some.inj he, Hashtable.lostBy, Function.update_self]
      exact hB
    cases hb : b (bucketIndex k s) with
    | expanded t ll =>
      have hchild := ht.child hb
      have hagree' := hn.agree_child hb hagree
      obtain ⟨t₁, hput₁, hins⟩ := put_spec (by omega) hD fuel (L + 1) t k (by omega) hchild
        (splitsAtLeast_one t k) hagree'
      refine hlost _ _ ((insertWith_expanded (s := s) hn.shifts_lt hb hput₁).symm.trans hput) ?_
      have hbelow := put_lossless hD fuel (L + 1) t t₁ (by omega) hchild hagree' hput₁
      have hdel := delete_spec (by omega) hD hins.ok False.elim (k := k)
      rw [hbelow] at hdel
      have hcount := count_put_delete hchild hins hdel
      have hok := hn.bucket (bucketIndex k s)
      rw [Hashtable.bucket_mk, hb] at hok
      cases hok with
      | expanded _ _ _ _ small =>
        exact lostBy_expanded_eq_zero hbelow fun hlt =>
          hins.flat (small (by omega)) (by omega)
    | list ll =>
      have hvals : ∀ e ∈ ll.nodes, 1 ≤ e.num ∧ e.num ≤ D := by
        intro e he
        refine ht.values e (Hashtable.mem_entries.mpr ⟨bucketIndex k s, ?_⟩)
        rw [Hashtable.bucket_mk, hb]
        exact he
      have hstep : SllStep k 1 ll (sllAdd ll k) := sllAdd_step fun e he => by
        have := hvals e he
        omega
      by_cases hgt : (sllAdd ll k).count > splitSize
      · obtain ⟨hnd, hlen, hL⟩ := split_bounds ht hagree hb hstep hgt
        have hlevel : (l + 1).toNat = L + 1 := by
          have := hn.level
          simp only [Hashtable.level_mk] at this
          bv_omega
        have hvals' : ∀ e ∈ (sllAdd ll k).nodes, 1 ≤ e.num ∧ e.num ≤ D + 1 := by
          intro e he
          rcases hstep.raise.mem (Multiset.mem_coe.mpr he) with he | he | ⟨e', he', heq⟩
          · have := hvals e he
            omega
          · omega
          · have := hvals e' he'
            omega
        have hspills : Spills True 6 (D + 1) (L + 1) (hashtablePutKeyValue fuel) :=
          spills_of_puts (hashtablePutKeyValue_spec le_rfl (by omega) hD fuel (L + 1) (by omega)) hL
        obtain ⟨t, hs, hok, -, hcnt, hflat⟩ := hspills (l + 1) (sllAdd ll k).nodes hlevel hlen hnd
          hvals' (agree_of_sllStep ht hagree hb hstep)
        exact hlost _ _ ((insertWith_split (s := s) hn.shifts_lt hb hgt hs).symm.trans hput)
          (lostBy_split_eq_zero hD hok fun h15 => hflat (by omega))
      · refine hlost _ _ ((insertWith_keep (s := s) hn.shifts_lt hb hgt).symm.trans hput) ?_
        rw [Bucket.lostBy]

/-- **`delete` undoes `put` in every reachable state**: the multiplicity of every key and the
counter of the root are restored, whatever the two calls split and merge. -/
theorem runTable_put_delete (fuel : ℕ) (hfuel : 16 ≤ fuel) (ops : List TableOp)
    (hlen : ops.length < 2 ^ 60) (k : Ull) :
    ∃ t t', runTable fuel ops newHashtable = some t ∧ put fuel t k = some t' ∧
      (∀ k', (delete t' k).multiplicity k' = t.multiplicity k') ∧
      (delete t' k).count = t.count := by
  obtain ⟨t, hrun, ht⟩ := tableOk_reachable hfuel hlen
  have hagree : ∀ k' ∈ t.keys, k'.toNat % 16 ^ 0 = k.toNat % 16 ^ 0 := fun _ _ => by
    rw [Nat.pow_zero, Nat.mod_one, Nat.mod_one]
  obtain ⟨t', hput, hins⟩ := put_spec (by omega) (by omega) fuel 0 t k (by omega) ht
    (splitsAtLeast_one t k) hagree
  have hlost := put_lossless (by omega) fuel 0 t t' (by omega) ht hagree hput
  have hdel := delete_spec (by omega) (by omega) hins.ok False.elim (k := k)
  rw [hlost] at hdel
  refine ⟨t, t', hrun, hput, fun k' => ?_,
    BitVec.eq_of_toNat_eq (count_put_delete ht hins hdel)⟩
  have hbag := hdel.lower.bag_eq
  rw [add_zero, hins.raise.bag_eq, Multiset.replicate_one, Multiset.singleton_add,
    Multiset.erase_cons_head] at hbag
  rw [multiplicity_eq_total, multiplicity_eq_total, ← count_bag, ← count_bag, hbag]

/-- The state of `shortSplitRun`, where the `put` raises a count in a child of five keys and the
`delete` merges the child. -/
theorem runTable_put_delete_short :
    ∃ t t', runTable 16 shortSplitRun newHashtable = some t ∧ put 16 t 0xE0 = some t' ∧
      (∀ k', (delete t' 0xE0).multiplicity k' = t.multiplicity k') ∧
      (delete t' 0xE0).count = t.count :=
  runTable_put_delete 16 le_rfl shortSplitRun (by decide) 0xE0

end C380.Valws
