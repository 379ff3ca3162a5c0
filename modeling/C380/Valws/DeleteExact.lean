import C380.Valws.Runs

/-!
# `delete` is exact on tables with large children

`WellFormed L t` is what `delete` needs and keeps, without the history of the list counters: the
tables below `t` shift by four times their depth, route their keys by nibble, keep empty lists
beside their sub-tables, count their keys, and none but the root has fewer than `MERGE_SIZE` of
them. The `count` fields of the lists are arbitrary.

* A child that `delete` leaves with fewer than `MERGE_SIZE` keys has no sub-table, for a sub-table
  alone would hold that many. So the merge, which moves the child's own lists only, moves
  everything: `merge_moves_all`.
* `delete_wellFormed` carries this up the path of the key, `delete_exact` reads off the effect on
  the multiplicities and on the counter of the root.
* `WellFormed.of_tableOk`: the tables of every run that splits no short list are of this kind.
-/

namespace C380.Valws

open CountedBag

/-- What one table at depth `L` keeps. -/
structure LargeNode (L : ℕ) (t : Hashtable) : Prop where
  depth : L ≤ 15
  shifts : t.shifts.toNat = 4 * L
  routed : ∀ i, ∀ k ∈ (t.bucket i).keys, k.toNat / 16 ^ L % 16 = i.val
  empty : ∀ i c l, t.bucket i = .expanded c l → l.nodes = []
  large : ∀ i c l, t.bucket i = .expanded c l → mergeSize.toNat ≤ c.keys.length
  count : t.count.toNat = t.keys.length

/-- A table at depth `L` that `delete` works on. -/
structure WellFormed (L : ℕ) (t : Hashtable) : Prop where
  tables : Everywhere LargeNode L t
  once : t.keys.Nodup
  values : ∀ e ∈ t.entries, 1 ≤ e.value.toNat

/-- What `WellFormed` asks of one bucket of a table at depth `L`. -/
structure BucketWellFormed (L : ℕ) (B : Bucket) : Prop where
  below : ∀ c l, B = .expanded c l → WellFormed (L + 1) c
  empty : ∀ c l, B = .expanded c l → l.nodes = []
  large : ∀ c l, B = .expanded c l → mergeSize.toNat ≤ c.keys.length
  once : B.keys.Nodup
  values : ∀ e ∈ B.entries, 1 ≤ e.value.toNat

/-! ## A table and its buckets -/

section

variable {L : ℕ} {t : Hashtable}

theorem LargeNode.isRouted (h : LargeNode L t) : t.Routed := by
  intro i k hk
  apply Fin.ext
  rw [bucketIndex_val h.shifts]
  exact h.routed i k hk

/-- The keys below a bucket are distinct. -/
theorem keys_bucket_nodup (h : t.keys.Nodup) (i : Fin tableSize) : (t.bucket i).keys.Nodup := by
  have hmap := congrArg (Multiset.map KeyValue.key) (t.entries_split i)
  rw [Multiset.map_add] at hmap
  have hnd : ((t.entries : Multiset KeyValue).map KeyValue.key).Nodup := h
  rw [hmap] at hnd
  exact (Multiset.nodup_add.mp hnd).1

theorem Bucket.entries_expanded {c : Hashtable} {l : LinkedList} (h : l.nodes = []) :
    (Bucket.expanded c l).entries = c.entries := by
  unfold Bucket.entries
  rw [h, List.nil_append]

theorem Bucket.keys_expanded {c : Hashtable} {l : LinkedList} (h : l.nodes = []) :
    (Bucket.expanded c l).keys = c.keys := by
  unfold Bucket.keys
  rw [Bucket.entries_expanded h, Hashtable.keys]

theorem WellFormed.bucket (h : WellFormed L t) (i : Fin tableSize) :
    BucketWellFormed L (t.bucket i) := by
  have hn := h.tables.here
  have honce := keys_bucket_nodup h.once i
  have hvals : ∀ e ∈ (t.bucket i).entries, 1 ≤ e.value.toNat := fun e he =>
    h.values e (Hashtable.mem_entries.mpr ⟨i, he⟩)
  refine ⟨fun c l hb => ?_, hn.empty i, hn.large i, honce, hvals⟩
  have hempty := hn.empty i c l hb
  rw [hb] at honce hvals
  rw [Bucket.keys_expanded hempty] at honce
  rw [Bucket.entries_expanded hempty] at hvals
  exact ⟨h.tables.child hb, honce, hvals⟩

/-- A sub-table holds no more keys than its table. -/
theorem length_keys_child (h : WellFormed L t) {i : Fin tableSize} {c : Hashtable}
    {l : LinkedList} (hb : t.bucket i = .expanded c l) : c.keys.length ≤ t.keys.length := by
  have hlen := Hashtable.length_keys t i
  rw [hb, Bucket.entries_expanded (h.tables.here.empty i c l hb)] at hlen
  rw [Hashtable.keys, length_keysOf]
  omega

/-- **One bucket of a table replaced** by one with an occurrence of its key less. -/
theorem WellFormed.update {c c' l s : Ull} {b : Fin tableSize → Bucket} {k : Ull} {B : Bucket}
    (h : WellFormed L (.mk c l s b)) (hB : BucketWellFormed L B)
    (hlow : Lowers k ((b (bucketIndex k s)).entries : Multiset KeyValue) B.entries)
    (hc : c.toNat + B.entries.length = c'.toNat + (b (bucketIndex k s)).entries.length) :
    WellFormed L (.mk c' l s (Function.update b (bucketIndex k s) B)) ∧
      Lowers k ((Hashtable.mk c l s b).entries : Multiset KeyValue)
        (Hashtable.mk c' l s (Function.update b (bucketIndex k s) B)).entries := by
  have hn := h.tables.here
  have hself : Function.update b (bucketIndex k s) B (bucketIndex k s) = B :=
    Function.update_self ..
  have hother : ∀ j, j ≠ bucketIndex k s → Function.update b (bucketIndex k s) B j = b j :=
    fun j hj => Function.update_of_ne hj ..
  have hlower : Lowers k ((Hashtable.mk c l s b).entries : Multiset KeyValue)
      (Hashtable.mk c' l s (Function.update b (bucketIndex k s) B)).entries := by
    rw [Hashtable.entries_split _ (bucketIndex k s), Hashtable.entries_split
      (Hashtable.mk c' _ _ _) (bucketIndex k s), Hashtable.rest_update c, Hashtable.bucket_mk,
      Hashtable.bucket_mk, hself]
    exact hlow.add (hn.isRouted.not_mem_rest k)
  have hbucket : ∀ j c₁ l₁, Function.update b (bucketIndex k s) B j = .expanded c₁ l₁ →
      l₁.nodes = [] ∧ mergeSize.toNat ≤ c₁.keys.length ∧ Everywhere LargeNode (L + 1) c₁ := by
    intro j c₁ l₁ hb
    by_cases hj : j = bucketIndex k s
    · rw [hj, hself] at hb
      exact ⟨hB.empty c₁ l₁ hb, hB.large c₁ l₁ hb, (hB.below c₁ l₁ hb).tables⟩
    · rw [hother j hj] at hb
      exact ⟨hn.empty j c₁ l₁ hb, hn.large j c₁ l₁ hb, h.tables.child hb⟩
  have hold := Hashtable.length_keys (Hashtable.mk c l s b) (bucketIndex k s)
  have hnew := Hashtable.length_keys (Hashtable.mk c' l s (Function.update b (bucketIndex k s) B))
    (bucketIndex k s)
  rw [Hashtable.rest_update c, Hashtable.bucket_mk, hself] at hnew
  rw [Hashtable.bucket_mk] at hold
  have hcount := hn.count
  simp only [Hashtable.count_mk] at hcount
  refine ⟨⟨.node ⟨hn.depth, hn.shifts, fun j k' hk' => ?_, fun j c₁ l₁ hb => (hbucket j c₁ l₁ hb).1,
    fun j c₁ l₁ hb => (hbucket j c₁ l₁ hb).2.1, ?_⟩ fun j c₁ l₁ hb => (hbucket j c₁ l₁ hb).2.2,
    hlower.nodup h.once, fun e he => ?_⟩, hlower⟩
  · by_cases hj : j = bucketIndex k s
    · subst hj
      rw [Hashtable.bucket_mk, hself] at hk'
      exact hn.routed _ k' (hlow.mem_keys hk')
    · rw [Hashtable.bucket_mk, hother j hj] at hk'
      exact hn.routed j k' hk'
  · rw [Hashtable.count_mk]
    omega
  · rcases hlower.mem (Multiset.mem_coe.mpr he) with he | ⟨hpos, -⟩
    · exact h.values e he
    · exact hpos

end

/-! ## The step at one bucket -/

/-- What `delete` does to the bucket of its key: one occurrence less, a bucket of the same kind,
and a flag that tells whether a key is gone. -/
structure BucketLowered (L : ℕ) (k : Ull) (B : Bucket) (r : Bucket × Bool) : Prop where
  ok : BucketWellFormed L r.1
  lower : Lowers k (B.entries : Multiset KeyValue) r.1.entries
  changed : (if r.2 then 1 else 0) + r.1.entries.length = B.entries.length

section

variable {L : ℕ} {k : Ull}

/-- **`sll_remove` on a bucket's list**, whatever its counter. -/
theorem sllRemove_lowered {l : LinkedList} (h : BucketWellFormed L (.list l)) :
    BucketLowered L k (.list l)
      (.list (sllRemove l k), decide (l.count ≠ (sllRemove l k).count)) := by
  obtain ⟨hlow, hcnt⟩ := sllRemove_lowers (k := k) h.values
  refine ⟨⟨fun _ _ he => (by cases he), fun _ _ he => (by cases he), fun _ _ he => (by cases he),
    hlow.nodup h.once, fun e he => ?_⟩, hlow, ?_⟩
  · rcases hlow.mem (Multiset.mem_coe.mpr he) with he | ⟨hpos, -⟩
    · exact h.values e he
    · exact hpos
  · simp only [Bucket.entries]
    rcases hcnt with ⟨h1, h2⟩ | ⟨h1, h2⟩
    · rw [h2]
      simp [h1]
    · have hne : l.count ≠ l.count - 1 := by bv_omega
      rw [h2, decide_eq_true hne, h1]
      simp only [if_true]
      omega

/-- **A child with fewer than `MERGE_SIZE` keys is all in its own lists**, so the merge moves
everything. -/
theorem merge_moves_all {t : Hashtable} (h : WellFormed L t) (hlt : t.keys.length < 6)
    {ll : LinkedList} (hll : ll.nodes = []) : (mergeLists t ll).nodes.Perm t.entries := by
  have hnone : ∀ i, (t.bucket i).isExpanded = false := by
    intro i
    cases hb : t.bucket i with
    | list l => rfl
    | expanded c l =>
      have hlarge : 6 ≤ c.keys.length := h.tables.here.large i c l hb
      have hle := length_keys_child h hb
      omega
  have hsplit := entries_eq_own_add_sub fun i c l hb => h.tables.here.empty i c l hb
  rw [subEntries_eq_zero hnone, add_zero] at hsplit
  have hmoved := (mergeLists_spec t ll).1
  rw [hll, List.append_nil] at hmoved
  exact hmoved.trans (Multiset.coe_eq_coe.mp hsplit).symm

/-- **The expanded branch of `delete`**, given what the recursive call does. -/
theorem deleteBucket_lowered {t : Hashtable} {ll : LinkedList}
    (hB : BucketWellFormed L (.expanded t ll)) (ht' : WellFormed (L + 1) (delete t k))
    (hlow : Lowers k (t.entries : Multiset KeyValue) (delete t k).entries) :
    BucketLowered L k (.expanded t ll) (deleteBucket (.expanded t ll) k) := by
  have hll : ll.nodes = [] := hB.empty t ll rfl
  have hcount := (hB.below t ll rfl).tables.here.count
  have hcount' := ht'.tables.here.count
  rw [Hashtable.keys, length_keysOf] at hcount hcount'
  have hflag : (if decide (t.count ≠ (delete t k).count) = true then 1 else 0) +
      (delete t k).entries.length = t.entries.length := by
    have hcard := lower_card hlow
    rw [Multiset.coe_card, Multiset.coe_card] at hcard
    by_cases hc : t.count = (delete t k).count
    · have := congrArg BitVec.toNat hc
      rw [if_neg (by simpa using hc)]
      omega
    · have hc' : t.count.toNat ≠ (delete t k).count.toNat := fun he =>
        hc (BitVec.eq_of_toNat_eq he)
      rw [if_pos (by simpa using hc)]
      omega
  have hlt : (delete t k).count < mergeSize ↔ (delete t k).count.toNat < 6 := by
    rw [BitVec.lt_def]
    rfl
  rw [deleteBucket]
  by_cases hm : (delete t k).count < mergeSize
  · have hmoved := merge_moves_all ht' (by
      rw [Hashtable.keys, length_keysOf, ← hcount']
      exact hlt.mp hm) hll
    simp only [if_pos hm]
    refine ⟨⟨fun _ _ he => (by cases he), fun _ _ he => (by cases he),
      fun _ _ he => (by cases he), ?_, fun e he => ht'.values e (hmoved.mem_iff.mp he)⟩, ?_, ?_⟩
    · exact (hmoved.map KeyValue.key).nodup_iff.mpr ht'.once
    · rw [Bucket.entries_expanded hll]
      simp only [Bucket.entries]
      rw [Multiset.coe_eq_coe.mpr hmoved]
      exact hlow
    · rw [Bucket.entries_expanded hll]
      simp only [Bucket.entries]
      rw [hmoved.length_eq]
      exact hflag
  · simp only [if_neg hm]
    have hlarge : 6 ≤ (delete t k).keys.length := by
      rw [Hashtable.keys, length_keysOf, ← hcount']
      exact Nat.not_lt.mp (mt hlt.mpr hm)
    refine ⟨⟨fun c l he => ?_, fun c l he => ?_, fun c l he => ?_, ?_, ?_⟩, ?_, ?_⟩
    · cases he
      exact ht'
    · cases he
      exact hll
    · cases he
      exact hlarge
    · rw [Bucket.keys_expanded hll]
      exact ht'.once
    · rw [Bucket.entries_expanded hll]
      exact ht'.values
    · rw [Bucket.entries_expanded hll, Bucket.entries_expanded hll]
      exact hlow
    · rw [Bucket.entries_expanded hll, Bucket.entries_expanded hll]
      exact hflag

end

/-! ## The tables of a run -/

/-- **The tables of runs without a short split are well-formed** in this sense. -/
theorem WellFormed.of_tableOk {D L : ℕ} {t : Hashtable} (h : TableOk True 6 D L t) :
    WellFormed L t := by
  refine ⟨?_, h.keys_nodup, fun e he => (h.values e he).1⟩
  induction h with
  | @node L t here below ih =>
    refine .node ⟨here.depth, here.shifts, fun i k hk => ?_, fun i c l hb => here.expanded_empty hb,
      fun i c l hb => ?_, (here.exact trivial).symm⟩ ih
    · rw [← bucketIndex_val here.shifts, here.routed i k hk]
    · have hok := here.bucket i
      rw [hb] at hok
      cases hok with
      | expanded _ _ _ large _ => exact ((below i c l hb).here.exact trivial).symm ▸ large

/-! ## The whole call -/

/-- **`delete` keeps a table well-formed** and takes one occurrence of its key out. -/
theorem delete_wellFormed {L : ℕ} {t : Hashtable} (h : WellFormed L t) (k : Ull) :
    WellFormed L (delete t k) ∧ Lowers k (t.entries : Multiset KeyValue) (delete t k).entries := by
  obtain ⟨htables, honce, hvals⟩ := h
  induction htables with
  | @node L t here below ih =>
    obtain ⟨c, l, s, b⟩ := t
    have h : WellFormed L (.mk c l s b) := ⟨.node here below, honce, hvals⟩
    have hB : BucketWellFormed L (b (bucketIndex k s)) := h.bucket (bucketIndex k s)
    have hbucket : BucketLowered L k (b (bucketIndex k s))
        (deleteBucket (b (bucketIndex k s)) k) := by
      cases hb : b (bucketIndex k s) with
      | list ll =>
        rw [hb] at hB
        rw [deleteBucket]
        exact sllRemove_lowered hB
      | expanded t ll =>
        rw [hb] at hB
        have hchild := hB.below t ll rfl
        obtain ⟨hok, hlow⟩ := ih _ t ll hb hchild.once hchild.values
        exact deleteBucket_lowered hB hok hlow
    rw [delete_mk]
    refine h.update hbucket.ok hbucket.lower ?_
    have hch := hbucket.changed
    have hlen := Hashtable.length_keys (Hashtable.mk c l s b) (bucketIndex k s)
    have hcount := here.count
    simp only [Hashtable.bucket_mk, Hashtable.count_mk] at hlen hcount
    split at hch
    · rename_i hr
      rw [if_pos hr]
      bv_omega
    · rename_i hr
      rw [if_neg hr]
      omega

/-- **`delete` of an absent key does nothing.** -/
theorem delete_absent {L : ℕ} {t : Hashtable} (h : WellFormed L t) {k : Ull} (hk : k ∉ t.keys) :
    delete t k = t := by
  obtain ⟨htables, honce, hvals⟩ := h
  induction htables with
  | @node L t here below ih =>
    obtain ⟨c, l, s, b⟩ := t
    have hB : BucketWellFormed L (b (bucketIndex k s)) :=
      WellFormed.bucket ⟨.node here below, honce, hvals⟩ (bucketIndex k s)
    have hk' : k ∉ (b (bucketIndex k s)).keys := fun h =>
      hk (Hashtable.mem_keys.mpr ⟨bucketIndex k s, h⟩)
    have hsame : deleteBucket (b (bucketIndex k s)) k = (b (bucketIndex k s), false) := by
      cases hb : b (bucketIndex k s) with
      | list ll =>
        rw [hb] at hk'
        rw [deleteBucket, sllRemove_absent hk']
        simp
      | expanded t ll =>
        rw [hb] at hk' hB
        have hchild := hB.below t ll rfl
        rw [Bucket.keys_expanded (hB.empty t ll rfl)] at hk'
        have hge : ¬ t.count < mergeSize := by
          rw [BitVec.lt_def, hchild.tables.here.count]
          exact Nat.not_lt.mpr (hB.large t ll rfl)
        rw [deleteBucket]
        simp only [ih _ t ll hb hk' hchild.once hchild.values, if_neg hge, ne_eq,
          not_true_eq_false, decide_false]
    rw [delete_mk, hsame]
    simp

/-- **`delete` is exact on a well-formed table**: it lowers the multiplicity of its key by one,
removes the key with its last occurrence and does nothing without one, changes no other key,
lowers the counter of the root exactly when the key is removed, and leaves the table
well-formed, through whatever merges it does on its way. -/
theorem delete_exact (t : Hashtable) (h : WellFormed 0 t) (k : Ull) :
    (delete t k).multiplicity k = t.multiplicity k - 1 ∧
      (k ∈ (delete t k).keys ↔ 2 ≤ t.multiplicity k) ∧
      (k ∉ t.keys → delete t k = t) ∧
      (∀ k' ≠ k, (delete t k).multiplicity k' = t.multiplicity k') ∧
      t.count.toNat = (delete t k).count.toNat + (if t.multiplicity k = 1 then 1 else 0) ∧
      WellFormed 0 (delete t k) := by
  obtain ⟨hok, hlow⟩ := delete_wellFormed h k
  have hbag := hlow.bag_eq
  have hmult : ∀ k', (delete t k).multiplicity k' =
      ((bag KeyValue.key KeyValue.num (t.entries : Multiset KeyValue)).erase k).count k' := by
    intro k'
    rw [multiplicity_eq_total, ← count_bag, hbag]
  have hself : (delete t k).multiplicity k = t.multiplicity k - 1 := by
    rw [hmult, Multiset.count_erase_self, count_bag, ← multiplicity_eq_total]
  refine ⟨hself, ?_, delete_absent h, fun k' hk' => ?_, ?_, hok⟩
  · have hmem : k ∈ (delete t k).keys ↔ 0 < (delete t k).multiplicity k := by
      rw [multiplicity_eq_total, ← count_bag, Multiset.count_pos, mem_bag hok.values,
        ← Hashtable.coe_keys, Multiset.mem_coe]
    rw [hmem, hself]
    omega
  · rw [hmult, Multiset.count_erase_of_ne hk', count_bag, ← multiplicity_eq_total]
  · have hcard := hlow.card (Multiset.coe_nodup.mpr h.once)
    rw [Multiset.coe_card, Multiset.coe_card, ← multiplicity_eq_total] at hcard
    rw [h.tables.here.count, hok.tables.here.count, Hashtable.keys, Hashtable.keys, length_keysOf,
      length_keysOf]
    exact hcard

/-- Six keys in a table at depth 2 that is alone in a table at depth 1: the `delete` of one of them
merges the first table and then the second. -/
theorem delete_exact_nested :
    ∃ t, runTable 16 (nestedPuts 16 ++ nestedDeletes 10) newHashtable = some t ∧
      t.childCount 0 = some 6 ∧ (delete t 0xA00).childCount 0 = none ∧
      (delete t 0xA00).multiplicity 0xA00 = t.multiplicity 0xA00 - 1 ∧
      (0xA00 ∈ (delete t 0xA00).keys ↔ 2 ≤ t.multiplicity 0xA00) ∧
      (0xA00 ∉ t.keys → delete t 0xA00 = t) ∧
      (∀ k' ≠ 0xA00, (delete t 0xA00).multiplicity k' = t.multiplicity k') ∧
      t.count.toNat =
        (delete t 0xA00).count.toNat + (if t.multiplicity 0xA00 = 1 then 1 else 0) ∧
      WellFormed 0 (delete t 0xA00) := by
  have hlarge : PutsSplitLarge 16 (nestedPuts 16 ++ nestedDeletes 10) :=
    putsSplitLarge_of_take (by decide +kernel)
  obtain ⟨t, ht, hok⟩ := tableOk_large le_rfl (by decide) hlarge
  have hbefore : t.childCount 0 = some 6 :=
    eq_of_map_runTable (f := fun t => t.childCount 0) ht (by decide +kernel)
  have hafter : (delete t 0xA00).childCount 0 = none :=
    eq_of_map_runTable (f := fun t => (delete t 0xA00).childCount 0) ht (by decide +kernel)
  exact ⟨t, ht, hbefore, hafter, delete_exact t (WellFormed.of_tableOk hok) 0xA00⟩

end C380.Valws
