import C380.Lib.Transition
import C380.Valws.Delete

/-!
# Runs of `put` and `delete`

`runTable` is a table after any sequence of `put` and `delete` calls on arbitrary keys.

* `tableOk_run`: every run keeps `TableOk`. The step lemmas are `put_spec` and `delete_spec`; the
  number of calls bounds the counters, the values and the wrapped debts.
* `runTable_radix`: **the structural invariant** of every reachable table, with the depth bound
  that ends the recursive splitting.
* `runTable_put_exact`: **`put` is exact** in every reachable table.
* `runTable_mergeSafe_iff`: a run keeps the tables below expanded buckets at `MERGE_SIZE` keys or
  more, and every counter exact, **iff** none of its `put` calls splits a list that was split
  before and has fewer than `MERGE_SIZE` keys. `sll_pop` lowers the counter of such a list twice
  for each node, so it wraps and the next `put` splits the list whatever its length:
  `runTable_child_below_mergeSize` is such a run.
-/

namespace C380.Valws

open CountedBag

/-- A call of `put` or `delete`. -/
inductive TableOp where
  | put (key : Ull)
  | delete (key : Ull)
  deriving DecidableEq, Repr

/-- The table after one call. -/
def TableOp.apply (fuel : Nat) (t : Hashtable) : TableOp → Option Hashtable
  | .put key => Valws.put fuel t key
  | .delete key => some (Valws.delete t key)

/-- The table after a sequence of calls. -/
def runTable (fuel : Nat) (ops : List TableOp) (t : Hashtable) : Option Hashtable :=
  ops.foldlM (TableOp.apply fuel) t

theorem runTable_append {fuel : ℕ} {ops : List TableOp} {op : TableOp} {t s : Hashtable}
    (h : runTable fuel ops t = some s) :
    runTable fuel (ops ++ [op]) t = op.apply fuel s :=
  Transition.foldlM_concat h

/-! ## The invariant along a run -/

/-- **One call keeps the invariant**, provided a `put` splits no list into a table smaller than
`lo`, and a `delete` loses nothing where the counters are exact. -/
theorem tableOk_apply {x : Prop} {lo D fuel : ℕ} (hlo : lo ≤ 6) (hD : D + 1 < 2 ^ 61)
    (hfuel : 16 ≤ fuel) {t : Hashtable} (ht : TableOk x lo D 0 t) (op : TableOp)
    (hput : ∀ k, op = .put k → SplitsAtLeast lo t k)
    (hdel : ∀ k, op = .delete k → x → t.lostBy k = 0) :
    ∃ t', op.apply fuel t = some t' ∧ TableOk x lo (D + 1) 0 t' := by
  cases op with
  | put k =>
    obtain ⟨t', hs, hins⟩ := put_spec hlo hD fuel 0 t k (by omega) ht (hput k rfl) fun _ _ => by
      rw [Nat.pow_zero, Nat.mod_one, Nat.mod_one]
    exact ⟨t', hs, hins.ok⟩
  | delete k =>
    exact ⟨_, rfl, (delete_spec hlo (by omega) ht (hdel k rfl)).ok.mono (Nat.le_succ D) le_rfl id⟩

/-- **Every run keeps the invariant.** -/
theorem tableOk_run {x : Prop} {lo fuel : ℕ} (hlo : lo ≤ 6) (hfuel : 16 ≤ fuel)
    (ops : List TableOp) (hlen : ops.length < 2 ^ 60)
    (hput : ∀ pre k, pre ++ [.put k] <+: ops →
      ∀ t, runTable fuel pre newHashtable = some t → SplitsAtLeast lo t k)
    (hdel : ∀ pre k, pre ++ [.delete k] <+: ops → x →
      ∀ t, TableOk x lo pre.length 0 t → t.lostBy k = 0) :
    ∃ t, runTable fuel ops newHashtable = some t ∧ TableOk x lo ops.length 0 t := by
  induction ops using List.reverseRecOn with
  | nil => exact ⟨newHashtable, rfl, tableOk_new x lo 0 rfl (Nat.zero_le _)⟩
  | append_singleton ops op ih =>
    rw [List.length_append, List.length_singleton] at hlen
    have hpre : ops <+: ops ++ [op] := List.prefix_append _ _
    obtain ⟨t, hrun, ht⟩ := ih (by omega) (fun pre k h => hput pre k (h.trans hpre))
      fun pre k h => hdel pre k (h.trans hpre)
    obtain ⟨t', happ, ht'⟩ := tableOk_apply hlo (by omega) hfuel ht op
      (fun k he => hput ops k (by rw [he]) t hrun)
      fun k he hx => hdel ops k (by rw [he]) hx t ht
    refine ⟨t', (runTable_append hrun).trans happ, ?_⟩
    rw [List.length_append, List.length_singleton]
    exact ht'

/-- Without a claim about the counters nothing is asked of the calls. -/
theorem tableOk_reachable {fuel : ℕ} (hfuel : 16 ≤ fuel) {ops : List TableOp}
    (hlen : ops.length < 2 ^ 60) :
    ∃ t, runTable fuel ops newHashtable = some t ∧ TableOk False 1 ops.length 0 t :=
  tableOk_run (by omega) hfuel ops hlen (fun _ k _ t _ => splitsAtLeast_one t k)
    fun _ _ _ hx => hx.elim

/-! ## The structure of a reachable table -/

/-- The structure of one table at depth `L`: its fields, the routing of its keys, the empty lists
of its expanded buckets, and a shift that C defines. -/
structure RadixNode (L : ℕ) (t : Hashtable) : Prop where
  depth : t.level.toNat ≤ 15
  level : t.level.toNat = L
  shifts : t.shifts.toNat = 4 * L
  shift_defined : t.shifts.toNat < 64
  routed : ∀ i, ∀ k ∈ (t.bucket i).keys, (k >>> (4 * L)) &&& 15 = BitVec.ofNat 64 i
  empty : ∀ i c l, t.bucket i = .expanded c l → l.nodes = []

theorem radixNode_of_nodeOk {x : Prop} {lo D L : ℕ} {t : Hashtable} (h : NodeOk x lo D L t) :
    RadixNode L t := by
  refine ⟨h.level ▸ h.depth, h.level, h.shifts, h.shifts_lt, fun i k hk => ?_,
    fun i c l hb => h.expanded_empty hb⟩
  have hi : ((k >>> t.shifts) &&& hashMask).toNat = i := congrArg Fin.val (h.routed i k hk)
  rw [BitVec.ushiftRight_eq', h.shifts] at hi
  apply BitVec.eq_of_toNat_eq
  rw [hi, BitVec.toNat_ofNat]
  have := i.isLt
  omega

/-- **The structural invariant of the radix table.** Every run of fewer than `2 ^ 60` calls ends
within 16 levels of recursion, in a table whose nodes all have their depth as level, four times
it as shift, at most 15, and their keys routed; no key is stored twice, and every value is
positive. -/
theorem runTable_radix (fuel : ℕ) (hfuel : 16 ≤ fuel) (ops : List TableOp)
    (hlen : ops.length < 2 ^ 60) :
    ∃ t, runTable fuel ops newHashtable = some t ∧ Everywhere RadixNode 0 t ∧ t.keys.Nodup ∧
      ∀ e ∈ t.entries, 1 ≤ e.value.toNat := by
  obtain ⟨t, hrun, ht⟩ := tableOk_reachable hfuel hlen
  exact ⟨t, hrun, Everywhere.mono (fun _ _ h => radixNode_of_nodeOk h) ht, ht.keys_nodup,
    fun e he => (ht.values e he).1⟩

/-- The first `n` of sixteen keys that share their two low nibbles, so that the split of their
bucket splits a bucket of the new table too. -/
def nestedPuts (n : ℕ) : List TableOp :=
  (List.range n).map fun i => .put (BitVec.ofNat 64 (256 * i))

/-- The first `n` of the keys deleted. -/
def nestedDeletes (n : ℕ) : List TableOp :=
  (List.range n).map fun i => .delete (BitVec.ofNat 64 (256 * i))

/-- The counter of the child table of bucket `i` of the root, if the bucket is expanded. -/
def Hashtable.childCount (t : Hashtable) (i : Fin tableSize) : Option Ull :=
  match t.bucket i with
  | .list _ => none
  | .expanded c _ => some c.count

/-- What a run evaluates to is so of the table it ends in. -/
theorem eq_of_map_runTable {fuel : ℕ} {ops : List TableOp} {t : Hashtable} {β : Type}
    {f : Hashtable → β} {b : β} (hrun : runTable fuel ops newHashtable = some t)
    (h : (runTable fuel ops newHashtable).map f = some b) : f t = b := by
  rw [hrun] at h
  exact Option.some.inj h

/-- Tables at depths 1 and 2, with six of the sixteen keys left. -/
theorem runTable_radix_nested :
    ∃ t, runTable 16 (nestedPuts 16 ++ nestedDeletes 10) newHashtable = some t ∧
      t.childCount 0 = some 6 ∧
      Everywhere RadixNode 0 t ∧ t.keys.Nodup ∧ ∀ e ∈ t.entries, 1 ≤ e.value.toNat := by
  obtain ⟨t, ht, hradix⟩ := runTable_radix 16 le_rfl (nestedPuts 16 ++ nestedDeletes 10) (by decide)
  have hchild : t.childCount 0 = some 6 :=
    eq_of_map_runTable (f := fun t => t.childCount 0) ht (by decide +kernel)
  exact ⟨t, ht, hchild, hradix⟩

/-! ## `put` -/

theorem multiplicity_eq_zero {t : Hashtable} {k : Ull} (h : k ∉ t.keys) :
    t.multiplicity k = 0 := by
  rw [multiplicity_eq_total]
  refine total_eq_zero ?_
  rwa [← Hashtable.coe_keys, Multiset.mem_coe]

/-- Raising the count of `k` by one adds one to its multiplicity and nothing to any other. -/
theorem Inserted.multiplicity {x : Prop} {lo D L n : ℕ} {k : Ull} {t t' : Hashtable}
    (h : Inserted x lo D L k n t t') (k' : Ull) :
    t'.multiplicity k' = t.multiplicity k' + if k' = k then n else 0 := by
  rw [multiplicity_eq_total, multiplicity_eq_total, ← count_bag, ← count_bag, h.raise.bag_eq,
    Multiset.count_add, Multiset.count_replicate, Nat.add_comm]
  by_cases hk : k' = k
  · rw [if_pos hk, if_pos hk.symm]
  · rw [if_neg hk, if_neg (Ne.symm hk)]

theorem Inserted.length {x : Prop} {lo D L n : ℕ} {k : Ull} {t t' : Hashtable}
    (h : Inserted x lo D L k n t t') : t'.entries.length =
      if k ∈ t.keys then t.entries.length else t.entries.length + 1 := h.raise.card

/-- **`put` is exact in every reachable table**: one more of its key, nothing else changed, and
the root counter up by one iff the key is new. -/
theorem runTable_put_exact (fuel : ℕ) (hfuel : 16 ≤ fuel) (ops : List TableOp)
    (hlen : ops.length < 2 ^ 60) (k : Ull) :
    ∃ t t', runTable fuel ops newHashtable = some t ∧ put fuel t k = some t' ∧
      t'.multiplicity k = t.multiplicity k + 1 ∧ (k ∉ t.keys → t.multiplicity k = 0) ∧
      (∀ k' ≠ k, t'.multiplicity k' = t.multiplicity k') ∧
      t'.count.toNat = if k ∈ t.keys then t.count.toNat else t.count.toNat + 1 := by
  obtain ⟨t, hrun, ht⟩ := tableOk_reachable hfuel hlen
  obtain ⟨t', hput, hins⟩ := put_spec (by omega) (by omega) fuel 0 t k (by omega) ht
    (splitsAtLeast_one t k) fun _ _ => by rw [Nat.pow_zero, Nat.mod_one, Nat.mod_one]
  refine ⟨t, t', hrun, hput, ?_, multiplicity_eq_zero, fun k' hk' => ?_, hins.count⟩
  · rw [hins.multiplicity, if_pos rfl]
  · rw [hins.multiplicity, if_neg hk', Nat.add_zero]

/-- The `put` of the sixteenth key splits the bucket, and a bucket of the table it splits into. -/
theorem runTable_put_exact_nested :
    ∃ t t', runTable 16 (nestedPuts 15) newHashtable = some t ∧ put 16 t 0xF00 = some t' ∧
      t.childCount 0 = none ∧ t'.childCount 0 = some 16 ∧
      t'.multiplicity 0xF00 = t.multiplicity 0xF00 + 1 ∧
      (0xF00 ∉ t.keys → t.multiplicity 0xF00 = 0) ∧
      (∀ k' ≠ 0xF00, t'.multiplicity k' = t.multiplicity k') ∧
      t'.count.toNat = if 0xF00 ∈ t.keys then t.count.toNat else t.count.toNat + 1 := by
  obtain ⟨t, t', ht, hput, hexact⟩ := runTable_put_exact 16 le_rfl (nestedPuts 15) (by decide) 0xF00
  have hbefore : t.childCount 0 = none :=
    eq_of_map_runTable (f := fun t => t.childCount 0) ht (by decide +kernel)
  have hafter : (put 16 t 0xF00).map (fun t' => t'.childCount 0) = some (some 16) :=
    eq_of_map_runTable (f := fun t => (put 16 t 0xF00).map fun t' => t'.childCount 0) ht
      (by decide +kernel)
  rw [hput] at hafter
  exact ⟨t, t', ht, hput, hbefore, Option.some.inj hafter, hexact⟩

/-! ## Merge safety -/

/-- Every child table of an expanded bucket has at least `MERGE_SIZE` keys by its counter. -/
def Hashtable.ChildrenLarge (t : Hashtable) : Prop :=
  ∀ i c l, t.bucket i = .expanded c l → mergeSize ≤ c.count

/-- What `delete`'s merge relies on, at every depth: children of at least `MERGE_SIZE` keys, and
counters that are the number of distinct keys stored. -/
def MergeSafe (t : Hashtable) : Prop :=
  Everywhere (fun _ t => t.ChildrenLarge ∧ t.count.toNat = t.keys.toFinset.card) 0 t

theorem childrenLarge_of_nodeOk {x : Prop} {D L : ℕ} {t : Hashtable} (h : NodeOk x 6 D L t) :
    t.ChildrenLarge := by
  intro i c l hb
  have hok := h.bucket i
  rw [hb] at hok
  cases hok with
  | expanded _ _ _ large _ => exact large

/-- The keys of a table at every depth are distinct. -/
theorem TableOk.everywhere_nodup {x : Prop} {lo D L : ℕ} {t : Hashtable}
    (h : TableOk x lo D L t) : Everywhere (fun L t => NodeOk x lo D L t ∧ t.keys.Nodup) L t := by
  induction h with
  | node here below ih => exact .node ⟨here, TableOk.keys_nodup (Everywhere.node here below)⟩ ih

theorem mergeSafe_of_tableOk {D : ℕ} {t : Hashtable} (h : TableOk True 6 D 0 t) : MergeSafe t :=
  Everywhere.mono (fun _ _ ⟨hn, hnd⟩ => ⟨childrenLarge_of_nodeOk hn,
    by rw [List.toFinset_card_of_nodup hnd, hn.exact trivial]⟩) h.everywhere_nodup

/-- A split that ends builds a table in the bucket. -/
theorem insertWith_split_some {sllOp : LinkedList → LinkedList}
    {recur : Hashtable → Option Hashtable} {spill : Hashtable → KeyValue → Option Hashtable}
    {c l s key : Ull} {b : Fin tableSize → Bucket} {ll : LinkedList} {t' : Hashtable}
    (hs : s.toNat < 64) (hb : b (bucketIndex key s) = .list ll)
    (hgt : (sllOp ll).count > splitSize)
    (h : insertWith sllOp recur spill key (.mk c l s b) = some t') :
    ∃ c' table popped,
      t' = .mk c' l s (Function.update b (bucketIndex key s) (.expanded table popped)) := by
  simp only [insertWith, if_neg (Nat.not_le.mpr hs), hb, if_pos hgt, Option.bind_eq_bind,
    Option.bind_eq_some_iff, Option.some.injEq] at h
  obtain ⟨⟨popped, table⟩, -, rfl⟩ := h
  exact ⟨_, table, popped, rfl⟩

/-- A split that leaves fewer than `MERGE_SIZE` keys in its bucket leaves a small child table. -/
theorem Inserted.not_childrenLarge {lo D L n : ℕ} {k c c' l s : Ull} {b : Fin tableSize → Bucket}
    {ll popped : LinkedList} {table : Hashtable} (hn : NodeOk True lo D L (.mk c l s b))
    (hb : b (bucketIndex k s) = .list ll) (hlt : ll.sizeWith k < 6)
    (hins : Inserted True lo (D + 1) L k n (.mk c l s b)
      (.mk c' l s (Function.update b (bucketIndex k s) (.expanded table popped)))) :
    ¬ (Hashtable.mk c' l s
      (Function.update b (bucketIndex k s) (.expanded table popped))).ChildrenLarge := by
  have hself := Function.update_self (bucketIndex k s) (Bucket.expanded table popped) b
  intro hlarge
  have h6 : 6 ≤ table.count.toNat := hlarge _ table popped hself
  have hexact := (hins.ok.child hself).here.exact trivial
  have hsplit : (Bucket.expanded table popped).entries = table.entries := by
    have := hins.ok.here.entries_expanded hself
    rwa [Hashtable.bucket_mk, hself] at this
  -- the new table holds what the list held, and the key
  have hold := Hashtable.length_keys (.mk c l s b) (bucketIndex k s)
  have hnew := Hashtable.length_keys (.mk c' l s (Function.update b (bucketIndex k s)
    (.expanded table popped))) (bucketIndex k s)
  rw [Hashtable.rest_update c, Hashtable.bucket_mk, hself, hsplit] at hnew
  rw [Hashtable.bucket_mk, hb] at hold
  have hlen := hins.length
  have hmem : k ∈ (Hashtable.mk c l s b).keys ↔ k ∈ keysOf ll.nodes := by
    constructor
    · intro h
      have := hn.mem_bucket h
      rwa [Hashtable.bucket_mk, Hashtable.shifts_mk, hb] at this
    · intro h
      exact Hashtable.mem_keys.mpr ⟨bucketIndex k s, by rw [Hashtable.bucket_mk, hb]; exact h⟩
  unfold LinkedList.sizeWith at hlt
  simp only [Hashtable.keys, length_keysOf, Bucket.entries] at hold hnew hexact
  by_cases hk : k ∈ keysOf ll.nodes
  · rw [if_pos hk] at hlt
    rw [if_pos (hmem.mpr hk)] at hlen
    omega
  · rw [if_neg hk] at hlt
    rw [if_neg (mt hmem.mp hk)] at hlen
    omega

/-- **A `put` that splits a short list** leaves a child table below `MERGE_SIZE`. -/
theorem put_small {D : ℕ} (hD : D + 1 < 2 ^ 61) :
    ∀ (fuel L : ℕ) (t t' : Hashtable) (k : Ull), 16 ≤ fuel + L → TableOk True 1 D L t →
      ¬ SplitsAtLeast 6 t k → (∀ k' ∈ t.keys, k'.toNat % 16 ^ L = k.toNat % 16 ^ L) →
      put fuel t k = some t' → ¬ Everywhere (fun _ t => t.ChildrenLarge) L t'
  | 0, L, t, t', k, _, _, _, _, hput => by
    rw [put] at hput
    cases hput
  | fuel + 1, L, .mk c l s b, t', k, hfuel, ht, hsmall, hagree, hput => by
    have hn := ht.here
    cases hb : b (bucketIndex k s) with
    | expanded t ll =>
      have hagree' := hn.agree_child hb hagree
      have hsmall' : ¬ SplitsAtLeast 6 t k := by
        simpa only [SplitsAtLeast, Hashtable.listOf, hb, Bucket.listOf] using hsmall
      obtain ⟨t₂, hput₂, -⟩ := put_spec (by omega) hD fuel (L + 1) t k (by omega) (ht.child hb)
        (splitsAtLeast_one _ k) hagree'
      have hstep : some _ = some t' :=
        (insertWith_expanded (s := s) hn.shifts_lt hb hput₂).symm.trans hput
      rw [Option.some.injEq] at hstep
      intro hev
      refine put_small hD fuel (L + 1) t t₂ k (by omega) (ht.child hb) hsmall' hagree' hput₂
        (hev.child (i := bucketIndex k s) (l := ll) ?_)
      rw [← hstep]
      exact Function.update_self _ _ _
    | list ll =>
      obtain ⟨hne, hlt⟩ : ll.count.toNat ≠ ll.nodes.length ∧ ll.sizeWith k < 6 := by
        simpa only [SplitsAtLeast, Hashtable.listOf, hb, Bucket.listOf, not_or, not_le]
          using hsmall
      have hspent : Spent D ll ∧ ll.nodes.length ≤ 5 := by
        have hok := hn.bucket (bucketIndex k s)
        rw [Hashtable.bucket_mk, hb] at hok
        cases hok with
        | fresh _ count _ => exact absurd count hne
        | spent _ spent short _ => exact ⟨spent, short⟩
      have hstep : SllStep k 1 ll (sllAdd ll k) :=
        sllAdd_step fun e he => by
          have hmem : e ∈ (Hashtable.mk c l s b).entries :=
            Hashtable.mem_entries.mpr ⟨bucketIndex k s, by rw [Hashtable.bucket_mk, hb]; exact he⟩
          have := ht.values e hmem
          omega
      have hsize : (sllAdd ll k).nodes.length = ll.sizeWith k := hstep.raise.card
      have hgt : (sllAdd ll k).count > splitSize :=
        (Spent.step hspent.1 hstep hspent.2).splits (by omega) (by omega)
      obtain ⟨t₁, hput₁, hins⟩ := put_spec (by omega) hD (fuel + 1) L _ k hfuel ht
        (splitsAtLeast_one _ k) hagree
      obtain rfl : t' = t₁ := Option.some.inj (hput.symm.trans hput₁)
      obtain ⟨c', table, popped, rfl⟩ := insertWith_split_some (s := s) hn.shifts_lt hb hgt hput
      exact fun hev => hins.not_childrenLarge hn hb hlt hev.here

/-- Every `put` of a run splits no short list. -/
def PutsSplitLarge (fuel : ℕ) (ops : List TableOp) : Prop :=
  ∀ pre k, pre ++ [.put k] <+: ops →
    ∀ t, runTable fuel pre newHashtable = some t → SplitsAtLeast 6 t k

/-- Runs without a short split keep every child at `MERGE_SIZE` or more and lose nothing. -/
theorem tableOk_large {fuel : ℕ} (hfuel : 16 ≤ fuel) {ops : List TableOp}
    (hlen : ops.length < 2 ^ 60) (h : PutsSplitLarge fuel ops) :
    ∃ t, runTable fuel ops newHashtable = some t ∧ TableOk True 6 ops.length 0 t :=
  tableOk_run le_rfl hfuel ops hlen h fun pre k hpre _ t ht => by
    have := hpre.length_le
    rw [List.length_append, List.length_singleton] at this
    exact (lostBy_eq_zero_iff (by omega) le_rfl (by omega) ht).mpr (not_loses_of_large ht)

/-- The states of a run are all defined, whatever it does. -/
theorem putsSplitLarge_of_mergeSafe {fuel : ℕ} (hfuel : 16 ≤ fuel) (ops : List TableOp)
    (hlen : ops.length < 2 ^ 60)
    (h : ∀ pre, pre <+: ops → ∀ t, runTable fuel pre newHashtable = some t → MergeSafe t) :
    PutsSplitLarge fuel ops := by
  induction ops using List.reverseRecOn with
  | nil =>
    intro pre k hpre
    have := hpre.length_le
    simp at this
  | append_singleton ops op ih =>
    rw [List.length_append, List.length_singleton] at hlen
    have hops := ih (by omega) fun pre hpre => h pre (hpre.trans (List.prefix_append _ _))
    intro pre k hpre t hrun
    rcases List.prefix_concat_iff.mp hpre with heq | hpre
    · obtain ⟨rfl, hop⟩ := List.append_inj' heq rfl
      obtain ⟨t₀, hrun₀, ht⟩ := tableOk_large hfuel (by omega) hops
      obtain rfl : t₀ = t := Option.some.inj (hrun₀.symm.trans hrun)
      have ht1 : TableOk True 1 pre.length 0 t₀ := ht.mono le_rfl (by omega) id
      have hagree : ∀ k' ∈ t₀.keys, k'.toNat % 16 ^ 0 = k.toNat % 16 ^ 0 := fun _ _ => by
        rw [Nat.pow_zero, Nat.mod_one, Nat.mod_one]
      obtain ⟨t', hput, -⟩ := put_spec (by omega) (by omega) fuel 0 t₀ k (by omega) ht1
        (splitsAtLeast_one t₀ k) hagree
      by_contra hsmall
      refine put_small (by omega) fuel 0 t₀ t' k (by omega) ht1 hsmall hagree hput ?_
      refine Everywhere.mono (fun _ _ hs => hs.1) (h _ List.prefix_rfl t' ?_)
      rw [runTable_append hrun, ← List.singleton_inj.mp hop]
      exact hput
    · exact hops pre k hpre t hrun

/-- **Merge safety, exactly.** Every state of a run is merge safe iff no `put` of the run splits a
list that was split before and holds fewer than `MERGE_SIZE` keys. -/
theorem runTable_mergeSafe_iff (fuel : ℕ) (hfuel : 16 ≤ fuel) (ops : List TableOp)
    (hlen : ops.length < 2 ^ 60) :
    (∀ pre, pre <+: ops → ∃ t, runTable fuel pre newHashtable = some t ∧ MergeSafe t) ↔
      PutsSplitLarge fuel ops := by
  constructor
  · intro h
    refine putsSplitLarge_of_mergeSafe hfuel ops hlen fun pre hpre t hrun => ?_
    obtain ⟨t', hrun', hsafe⟩ := h pre hpre
    rwa [Option.some.inj (hrun.symm.trans hrun')]
  · intro h pre hpre
    have := hpre.length_le
    have hputs : PutsSplitLarge fuel pre := fun pre' k h' => h pre' k (h'.trans hpre)
    obtain ⟨t, hrun, ht⟩ := tableOk_large hfuel (by omega) hputs
    exact ⟨t, hrun, mergeSafe_of_tableOk ht⟩

/-- A call that splits no short list of the table. -/
def TableOp.splitsLarge (t : Hashtable) : TableOp → Bool
  | .put k => decide (SplitsAtLeast 6 t k)
  | .delete _ => true

/-- The condition call by call, in a form that evaluates. -/
theorem putsSplitLarge_of_take {fuel : ℕ} {ops : List TableOp}
    (h : ∀ i < ops.length, (runTable fuel (ops.take i) newHashtable).all
      (fun t => (ops.getD i (.delete 0)).splitsLarge t) = true) : PutsSplitLarge fuel ops := by
  rintro pre k ⟨post, rfl⟩ t hrun
  have hi := h pre.length (by simp only [List.length_append, List.length_singleton]; omega)
  rw [List.append_assoc, List.take_left, hrun, Option.all_some] at hi
  simpa [TableOp.splitsLarge] using hi

/-- The sixteen keys, eleven of them deleted: the last `delete` merges the table at depth 2 and
then the one at depth 1. Every state is merge safe. -/
theorem runTable_mergeSafe_iff_nested : PutsSplitLarge 16 (nestedPuts 16 ++ nestedDeletes 11) ∧
    ∀ pre, pre <+: nestedPuts 16 ++ nestedDeletes 11 →
      ∃ t, runTable 16 pre newHashtable = some t ∧ MergeSafe t := by
  have hputs : PutsSplitLarge 16 (nestedPuts 16 ++ nestedDeletes 11) :=
    putsSplitLarge_of_take (by decide +kernel)
  exact ⟨hputs, (runTable_mergeSafe_iff 16 le_rfl _ (by decide)).mpr hputs⟩

/-- Sixteen keys of one bucket, eleven of them deleted again, and one of the five left put once
more. -/
def shortSplitRun : List TableOp :=
  (List.range 16).map (fun i => .put (BitVec.ofNat 64 (16 * i))) ++
    (List.range 11).map (fun i => .delete (BitVec.ofNat 64 (16 * i))) ++ [.put 0xF0]

/-- **A child table below `MERGE_SIZE`**: `shortSplitRun` leaves one of 5 keys. -/
theorem runTable_child_below_mergeSize :
    ∃ t, runTable 16 shortSplitRun newHashtable = some t ∧ ¬ MergeSafe t := by
  have hrun : (runTable 16 shortSplitRun newHashtable).map (fun t => t.childCount 0) =
      some (some 5) := by decide +kernel
  obtain ⟨t, ht, hc⟩ := Option.map_eq_some_iff.mp hrun
  refine ⟨t, ht, fun hsafe => ?_⟩
  have hlarge := hsafe.here.1 0
  unfold Hashtable.childCount at hc
  split at hc
  · cases hc
  · rename_i c l hb
    have h6 := hlarge c l hb
    rw [Option.some.inj hc] at h6
    exact absurd h6 (by decide)

end C380.Valws
