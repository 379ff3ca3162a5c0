import C380.Valws.Runs

/-!
# The shape of a table built by `put` alone

A key reaches a deep bucket directly through `put`, or is moved there by
`hashtable_put_key_value` when a list above it is split. `Canonical L S t` says that `t` is the
table at depth `L` of exactly the keys `S`, a definition that mentions no order of calls:

* a bucket with at most `SPLIT_SIZE` of the keys is a list of them, any other a table of its own,
  and the counter is the number of the keys modulo `2 ^ 64`;
* `canonical_insertWith`: the body shared by `put` and `hashtable_put_key_value` takes the table of
  `S` to that of `insert key S`, whichever way it goes;
* `runTable_put_canonical`: every sequence of `put` calls ends in the table of its set of keys;
* `runTable_put_tree`: **the tree does not depend on the history**, only on the set of keys.

No bound on the number of calls is needed: values and the root counter may wrap.
-/

namespace C380.Valws

/-! ## The table of a set of keys -/

/-- The keys of `S` that a table with this shift keeps in bucket `i`. -/
def slot (S : Finset Ull) (shifts : Ull) (i : Fin tableSize) : Finset Ull :=
  S.filter fun k => bucketIndex k shifts = i

/-- The list holds exactly the keys `S`, each once, and counts them. -/
structure ListOf (S : Finset Ull) (l : LinkedList) : Prop where
  nodup : (keysOf l.nodes).Nodup
  keys : (keysOf l.nodes).toFinset = S
  count : l.count = BitVec.ofNat 64 S.card

/-- `t` is the table at depth `L` of exactly the keys `S`. -/
inductive Canonical : ℕ → Finset Ull → Hashtable → Prop
  | node {L : ℕ} {S : Finset Ull} {t : Hashtable} (depth : L ≤ 15) (level : t.level.toNat = L)
      (shifts : t.shifts.toNat = 4 * L) (count : t.count = BitVec.ofNat 64 S.card)
      (list : ∀ i l, t.bucket i = .list l →
        (slot S t.shifts i).card ≤ 15 ∧ ListOf (slot S t.shifts i) l)
      (expanded : ∀ i c l, t.bucket i = .expanded c l →
        15 < (slot S t.shifts i).card ∧ l.nodes = [])
      (children : ∀ i c l, t.bucket i = .expanded c l →
        Canonical (L + 1) (slot S t.shifts i) c) : Canonical L S t

theorem mem_slot {S : Finset Ull} {s k : Ull} {i : Fin tableSize} :
    k ∈ slot S s i ↔ k ∈ S ∧ bucketIndex k s = i := Finset.mem_filter

theorem slot_insert_self (S : Finset Ull) (s k : Ull) :
    slot (insert k S) s (bucketIndex k s) = insert k (slot S s (bucketIndex k s)) := by
  unfold slot
  rw [Finset.filter_insert, if_pos rfl]

theorem slot_insert_of_ne {S : Finset Ull} {s k : Ull} {i : Fin tableSize}
    (h : i ≠ bucketIndex k s) : slot (insert k S) s i = slot S s i := by
  unfold slot
  rw [Finset.filter_insert, if_neg (Ne.symm h)]

theorem mem_slot_self {S : Finset Ull} {s k : Ull} : k ∈ slot S s (bucketIndex k s) ↔ k ∈ S := by
  rw [mem_slot, and_iff_left rfl]

theorem Canonical.count_eq {L : ℕ} {S : Finset Ull} {t : Hashtable} (h : Canonical L S t) :
    t.count = BitVec.ofNat 64 S.card := by
  cases h with
  | node _ _ _ count _ _ _ => exact count

theorem ListOf.length {S : Finset Ull} {l : LinkedList} (h : ListOf S l) :
    l.nodes.length = S.card := by
  rw [← h.keys, List.toFinset_card_of_nodup h.nodup, length_keysOf]

/-- A counter raised for a key that is new, against the number of keys. -/
theorem ofNat_card_insert (S : Finset Ull) (k : Ull) :
    BitVec.ofNat 64 (insert k S).card =
      if k ∈ S then BitVec.ofNat 64 S.card else BitVec.ofNat 64 S.card + 1 := by
  split
  · rename_i h
    rw [Finset.insert_eq_of_mem h]
  · rename_i h
    rw [Finset.card_insert_of_notMem h, BitVec.ofNat_add]
    rfl

/-- A counter of the keys changes iff the key is new. -/
theorem ofNat_card_ne_insert {S : Finset Ull} {k : Ull} :
    BitVec.ofNat 64 S.card ≠ BitVec.ofNat 64 (insert k S).card ↔ k ∉ S := by
  rw [ofNat_card_insert]
  by_cases h : k ∈ S
  · rw [if_pos h]
    exact iff_of_false (fun hne => hne rfl) (not_not.mpr h)
  · rw [if_neg h]
    refine iff_of_true ?_ h
    bv_omega

/-- **`_new_hashtable` is the table of no keys.** -/
theorem canonical_new {L : ℕ} {level : Ull} (hl : level.toNat = L) (hL : L ≤ 15) :
    Canonical L ∅ (_newHashtable level) := by
  refine .node hL hl (hl ▸ shifts_newHashtable (hl ▸ hL)) rfl (fun i l hb => ?_)
    (fun i c l hb => ?_) fun i c l hb => ?_
  · obtain rfl : newLinkedList = l := Bucket.list.inj hb
    exact ⟨Nat.zero_le _, List.nodup_nil, rfl, rfl⟩
  · simp [_newHashtable] at hb
  · simp [_newHashtable] at hb

/-! ## One call -/

/-- What the list operation of an insertion does to the keys of a list. -/
structure KeyStep (key : Ull) (l l' : LinkedList) : Prop where
  old : key ∈ keysOf l.nodes → keysOf l'.nodes = keysOf l.nodes ∧ l'.count = l.count
  new : key ∉ keysOf l.nodes → keysOf l'.nodes = key :: keysOf l.nodes ∧ l'.count = l.count + 1

theorem sllAdd_keyStep (l : LinkedList) (key : Ull) : KeyStep key l (sllAdd l key) := by
  refine ⟨fun h => ?_, fun h => ?_⟩
  · obtain ⟨a, v, b, hn, -, heq⟩ := sllAdd_old h
    rw [heq, hn]
    simp only [keysOf, List.map_append, List.map_cons, and_self]
  · rw [sllAdd_new h]
    exact ⟨rfl, rfl⟩

theorem sllPutKeyValue_keyStep {l : LinkedList} {kv : KeyValue} (h : kv.key ∉ keysOf l.nodes) :
    KeyStep kv.key l (sllPutKeyValue l kv) :=
  ⟨fun h' => absurd h' h, fun _ => ⟨rfl, rfl⟩⟩

/-- The list of `S` becomes the list of `insert key S`. -/
theorem ListOf.step {S : Finset Ull} {key : Ull} {l l' : LinkedList} (h : ListOf S l)
    (hstep : KeyStep key l l') : ListOf (insert key S) l' := by
  have hmem : key ∈ keysOf l.nodes ↔ key ∈ S := by rw [← h.keys, List.mem_toFinset]
  by_cases hk : key ∈ keysOf l.nodes
  · obtain ⟨hkeys, hcount⟩ := hstep.old hk
    rw [Finset.insert_eq_of_mem (hmem.mp hk)]
    exact ⟨hkeys ▸ h.nodup, hkeys ▸ h.keys, hcount ▸ h.count⟩
  · obtain ⟨hkeys, hcount⟩ := hstep.new hk
    refine ⟨?_, ?_, ?_⟩
    · rw [hkeys]
      exact List.nodup_cons.mpr ⟨hk, h.nodup⟩
    · rw [hkeys, List.toFinset_cons, h.keys]
    · rw [hcount, h.count, ofNat_card_insert, if_neg (mt hmem.mpr hk)]

/-- The parent's counter follows the number of its keys. -/
theorem count_insert {S : Finset Ull} {k s c a a' : Ull} (hc : c = BitVec.ofNat 64 S.card)
    (ha : a = BitVec.ofNat 64 (slot S s (bucketIndex k s)).card)
    (ha' : a' = BitVec.ofNat 64 (insert k (slot S s (bucketIndex k s))).card) :
    (if a ≠ a' then c + 1 else c) = BitVec.ofNat 64 (insert k S).card := by
  have hmem : k ∈ slot S s (bucketIndex k s) ↔ k ∈ S := mem_slot_self
  rw [ofNat_card_insert, ha, ha']
  simp only [ofNat_card_ne_insert, hmem]
  by_cases h : k ∈ S
  · rw [if_neg (not_not.mpr h), if_pos h, hc]
  · rw [if_pos h, if_neg h, hc]

section Insert

variable {L : ℕ} {S : Finset Ull} {k c c' l s : Ull} {b : Fin tableSize → Bucket}

/-- **One bucket replaced by that of the keys with `k`.** -/
theorem Canonical.update (h : Canonical L S (.mk c l s b))
    (hc : c' = BitVec.ofNat 64 (insert k S).card) {B : Bucket}
    (hlist : ∀ ll, B = .list ll → (insert k (slot S s (bucketIndex k s))).card ≤ 15 ∧
      ListOf (insert k (slot S s (bucketIndex k s))) ll)
    (hexp : ∀ t ll, B = .expanded t ll → 15 < (insert k (slot S s (bucketIndex k s))).card ∧
      ll.nodes = [] ∧ Canonical (L + 1) (insert k (slot S s (bucketIndex k s))) t) :
    Canonical L (insert k S) (.mk c' l s (Function.update b (bucketIndex k s) B)) := by
  cases h with
  | node depth level shifts _ list expanded children =>
    have hcase : ∀ i (P : Finset Ull → Bucket → Prop),
        P (insert k (slot S s (bucketIndex k s))) B → P (slot S s i) (b i) →
          P (slot (insert k S) s i) (Function.update b (bucketIndex k s) B i) := by
      intro i P hB hb
      by_cases hi : i = bucketIndex k s
      · subst hi
        rwa [slot_insert_self, Function.update_self]
      · rwa [slot_insert_of_ne hi, Function.update_of_ne hi]
    refine .node depth level shifts hc (fun i ll => ?_) (fun i t ll => ?_) fun i t ll => ?_
    · exact hcase i (fun T b => b = .list ll → T.card ≤ 15 ∧ ListOf T ll) (hlist ll) (list i ll)
    · exact hcase i (fun T b => b = .expanded t ll → 15 < T.card ∧ ll.nodes = [])
        (fun hB => ⟨(hexp t ll hB).1, (hexp t ll hB).2.1⟩) (expanded i t ll)
    · exact hcase i (fun T b => b = .expanded t ll → Canonical (L + 1) T t)
        (fun hB => (hexp t ll hB).2.2) (children i t ll)

/-- The spill of a table at depth `L` adds one new key of its prefix. -/
def AddsKey (L : ℕ) (spill : Hashtable → KeyValue → Option Hashtable) : Prop :=
  ∀ S t kv, Canonical L S t → kv.key ∉ S →
    (∀ k ∈ S, k.toNat % 16 ^ L = kv.key.toNat % 16 ^ L) →
      ∃ t', spill t kv = some t' ∧ Canonical L (insert kv.key S) t'

/-- The loop that fills the new table of a split bucket. -/
theorem foldlM_addsKey {spill : Hashtable → KeyValue → Option Hashtable}
    (hspill : AddsKey L spill) {p : ℕ} : ∀ (ns : List KeyValue) {S : Finset Ull} {t : Hashtable},
      Canonical L S t → (keysOf ns).Nodup → (∀ k ∈ keysOf ns, k ∉ S) →
      (∀ k ∈ S, k.toNat % 16 ^ L = p) → (∀ k ∈ keysOf ns, k.toNat % 16 ^ L = p) →
      ∃ t', ns.foldlM spill t = some t' ∧ Canonical L ((keysOf ns).toFinset ∪ S) t'
  | [], S, t, ht, _, _, _, _ => ⟨t, rfl, by simpa using ht⟩
  | kv :: ns, S, t, ht, hnd, hnew, hS, hns => by
    rw [keysOf_cons, List.nodup_cons] at hnd
    simp only [keysOf_cons, List.forall_mem_cons] at hnew hns
    obtain ⟨t₁, hs, ht₁⟩ := hspill S t kv ht hnew.1 fun k hk => (hS k hk).trans hns.1.symm
    have hnew₁ : ∀ k ∈ keysOf ns, k ∉ insert kv.key S := by
      intro k hk hmem
      rcases Finset.mem_insert.mp hmem with rfl | hmem
      · exact hnd.1 hk
      · exact hnew.2 k hk hmem
    have hS₁ : ∀ k ∈ insert kv.key S, k.toNat % 16 ^ L = p := by
      intro k hk
      rcases Finset.mem_insert.mp hk with rfl | hk
      · exact hns.1
      · exact hS k hk
    obtain ⟨t', hs', ht'⟩ := foldlM_addsKey hspill ns ht₁ hnd.2 hnew₁ hS₁ hns.2
    refine ⟨t', by rw [List.foldlM_cons, hs]; exact hs', ?_⟩
    rwa [keysOf_cons, List.toFinset_cons, Finset.insert_union, ← Finset.union_insert]

/-- All keys of the bucket of `k` agree with `k` one nibble further. -/
theorem agree_slot (hs : s.toNat = 4 * L)
    (hagree : ∀ k' ∈ S, k'.toNat % 16 ^ L = k.toNat % 16 ^ L) :
    ∀ k' ∈ insert k (slot S s (bucketIndex k s)),
      k'.toNat % 16 ^ (L + 1) = k.toNat % 16 ^ (L + 1) := by
  intro k' hk'
  rcases Finset.mem_insert.mp hk' with rfl | hk'
  · rfl
  · obtain ⟨hmem, hi⟩ := mem_slot.mp hk'
    exact agree_succ (hagree k' hmem) (by rw [← bucketIndex_val hs, ← bucketIndex_val hs, hi])

variable {sllOp : LinkedList → LinkedList} {recur : Hashtable → Option Hashtable}
  {spill : Hashtable → KeyValue → Option Hashtable}

/-- **The common body of `put` and `hashtable_put_key_value`** takes the table of `S` to the table
of `insert k S`. -/
theorem canonical_insertWith (h : Canonical L S (.mk c l s b))
    (hagree : ∀ k' ∈ S, k'.toNat % 16 ^ L = k.toNat % 16 ^ L)
    (hop : ∀ ll, b (bucketIndex k s) = .list ll → ListOf (slot S s (bucketIndex k s)) ll →
      KeyStep k ll (sllOp ll))
    (hrecur : ∀ T t, Canonical (L + 1) T t →
      (∀ k' ∈ T, k'.toNat % 16 ^ (L + 1) = k.toNat % 16 ^ (L + 1)) → (k ∈ T ↔ k ∈ S) →
      ∃ t', recur t = some t' ∧ Canonical (L + 1) (insert k T) t')
    (hspill : AddsKey (L + 1) spill) :
    ∃ t', insertWith sllOp recur spill k (.mk c l s b) = some t' ∧
      Canonical L (insert k S) t' := by
  have h' := h
  cases h' with
  | node depth level shifts count list expanded children =>
  simp only [Hashtable.bucket_mk, Hashtable.shifts_mk, Hashtable.level_mk, Hashtable.count_mk]
    at level shifts count list expanded children
  have hs : s.toNat < 64 := by omega
  have hagree' := agree_slot shifts hagree
  cases hb : b (bucketIndex k s) with
  | expanded t ll =>
    have ht := children _ t ll hb
    obtain ⟨t', hr, ht'⟩ := hrecur _ t ht
      (fun k' hk' => hagree' k' (Finset.mem_insert_of_mem hk')) mem_slot_self
    refine ⟨_, insertWith_expanded hs hb hr, h.update (count_insert count ht.count_eq ht'.count_eq)
      (fun _ he => by cases he) ?_⟩
    intro t₁ l₁ he
    obtain ⟨rfl, rfl⟩ := Bucket.expanded.inj he
    obtain ⟨hcard, hnil⟩ := expanded _ t ll hb
    exact ⟨hcard.trans_le (Finset.card_le_card (Finset.subset_insert _ _)), hnil, ht'⟩
  | list ll =>
    obtain ⟨hcard, hll⟩ := list _ ll hb
    have hnew : ListOf (insert k (slot S s (bucketIndex k s))) (sllOp ll) :=
      hll.step (hop ll hb hll)
    have hle : (insert k (slot S s (bucketIndex k s))).card ≤ 16 :=
      (Finset.card_insert_le _ _).trans (Nat.succ_le_succ hcard)
    have hgt : (sllOp ll).count > splitSize ↔
        15 < (insert k (slot S s (bucketIndex k s))).card := by
      rw [hnew.count, gt_iff_lt, BitVec.lt_def, BitVec.toNat_ofNat, Nat.mod_eq_of_lt (by omega)]
      rfl
    have hcount := count_insert (c := c) count hll.count hnew.count
    by_cases hsplit : (sllOp ll).count > splitSize
    · -- sixteen keys: the popped nodes fill a table one level down
      have h16 := hgt.mp hsplit
      have hL : L < 15 := by
        by_contra hL
        obtain rfl : L = 15 := by omega
        have h1 : (keysOf (sllOp ll).nodes).length ≤ 1 := by
          rw [length_keysOf]
          refine length_le_one_of_agree hnew.nodup ⟨k.toNat % 16 ^ 16, fun k' hk' => hagree' k' ?_⟩
          rwa [← hnew.keys, List.mem_toFinset]
        rw [length_keysOf, hnew.length] at h1
        omega
      have hlevel : (l + 1).toNat = L + 1 := by bv_omega
      obtain ⟨t, hfold, ht⟩ := foldlM_addsKey hspill (p := k.toNat % 16 ^ (L + 1))
        (sllOp ll).nodes (canonical_new hlevel (by omega)) hnew.nodup
        (fun _ _ => Finset.notMem_empty _) (fun _ hk' => absurd hk' (Finset.notMem_empty _))
        fun k' hk' => hagree' k' (by rwa [← hnew.keys, List.mem_toFinset])
      rw [Finset.union_empty, hnew.keys] at ht
      refine ⟨_, insertWith_split hs hb hsplit hfold, h.update hcount (fun _ he => by cases he) ?_⟩
      intro t₁ l₁ he
      obtain ⟨rfl, rfl⟩ := Bucket.expanded.inj he
      exact ⟨h16, rfl, ht⟩
    · refine ⟨_, insertWith_keep hs hb hsplit, h.update hcount ?_ fun _ _ he => by cases he⟩
      intro l₁ he
      obtain rfl := Bucket.list.inj he
      exact ⟨not_lt.mp (mt hgt.mpr hsplit), hnew⟩

end Insert

/-- **`hashtable_put_key_value` of a new key** takes the table of `S` to the table with the key. -/
theorem hashtablePutKeyValue_canonical :
    ∀ fuel L : ℕ, 16 ≤ fuel + L → AddsKey L (hashtablePutKeyValue fuel)
  | 0, L, hfuel => by
    intro S t kv ht
    cases ht with
    | node depth _ _ _ _ _ _ => omega
  | fuel + 1, L, hfuel => by
    intro S t kv ht hnew hagree
    obtain ⟨c, l, s, b⟩ := t
    have ih := hashtablePutKeyValue_canonical fuel (L + 1) (by omega)
    refine canonical_insertWith ht hagree (fun ll _ hll => sllPutKeyValue_keyStep fun hk => ?_)
      (fun T t ht hT hmem => ih T t kv ht (mt hmem.mp hnew) hT) ih
    rw [← List.mem_toFinset, hll.keys, mem_slot_self] at hk
    exact hnew hk

/-- **`put`** takes the table of `S` to the table of `insert k S`. -/
theorem put_canonical : ∀ (fuel L : ℕ) (S : Finset Ull) (t : Hashtable) (k : Ull),
    16 ≤ fuel + L → Canonical L S t → (∀ k' ∈ S, k'.toNat % 16 ^ L = k.toNat % 16 ^ L) →
    ∃ t', put fuel t k = some t' ∧ Canonical L (insert k S) t'
  | 0, L, S, t, k, hfuel, ht, _ => by
    cases ht with
    | node depth _ _ _ _ _ _ => omega
  | fuel + 1, L, S, .mk c l s b, k, hfuel, ht, hagree =>
    canonical_insertWith ht hagree (fun ll _ _ => sllAdd_keyStep ll k)
      (fun T t ht hT _ => put_canonical fuel (L + 1) T t k (by omega) ht hT)
      (hashtablePutKeyValue_canonical fuel (L + 1) (by omega))

/-! ## Runs -/

/-- **Every sequence of `put` calls ends in the table of its keys.** -/
theorem runTable_put_canonical {fuel : ℕ} (hfuel : 16 ≤ fuel) (ks : List Ull) :
    ∃ t, runTable fuel (ks.map .put) newHashtable = some t ∧ Canonical 0 ks.toFinset t := by
  induction ks using List.reverseRecOn with
  | nil => exact ⟨newHashtable, rfl, canonical_new rfl (Nat.zero_le _)⟩
  | append_singleton ks k ih =>
    obtain ⟨t, hrun, ht⟩ := ih
    obtain ⟨t', hput, ht'⟩ := put_canonical fuel 0 _ t k (by omega) ht fun _ _ => by
      rw [Nat.pow_zero, Nat.mod_one, Nat.mod_one]
    refine ⟨t', ?_, ?_⟩
    · rw [List.map_append, List.map_singleton, runTable_append hrun]
      exact hput
    · rwa [List.toFinset_append, List.toFinset_cons, List.toFinset_nil, insert_empty_eq,
        Finset.union_comm, Finset.singleton_union]

/-! ## The tree -/

/-- The table of an expanded bucket. -/
def Hashtable.child (t : Hashtable) (i : Fin tableSize) : Option Hashtable :=
  match t.bucket i with
  | .list _ => none
  | .expanded table _ => some table

/-- The table reached through the expanded buckets of a path. -/
def Hashtable.tableAt (t : Hashtable) (path : List (Fin tableSize)) : Option Hashtable :=
  path.foldlM Hashtable.child t

/-- The bucket `i` of the table at the path is expanded. -/
def Hashtable.ExpandedAt (t : Hashtable) (path : List (Fin tableSize)) (i : Fin tableSize) : Prop :=
  ∃ t', t.tableAt path = some t' ∧ ∃ table l, t'.bucket i = .expanded table l

/-- The `n` lowest nibbles of a key. -/
def lowNibbles (key : Ull) (n : ℕ) : List (Fin tableSize) :=
  (List.range n).map fun L => ⟨key.toNat / 16 ^ L % tableSize, Nat.mod_lt _ (by decide)⟩

/-- The keys of `S` whose lowest nibbles are the path. -/
def sharing (S : Finset Ull) (path : List (Fin tableSize)) : Finset Ull :=
  S.filter fun k => lowNibbles k path.length = path

/-- Two tables with the same fields, the same buckets expanded, and the same keys in each list. -/
structure SameTable (t t' : Hashtable) : Prop where
  count : t.count = t'.count
  level : t.level = t'.level
  shifts : t.shifts = t'.shifts
  expanded : ∀ i, (t.child i).isSome = (t'.child i).isSome
  keys : ∀ i, (keysOf (t.bucket i).linkedList.nodes).toFinset =
    (keysOf (t'.bucket i).linkedList.nodes).toFinset

theorem child_isSome {t : Hashtable} {i : Fin tableSize} :
    (t.child i).isSome ↔ ∃ table l, t.bucket i = .expanded table l := by
  unfold Hashtable.child
  cases t.bucket i with
  | list l => exact iff_of_false Bool.false_ne_true fun ⟨_, _, hb⟩ => by cases hb
  | expanded c l => exact iff_of_true rfl ⟨c, l, rfl⟩

theorem tableAt_concat (t : Hashtable) (path : List (Fin tableSize)) (i : Fin tableSize) :
    t.tableAt (path ++ [i]) = (t.tableAt path).bind (Hashtable.child · i) := by
  unfold Hashtable.tableAt
  rw [List.foldlM_append, Option.bind_eq_bind]
  congr 1
  funext t'
  rw [List.foldlM_cons, Option.bind_eq_bind]
  exact Option.bind_fun_some _

theorem sharing_nil (S : Finset Ull) : sharing S [] = S := by
  unfold sharing
  exact Finset.filter_true_of_mem fun _ _ => rfl

theorem slot_sharing {S : Finset Ull} {path : List (Fin tableSize)} {s : Ull}
    (hs : s.toNat = 4 * path.length) (i : Fin tableSize) :
    slot (sharing S path) s i = sharing S (path ++ [i]) := by
  unfold slot sharing
  rw [Finset.filter_filter]
  refine Finset.filter_congr fun k _ => ?_
  have hi : (⟨k.toNat / 16 ^ path.length % tableSize, Nat.mod_lt _ (by decide)⟩ :
      Fin tableSize) = bucketIndex k s :=
    Fin.ext (by rw [bucketIndex_val hs])
  have hlow : lowNibbles k (path ++ [i]).length =
      lowNibbles k path.length ++ [bucketIndex k s] := by
    unfold lowNibbles
    rw [List.length_append, List.length_singleton, List.range_succ, List.map_append,
      List.map_singleton, hi]
  rw [hlow]
  constructor
  · rintro ⟨hpath, hidx⟩
    rw [hpath, hidx]
  · intro h
    obtain ⟨hpath, hidx⟩ := List.append_inj' h rfl
    exact ⟨hpath, List.singleton_inj.mp hidx⟩

section Shape

variable {L : ℕ} {S : Finset Ull} {t t' : Hashtable}

/-- A bucket is expanded iff more than `SPLIT_SIZE` keys belong to it. -/
theorem Canonical.child_isSome_iff (h : Canonical L S t) (i : Fin tableSize) :
    (t.child i).isSome ↔ 15 < (slot S t.shifts i).card := by
  cases h with
  | node _ _ _ _ list expanded _ =>
    unfold Hashtable.child
    cases hb : t.bucket i with
    | list l => exact iff_of_false Bool.false_ne_true (not_lt.mpr (list i l hb).1)
    | expanded c l => exact iff_of_true rfl (expanded i c l hb).1

/-- The table of an expanded bucket is that of the bucket's keys. -/
theorem Canonical.of_child (h : Canonical L S t) {i : Fin tableSize} {c : Hashtable}
    (hc : t.child i = some c) : Canonical (L + 1) (slot S t.shifts i) c := by
  cases h with
  | node _ _ _ _ _ _ children =>
    unfold Hashtable.child at hc
    cases hb : t.bucket i with
    | list l =>
      rw [hb] at hc
      cases hc
    | expanded c' l =>
      rw [hb] at hc
      exact Option.some.inj hc ▸ children i c' l hb

theorem Canonical.shifts_eq (h : Canonical L S t) : t.shifts.toNat = 4 * L := by
  cases h with
  | node _ _ shifts _ _ _ _ => exact shifts

/-- **The table at a path** is that of the keys sharing the path. -/
theorem Canonical.at_path (h : Canonical 0 S t) (path : List (Fin tableSize)) :
    ∀ t', t.tableAt path = some t' → Canonical path.length (sharing S path) t' := by
  induction path using List.reverseRecOn with
  | nil =>
    intro t' ht'
    obtain rfl : t = t' := Option.some.inj ht'
    rwa [sharing_nil]
  | append_singleton path i ih =>
    intro t' ht'
    obtain ⟨t₁, ht₁, hc⟩ : ∃ t₁, t.tableAt path = some t₁ ∧ t₁.child i = some t' := by
      rw [tableAt_concat] at ht'
      exact Option.bind_eq_some_iff.mp ht'
    have h₁ := ih t₁ ht₁
    have h' := h₁.of_child hc
    rwa [slot_sharing h₁.shifts_eq, ← List.length_singleton (a := i), ← List.length_append] at h'

/-- The keys of the list of a bucket: those of the bucket, unless it is expanded. -/
theorem Canonical.keys_linkedList (h : Canonical L S t) (i : Fin tableSize) :
    (keysOf (t.bucket i).linkedList.nodes).toFinset =
      if 15 < (slot S t.shifts i).card then ∅ else slot S t.shifts i := by
  cases h with
  | node _ _ _ _ list expanded _ =>
    cases hb : t.bucket i with
    | list l => rw [if_neg (not_lt.mpr (list i l hb).1), Bucket.linkedList, (list i l hb).2.keys]
    | expanded c l =>
      rw [if_pos (expanded i c l hb).1, Bucket.linkedList, (expanded i c l hb).2]
      rfl

/-- **The table of a set of keys is unique** up to the values and the order of its lists. -/
theorem Canonical.same (h : Canonical L S t) (h' : Canonical L S t') : SameTable t t' := by
  have hs : t.shifts = t'.shifts :=
    BitVec.eq_of_toNat_eq (h.shifts_eq.trans h'.shifts_eq.symm)
  refine ⟨h.count_eq.trans h'.count_eq.symm, ?_, hs, fun i => ?_, fun i => ?_⟩
  · cases h with
    | node _ level _ _ _ _ _ =>
      cases h' with
      | node _ level' _ _ _ _ _ => exact BitVec.eq_of_toNat_eq (level.trans level'.symm)
  · rw [Bool.eq_iff_iff, h.child_isSome_iff, h'.child_isSome_iff, hs]
  · rw [h.keys_linkedList, h'.keys_linkedList, hs]

/-- **Where there is a table**: at the root, and below a table where more than `SPLIT_SIZE` of the
keys share the path. -/
theorem Canonical.tableAt_concat_isSome (h : Canonical 0 S t) (path : List (Fin tableSize))
    (i : Fin tableSize) : (t.tableAt (path ++ [i])).isSome ↔
      (t.tableAt path).isSome ∧ splitSize.toNat < (sharing S (path ++ [i])).card := by
  have h15 : splitSize.toNat = 15 := rfl
  rw [tableAt_concat]
  cases ht : t.tableAt path with
  | none => exact iff_of_false Bool.false_ne_true fun hsome => Bool.false_ne_true hsome.1
  | some t' =>
    have h' := h.at_path path t' ht
    rw [Option.bind_some, h'.child_isSome_iff, slot_sharing h'.shifts_eq, h15, Option.isSome_some,
      and_iff_right rfl]

/-- Tables of the same keys have the same tree below them. -/
theorem Canonical.same_at (h : Canonical 0 S t) (h' : Canonical 0 S t')
    (path : List (Fin tableSize)) :
    Option.Rel SameTable (t.tableAt path) (t'.tableAt path) := by
  have hsome : (t.tableAt path).isSome = (t'.tableAt path).isSome := by
    induction path using List.reverseRecOn with
    | nil => rfl
    | append_singleton path i ih =>
      rw [Bool.eq_iff_iff, h.tableAt_concat_isSome, h'.tableAt_concat_isSome, ih]
  cases ht : t.tableAt path with
  | none =>
    rw [ht] at hsome
    rw [Option.isNone_iff_eq_none.mp (Option.isSome_eq_false_iff.mp hsome.symm)]
    exact .none
  | some t₁ =>
    rw [ht] at hsome
    obtain ⟨t₁', ht'⟩ := Option.isSome_iff_exists.mp hsome.symm
    rw [ht']
    exact .some ((h.at_path path t₁ ht).same (h'.at_path path t₁' ht'))

/-- The buckets that are expanded. -/
theorem Canonical.expandedAt_iff (h : Canonical 0 S t) (path : List (Fin tableSize))
    (i : Fin tableSize) : t.ExpandedAt path i ↔
      (t.tableAt path).isSome ∧ splitSize.toNat < (sharing S (path ++ [i])).card := by
  rw [← h.tableAt_concat_isSome, tableAt_concat, Hashtable.ExpandedAt]
  cases t.tableAt path with
  | none => exact iff_of_false (fun ⟨_, hnone, _⟩ => by cases hnone) Bool.false_ne_true
  | some t' =>
    rw [Option.bind_some, child_isSome]
    constructor
    · rintro ⟨_, ⟨⟩, hexp⟩
      exact hexp
    · exact fun hexp => ⟨t', rfl, hexp⟩

end Shape

/-- **Splitting does not depend on the history.** After any `put` calls the bucket at the end of a
path is expanded iff its table exists and more than `SPLIT_SIZE` of the keys share the path; so two
sequences with the same keys end in the same tree. -/
theorem runTable_put_tree (fuel : ℕ) (hfuel : 16 ≤ fuel) :
    (∀ ks : List Ull, ∃ t, runTable fuel (ks.map .put) newHashtable = some t ∧
      ∀ path i, t.ExpandedAt path i ↔ (t.tableAt path).isSome ∧
        splitSize.toNat < (sharing ks.toFinset (path ++ [i])).card) ∧
    ∀ ks ks' : List Ull, ks.toFinset = ks'.toFinset → ∀ t t',
      runTable fuel (ks.map .put) newHashtable = some t →
      runTable fuel (ks'.map .put) newHashtable = some t' →
      ∀ path, Option.Rel SameTable (t.tableAt path) (t'.tableAt path) := by
  constructor
  · intro ks
    obtain ⟨t, hrun, ht⟩ := runTable_put_canonical hfuel ks
    exact ⟨t, hrun, ht.expandedAt_iff⟩
  · intro ks ks' hks t t' hrun hrun' path
    obtain ⟨t₁, hrun₁, ht⟩ := runTable_put_canonical hfuel ks
    obtain ⟨t₁', hrun₁', ht'⟩ := runTable_put_canonical hfuel ks'
    obtain rfl : t = t₁ := Option.some.inj (hrun.symm.trans hrun₁)
    obtain rfl : t' = t₁' := Option.some.inj (hrun'.symm.trans hrun₁')
    exact ht.same_at (hks ▸ ht') path

/-- Recursion of sixteen levels is enough. -/
theorem runTable_put_tree_sixteen :
    (∀ ks : List Ull, ∃ t, runTable 16 (ks.map .put) newHashtable = some t ∧
      ∀ path i, t.ExpandedAt path i ↔ (t.tableAt path).isSome ∧
        splitSize.toNat < (sharing ks.toFinset (path ++ [i])).card) ∧
    ∀ ks ks' : List Ull, ks.toFinset = ks'.toFinset → ∀ t t',
      runTable 16 (ks.map .put) newHashtable = some t →
      runTable 16 (ks'.map .put) newHashtable = some t' →
      ∀ path, Option.Rel SameTable (t.tableAt path) (t'.tableAt path) :=
  runTable_put_tree 16 le_rfl

end C380.Valws
