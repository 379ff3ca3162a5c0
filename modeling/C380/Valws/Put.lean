import C380.Valws.Invariant

/-!
# `put` on a well-formed table

Both `put` and `hashtable_put_key_value` are `insertWith`, so one lemma for each case of a bucket
serves the two: `inserted_expanded` (the recursive call goes into an existing table) and
`inserted_list` (the list operation, and the split it may trigger).

* `hashtablePutKeyValue_spec`: into a table under construction, `Flat` and of at most 15 keys,
  `hashtable_put_key_value` adds the key with its value; `foldlM_spill` does it for every node
  popped from a split list. A cascade of splits ends because two keys that agree in all sixteen
  nibbles are equal.
* `put_spec`: `put` raises the count of one key by one and keeps the invariant, within 16 levels
  of calls.
-/

namespace C380.Valws

open CountedBag

/-- `Raise` on the entries of lists and tables. -/
abbrev Raises (k : Ull) (n : ℕ) (E E' : Multiset KeyValue) : Prop :=
  Raise KeyValue.key KeyValue.num k n E E'

/-! ## The list operations -/

/-- A list operation that raises the count of `k` by `n`, and counts a new node. -/
structure SllStep (k : Ull) (n : ℕ) (l l' : LinkedList) : Prop where
  raise : Raises k n (l.nodes : Multiset KeyValue) l'.nodes
  count : l'.count = if k ∈ keysOf l.nodes then l.count else l.count + 1

theorem sllAdd_step {l : LinkedList} {key : Ull} (hv : ∀ e ∈ l.nodes, e.num + 1 < 2 ^ 64) :
    SllStep key 1 l (sllAdd l key) := by
  by_cases hk : key ∈ keysOf l.nodes
  · obtain ⟨a, v, b, hn, -, heq⟩ := sllAdd_old hk
    refine ⟨.old (a ++ b) ⟨key, v⟩ ⟨key, v + 1⟩ rfl rfl ?_ ?_ ?_, by rw [heq, if_pos hk]⟩
    · have := hv ⟨key, v⟩ (by rw [hn]; simp)
      simp only [KeyValue.num] at this ⊢
      bv_omega
    · rw [hn]
      exact Multiset.coe_eq_coe.mpr List.perm_middle
    · rw [heq]
      exact Multiset.coe_eq_coe.mpr List.perm_middle
  · rw [sllAdd_new hk]
    exact ⟨.new ⟨key, 1⟩ rfl rfl hk rfl, by rw [if_neg hk]⟩

theorem sllPutKeyValue_step {l : LinkedList} {kv : KeyValue} (h : kv.key ∉ keysOf l.nodes) :
    SllStep kv.key kv.num l (sllPutKeyValue l kv) :=
  ⟨.new kv rfl rfl h rfl, by rw [if_neg h]; rfl⟩

/-- The counter of a spent list is not its length. -/
theorem Spent.ne {D : ℕ} {l : LinkedList} (h : Spent D l) (hD : D < 2 ^ 61) :
    l.count.toNat ≠ l.nodes.length := by
  obtain ⟨debt, -, hle, heq⟩ := h
  omega

/-- An insertion keeps the debt of a spent list. -/
theorem Spent.step {D n : ℕ} {k : Ull} {l l' : LinkedList} (h : Spent D l)
    (hstep : SllStep k n l l') (hshort : l.nodes.length ≤ 5) : Spent D l' := by
  obtain ⟨debt, hdebt, hle, heq⟩ := h
  have hlen : l'.nodes.length =
      if k ∈ keysOf l.nodes then l.nodes.length else l.nodes.length + 1 := hstep.raise.card
  refine ⟨debt, hdebt, hle, ?_⟩
  rw [hstep.count, hlen]
  split
  · exact heq
  · bv_omega

/-- The wrapped counter of a short spent list is above `SPLIT_SIZE`. -/
theorem Spent.splits {D : ℕ} {l : LinkedList} (h : Spent D l) (hshort : l.nodes.length ≤ 6)
    (hD : D < 2 ^ 61) : l.count > splitSize := by
  obtain ⟨debt, hdebt, hle, heq⟩ := h
  rw [gt_iff_lt, BitVec.lt_def]
  have : splitSize.toNat = 15 := rfl
  omega

/-! ## The cases of `insertWith` -/

section InsertWith

variable {sllOp : LinkedList → LinkedList} {recur : Hashtable → Option Hashtable}
  {spill : Hashtable → KeyValue → Option Hashtable} {key c l s : Ull}
  {b : Fin tableSize → Bucket}

theorem insertWith_expanded {t t' : Hashtable} {ll : LinkedList}
    (hs : s.toNat < 64) (hb : b (bucketIndex key s) = .expanded t ll) (hr : recur t = some t') :
    insertWith sllOp recur spill key (.mk c l s b) =
      some (.mk (if t.count ≠ t'.count then c + 1 else c) l s
        (Function.update b (bucketIndex key s) (.expanded t' ll))) := by
  simp only [insertWith, if_neg (Nat.not_le.mpr hs), hb, hr, Option.bind_eq_bind, Option.bind_some]

theorem insertWith_keep {ll : LinkedList} (hs : s.toNat < 64)
    (hb : b (bucketIndex key s) = .list ll) (hle : ¬ (sllOp ll).count > splitSize) :
    insertWith sllOp recur spill key (.mk c l s b) =
      some (.mk (if ll.count ≠ (sllOp ll).count then c + 1 else c) l s
        (Function.update b (bucketIndex key s) (.list (sllOp ll)))) := by
  simp only [insertWith, if_neg (Nat.not_le.mpr hs), hb, if_neg hle]

theorem insertWith_split {ll : LinkedList} (hs : s.toNat < 64)
    (hb : b (bucketIndex key s) = .list ll) (hgt : (sllOp ll).count > splitSize) {t : Hashtable}
    (ht : (sllOp ll).nodes.foldlM spill (_newHashtable (l + 1)) = some t) :
    insertWith sllOp recur spill key (.mk c l s b) =
      some (.mk (if ll.count ≠ (sllOp ll).count then c + 1 else c) l s
        (Function.update b (bucketIndex key s)
          (.expanded t
            ⟨(sllOp ll).count - BitVec.ofNat 64 (2 * (sllOp ll).nodes.length), []⟩))) := by
  have hpop : whilePop spill (sllOp ll).nodes.length (sllOp ll) (_newHashtable (l + 1)) =
      some (⟨(sllOp ll).count - BitVec.ofNat 64 (2 * (sllOp ll).nodes.length), []⟩, t) := by
    have h := whilePop_eq spill (sllOp ll).nodes (sllOp ll).count (_newHashtable (l + 1))
    rw [ht] at h
    exact h
  simp only [insertWith, if_neg (Nat.not_le.mpr hs), hb, if_pos hgt, hpop, Option.bind_eq_bind,
    Option.bind_some]

end InsertWith

/-! ## What an insertion does to a table -/

/-- `t'` is `t` with the count of `k` raised by `n`, and well-formed. -/
structure Inserted (x : Prop) (lo D L : ℕ) (k : Ull) (n : ℕ) (t t' : Hashtable) : Prop where
  ok : TableOk x lo D L t'
  raise : Raises k n (t.entries : Multiset KeyValue) t'.entries
  count : t'.count.toNat = if k ∈ t.keys then t.count.toNat else t.count.toNat + 1
  flat : t.Flat → t.count.toNat < 15 → t'.Flat

section Inserted

variable {x : Prop} {lo D D' L n : ℕ} {k c l s : Ull} {b : Fin tableSize → Bucket}

/-- A bucket replaced by one with the count of `k` raised. -/
theorem inserted_update (ht : TableOk x lo D L (.mk c l s b)) (hD : D ≤ D')
    (hagree : ∀ k' ∈ (Hashtable.mk c l s b).keys, k'.toNat % 16 ^ L = k.toNat % 16 ^ L)
    {i : Fin tableSize} (hi : bucketIndex k s = i) {B : Bucket} (hB : BucketOk lo D' L B)
    (hbelow : ∀ t l', B = .expanded t l' → TableOk x lo D' (L + 1) t)
    (hr : Raises k n ((b i).entries : Multiset KeyValue) B.entries)
    (hc : c.toNat + 1 ≤ D' + 15) (hD' : D' < 2 ^ 61)
    (hflat : (Hashtable.mk c l s b).Flat → c.toNat < 15 →
      ∃ l', B = .list l' ∧ l'.count.toNat = l'.nodes.length) :
    Inserted x lo D' L k n (.mk c l s b)
      (.mk (if k ∈ (b i).keys then c else c + 1) l s (Function.update b i B)) := by
  subst hi
  have hn := ht.here
  have hmem : k ∈ (Hashtable.mk c l s b).keys ↔ k ∈ (b (bucketIndex k s)).keys :=
    ⟨hn.mem_bucket, fun h => Hashtable.mem_keys.mpr ⟨_, h⟩⟩
  have hcount : (if k ∈ (b (bucketIndex k s)).keys then c else c + 1).toNat =
      if k ∈ (b (bucketIndex k s)).keys then c.toNat else c.toNat + 1 := by
    split
    · rfl
    · bv_omega
  have hlen : B.entries.length = if k ∈ (b (bucketIndex k s)).keys
      then (b (bucketIndex k s)).entries.length
      else (b (bucketIndex k s)).entries.length + 1 := hr.card
  have hold := Hashtable.length_keys (Hashtable.mk c l s b) (bucketIndex k s)
  have hkeys : ∀ k' ∈ B.keys, k' = k ∨ k' ∈ (b (bucketIndex k s)).keys :=
    fun k' hk' => hr.mem_keys.mp hk'
  refine ⟨ht.update hD hagree hB hbelow (fun k' hk' => ?_) ?_ (fun hx => ?_) ?_, ?_, ?_,
    fun hf hlt j => ?_⟩
  · rcases hkeys k' hk' with rfl | hk'
    · exact ⟨rfl, rfl⟩
    · exact ⟨hn.routed _ k' hk', hagree k' (Hashtable.mem_keys.mpr ⟨_, hk'⟩)⟩
  · have hle := hn.keys_le
    simp only [Hashtable.bucket_mk, Hashtable.count_mk] at hold hle
    rw [hcount, hlen]
    split <;> omega
  · have hle := hn.exact hx
    simp only [Hashtable.bucket_mk, Hashtable.count_mk] at hold hle
    rw [hcount, hlen]
    split <;> omega
  · rw [hcount]
    split <;> omega
  · rw [Hashtable.entries_split _ (bucketIndex k s), Hashtable.entries_split (Hashtable.mk _ _ _ _)
      (bucketIndex k s), Hashtable.rest_update c, Hashtable.bucket_mk, Hashtable.bucket_mk,
      Function.update_self]
    exact hr.add (hn.not_mem_rest k)
  · rw [Hashtable.count_mk, hcount]
    simp only [hmem, Hashtable.count_mk]
  · by_cases hj : j = bucketIndex k s
    · subst hj
      rw [Hashtable.bucket_mk, Function.update_self]
      exact hflat hf hlt
    · rw [Hashtable.bucket_mk, Function.update_of_ne hj]
      exact hf j

/-- **An insertion into an expanded bucket**, given what the recursive call does. -/
theorem inserted_expanded (ht : TableOk x lo D L (.mk c l s b)) (hD : D ≤ D')
    (hagree : ∀ k' ∈ (Hashtable.mk c l s b).keys, k'.toNat % 16 ^ L = k.toNat % 16 ^ L)
    {t t' : Hashtable} {ll : LinkedList} (hb : b (bucketIndex k s) = .expanded t ll)
    (hins : Inserted x lo D' (L + 1) k n t t')
    (hc : c.toNat + 1 ≤ D' + 15) (hD' : D' < 2 ^ 61) :
    Inserted x lo D' L k n (.mk c l s b)
      (.mk (if t.count ≠ t'.count then c + 1 else c) l s
        (Function.update b (bucketIndex k s) (.expanded t' ll))) := by
  have hn := ht.here
  have hentries : (b (bucketIndex k s)).entries = t.entries := hn.entries_expanded hb
  have hmem : k ∈ (b (bucketIndex k s)).keys ↔ k ∈ t.keys := by
    unfold Bucket.keys
    rw [hentries, Hashtable.keys]
  have hcount : (if t.count ≠ t'.count then c + 1 else c) =
      if k ∈ (b (bucketIndex k s)).keys then c else c + 1 := by
    have := hins.count
    by_cases hk : k ∈ t.keys
    · rw [if_pos hk] at this
      rw [if_pos (hmem.mpr hk), if_neg]
      exact not_not.mpr (BitVec.eq_of_toNat_eq this.symm)
    · rw [if_neg hk] at this
      rw [if_neg (mt hmem.mp hk), if_pos]
      intro he
      rw [he] at this
      omega
  rw [hcount]
  have hok := hn.bucket (bucketIndex k s)
  rw [Hashtable.bucket_mk, hb] at hok
  cases hok with
  | expanded empty spent depth large small =>
    have hmono : t.count.toNat ≤ t'.count.toNat := by
      rw [hins.count]
      split <;> omega
    refine inserted_update ht hD hagree rfl ?_ ?_ ?_ hc hD' ?_
    · refine .expanded empty (spent.mono hD) depth (large.trans hmono) fun hlt => ?_
      exact hins.flat (small (by omega)) (by omega)
    · intro t₁ l' he
      cases he
      exact hins.ok
    · have hB : (Bucket.expanded t' ll).entries = t'.entries := by
        unfold Bucket.entries
        rw [empty, List.nil_append]
      rw [hentries, hB]
      exact hins.raise
    · intro hf
      obtain ⟨l', hl', -⟩ := hf (bucketIndex k s)
      rw [Hashtable.bucket_mk, hb] at hl'
      cases hl'

/-- What the loop that fills the new table of a split bucket does with the popped nodes. -/
def Spills (x : Prop) (lo D L : ℕ) (spill : Hashtable → KeyValue → Option Hashtable) : Prop :=
  ∀ (level : Ull) (ns : List KeyValue), level.toNat = L → ns.length ≤ 16 →
    (keysOf ns).Nodup → (∀ e ∈ ns, 1 ≤ e.num ∧ e.num ≤ D) →
    (∃ p, ∀ k ∈ keysOf ns, k.toNat % 16 ^ L = p) →
    ∃ t, ns.foldlM spill (_newHashtable level) = some t ∧ TableOk x lo D L t ∧
      (t.entries : Multiset KeyValue) = ns ∧ t.count.toNat = ns.length ∧
      (ns.length ≤ 15 → t.Flat)

/-- The keys of one bucket at depth 15 are equal. -/
theorem length_le_one_of_agree {ns : List KeyValue} (hnd : (keysOf ns).Nodup)
    (h : ∃ p, ∀ k ∈ keysOf ns, k.toNat % 16 ^ 16 = p) : ns.length ≤ 1 := by
  obtain ⟨p, hp⟩ := h
  match ns with
  | [] => exact Nat.zero_le _
  | [_] => exact le_rfl
  | e₁ :: e₂ :: rest =>
    have h1 := hp e₁.key (by simp)
    have h2 := hp e₂.key (by simp)
    have heq : e₁.key = e₂.key := eq_of_agree (h1.trans h2.symm)
    simp [heq] at hnd

section List

variable {sllOp : LinkedList → LinkedList} {recur : Hashtable → Option Hashtable}
  {spill : Hashtable → KeyValue → Option Hashtable} {ll ll' : LinkedList}

/-- The parent's counter follows the list's. -/
theorem count_of_sllStep (hstep : SllStep k n ll (sllOp ll)) {i : Fin tableSize}
    (hb : b i = .list ll) : (if ll.count ≠ (sllOp ll).count then c + 1 else c) =
      if k ∈ (b i).keys then c else c + 1 := by
  have hmem : k ∈ (b i).keys ↔ k ∈ keysOf ll.nodes := by rw [hb]; rfl
  have hcount := hstep.count
  by_cases hk : k ∈ keysOf ll.nodes
  · rw [if_pos hk] at hcount
    rw [if_pos (hmem.mpr hk), if_neg (not_not.mpr hcount.symm)]
  · rw [if_neg hk] at hcount
    rw [if_neg (mt hmem.mp hk), if_pos]
    rw [hcount]
    bv_omega

/-- **An insertion that leaves the list unexpanded.** -/
theorem inserted_keep (ht : TableOk x lo D L (.mk c l s b)) (hD : D ≤ D')
    (hagree : ∀ k' ∈ (Hashtable.mk c l s b).keys, k'.toNat % 16 ^ L = k.toNat % 16 ^ L)
    (hb : b (bucketIndex k s) = .list ll) (hstep : SllStep k n ll (sllOp ll))
    (hB : BucketOk lo D' L (.list (sllOp ll)))
    (hfresh : (sllOp ll).count.toNat = (sllOp ll).nodes.length)
    (hle : ¬ (sllOp ll).count > splitSize) (hc : c.toNat + 1 ≤ D' + 15) (hD' : D' < 2 ^ 61) :
    ∃ t', insertWith sllOp recur spill k (.mk c l s b) = some t' ∧
      Inserted x lo D' L k n (.mk c l s b) t' := by
  refine ⟨_, insertWith_keep ht.here.shifts_lt hb hle, ?_⟩
  rw [count_of_sllStep hstep hb]
  refine inserted_update ht hD hagree rfl hB (fun t l' he => ?_) ?_ hc hD' fun _ _ => ?_
  · cases he
  · rw [hb]
    exact hstep.raise
  · exact ⟨_, rfl, hfresh⟩

/-- **An insertion that splits the list.** -/
theorem inserted_split (ht : TableOk x lo D L (.mk c l s b)) (hD : D ≤ D')
    (hagree : ∀ k' ∈ (Hashtable.mk c l s b).keys, k'.toNat % 16 ^ L = k.toNat % 16 ^ L)
    (hb : b (bucketIndex k s) = .list ll) (hstep : SllStep k n ll (sllOp ll))
    (hlist : ListOk D' (sllOp ll)) (hshort : (sllOp ll).nodes.length ≤ 16)
    (hnibbles : ∃ p, ∀ k' ∈ keysOf (sllOp ll).nodes, k'.toNat % 16 ^ (L + 1) = p)
    (hL : L < 15) (hspill : Spills x lo D' (L + 1) spill)
    (hgt : (sllOp ll).count > splitSize) (hlo : lo ≤ (sllOp ll).nodes.length)
    (hspent : Spent D' ⟨(sllOp ll).count - BitVec.ofNat 64 (2 * (sllOp ll).nodes.length), []⟩)
    (hflat : (Hashtable.mk c l s b).Flat → 15 ≤ c.toNat)
    (hc : c.toNat + 1 ≤ D' + 15) (hD' : D' < 2 ^ 61) :
    ∃ t', insertWith sllOp recur spill k (.mk c l s b) = some t' ∧
      Inserted x lo D' L k n (.mk c l s b) t' := by
  have hlevel : (l + 1).toNat = L + 1 := by
    have := ht.here.level
    simp only [Hashtable.level_mk] at this
    bv_omega
  obtain ⟨t, hs, hok, hentries, hcount, htflat⟩ :=
    hspill (l + 1) _ hlevel hshort hlist.nodup hlist.values hnibbles
  refine ⟨_, insertWith_split ht.here.shifts_lt hb hgt hs, ?_⟩
  rw [count_of_sllStep hstep hb]
  refine inserted_update ht hD hagree rfl ?_ (fun t₁ l' he => ?_) ?_ hc hD' fun hf hlt => ?_
  · refine .expanded rfl hspent hL (by rw [hcount]; exact hlo) fun hlt => htflat ?_
    omega
  · cases he
    exact hok
  · rw [hb]
    have hB : ((Bucket.expanded t ⟨(sllOp ll).count -
        BitVec.ofNat 64 (2 * (sllOp ll).nodes.length), []⟩).entries : Multiset KeyValue) =
          (sllOp ll).nodes := by
      rw [← hentries]
      rfl
    rw [hB]
    exact hstep.raise
  · exact absurd (hflat hf) (by omega)

/-- All keys of the new list agree with `k` one nibble further. -/
theorem agree_of_sllStep (ht : TableOk x lo D L (.mk c l s b))
    (hagree : ∀ k' ∈ (Hashtable.mk c l s b).keys, k'.toNat % 16 ^ L = k.toNat % 16 ^ L)
    (hb : b (bucketIndex k s) = .list ll) (hstep : SllStep k n ll ll') :
    ∃ p, ∀ k' ∈ keysOf ll'.nodes, k'.toNat % 16 ^ (L + 1) = p := by
  refine ⟨k.toNat % 16 ^ (L + 1), fun k' hk' => ?_⟩
  rcases hstep.raise.mem_keys.mp (Multiset.mem_coe.mpr hk') with rfl | hk'
  · rfl
  · have hk'' : k' ∈ (b (bucketIndex k s)).keys := by rw [hb]; exact hk'
    have hs : s.toNat = 4 * L := ht.here.shifts
    have hidx : bucketIndex k' s = bucketIndex k s := ht.here.routed _ k' hk''
    refine agree_succ (hagree k' (Hashtable.mem_keys.mpr ⟨_, hk''⟩)) ?_
    rw [← bucketIndex_val hs, ← bucketIndex_val hs, hidx]

/-- A list is no longer than the counter of its table. -/
theorem length_le_count (ht : TableOk x lo D L (.mk c l s b)) {i : Fin tableSize}
    (hb : b i = .list ll) : ll.nodes.length ≤ c.toNat := by
  have hlength := Hashtable.length_keys (Hashtable.mk c l s b) i
  have hle := ht.here.keys_le
  simp only [Hashtable.bucket_mk, hb, Bucket.entries, Hashtable.count_mk] at hlength hle
  omega

theorem length_sllStep (hstep : SllStep k n ll ll') : ll'.nodes.length =
    if k ∈ keysOf ll.nodes then ll.nodes.length else ll.nodes.length + 1 := hstep.raise.card

/-- The counter of a list that was never split stays exact. -/
theorem count_sllStep (hstep : SllStep k n ll ll')
    (hfresh : ll.count.toNat = ll.nodes.length) (hshort : ll.nodes.length ≤ 15) :
    ll'.count.toNat = ll'.nodes.length := by
  rw [congrArg BitVec.toNat hstep.count, length_sllStep hstep]
  split
  · exact hfresh
  · bv_omega

/-- A list with two keys is not in the deepest tables: there all keys of a list agree on 64
bits. -/
theorem depth_lt_of_sllStep (ht : TableOk x lo D L (.mk c l s b))
    (hagree : ∀ k' ∈ (Hashtable.mk c l s b).keys, k'.toNat % 16 ^ L = k.toNat % 16 ^ L)
    (hb : b (bucketIndex k s) = .list ll) (hstep : SllStep k n ll ll')
    (hnd : (keysOf ll'.nodes).Nodup) (h2 : 2 ≤ ll'.nodes.length) : L < 15 := by
  have hdepth := ht.here.depth
  by_contra hcon
  obtain rfl : L = 15 := by omega
  have := length_le_one_of_agree hnd (agree_of_sllStep ht hagree hb hstep)
  omega

/-- An insertion into a list that was never split: its counter is exact, and it splits at 16. -/
theorem inserted_fresh (ht : TableOk x lo D L (.mk c l s b)) (hD : D ≤ D')
    (hagree : ∀ k' ∈ (Hashtable.mk c l s b).keys, k'.toNat % 16 ^ L = k.toNat % 16 ^ L)
    (hb : b (bucketIndex k s) = .list ll) (hstep : SllStep k n ll (sllOp ll))
    (hlist : ListOk D' (sllOp ll)) (hfresh : ll.count.toNat = ll.nodes.length)
    (hshort : ll.nodes.length ≤ 15) (hlo : lo ≤ 6)
    (hspill : L < 15 → Spills x lo D' (L + 1) spill) (hD1 : 1 ≤ D')
    (hc : c.toNat + 1 ≤ D' + 15) (hD' : D' < 2 ^ 61) :
    ∃ t', insertWith sllOp recur spill k (.mk c l s b) = some t' ∧
      Inserted x lo D' L k n (.mk c l s b) t' := by
  have hlen := length_sllStep hstep
  have hsub := length_le_count ht hb
  have hcount := count_sllStep hstep hfresh hshort
  by_cases hgt : (sllOp ll).count > splitSize
  · have h16 : (sllOp ll).nodes.length = 16 := by
      have : 15 < (sllOp ll).count.toNat := by simpa [BitVec.lt_def] using hgt
      split at hlen <;> omega
    have hL := depth_lt_of_sllStep ht hagree hb hstep hlist.nodup (by omega)
    refine inserted_split ht hD hagree hb hstep hlist (by omega)
      (agree_of_sllStep ht hagree hb hstep) hL (hspill hL) hgt (by omega)
      ⟨16, le_rfl, by omega, ?_⟩ (fun _ => ?_) hc hD'
    · rw [h16] at hcount ⊢
      simp only [List.length_nil]
      bv_omega
    · split at hlen <;> omega
  · refine inserted_keep ht hD hagree hb hstep (.fresh hlist hcount ?_) hcount hgt hc hD'
    have : ¬ 15 < (sllOp ll).count.toNat := by simpa [BitVec.lt_def] using hgt
    omega

/-- An insertion into a list that was split before: its counter has wrapped, and it splits. -/
theorem inserted_spent (ht : TableOk x lo D L (.mk c l s b)) (hlt : D < D')
    (hagree : ∀ k' ∈ (Hashtable.mk c l s b).keys, k'.toNat % 16 ^ L = k.toNat % 16 ^ L)
    (hb : b (bucketIndex k s) = .list ll) (hstep : SllStep k n ll (sllOp ll))
    (hlist : ListOk D' (sllOp ll)) (spent : Spent D ll) (short : ll.nodes.length ≤ 5)
    (hL : L < 15) (hlarge : lo ≤ (sllOp ll).nodes.length)
    (hspill : Spills x lo D' (L + 1) spill) (hc : c.toNat + 1 ≤ D' + 15) (hD' : D' < 2 ^ 61) :
    ∃ t', insertWith sllOp recur spill k (.mk c l s b) = some t' ∧
      Inserted x lo D' L k n (.mk c l s b) t' := by
  have hnot : ll.count.toNat ≠ ll.nodes.length := spent.ne (by omega)
  have hlen := length_sllStep hstep
  have hlen' : (sllOp ll).nodes.length ≤ 6 := by split at hlen <;> omega
  have hspent := spent.step hstep short
  have hgt := hspent.splits hlen' (by omega)
  obtain ⟨debt, hdebt, hle, heq⟩ := hspent
  refine inserted_split ht hlt.le hagree hb hstep hlist (by omega)
    (agree_of_sllStep ht hagree hb hstep) hL hspill hgt hlarge
    ⟨debt + (sllOp ll).nodes.length, by omega, by omega, ?_⟩ (fun hf => ?_) hc hD'
  · simp only [List.length_nil]
    bv_omega
  · obtain ⟨l', hl', hcnt⟩ := hf (bucketIndex k s)
    rw [Hashtable.bucket_mk, hb] at hl'
    cases hl'
    exact absurd hcnt hnot

/-- **An insertion into an unexpanded bucket**: kept as a list, or split. -/
theorem inserted_list (ht : TableOk x lo D L (.mk c l s b)) (hD : D ≤ D')
    (hagree : ∀ k' ∈ (Hashtable.mk c l s b).keys, k'.toNat % 16 ^ L = k.toNat % 16 ^ L)
    (hb : b (bucketIndex k s) = .list ll) (hstep : SllStep k n ll (sllOp ll))
    (hvals : ∀ e ∈ (sllOp ll).nodes, 1 ≤ e.num ∧ e.num ≤ D')
    (hfresh : ll.count.toNat = ll.nodes.length ∨ D < D') (hlo : lo ≤ 6)
    (hlarge : ll.count.toNat = ll.nodes.length ∨ lo ≤ (sllOp ll).nodes.length)
    (hspill : L < 15 → Spills x lo D' (L + 1) spill) (hD1 : 1 ≤ D')
    (hc : c.toNat + 1 ≤ D' + 15) (hD' : D' < 2 ^ 61) :
    ∃ t', insertWith sllOp recur spill k (.mk c l s b) = some t' ∧
      Inserted x lo D' L k n (.mk c l s b) t' := by
  have hok := ht.here.bucket (bucketIndex k s)
  rw [Hashtable.bucket_mk, hb] at hok
  cases hok with
  | fresh list count short =>
    exact inserted_fresh ht hD hagree hb hstep ⟨hstep.raise.nodup list.nodup, hvals⟩ count short
      hlo hspill hD1 hc hD'
  | spent list spent short hL =>
    have hnot : ll.count.toNat ≠ ll.nodes.length := spent.ne (by omega)
    exact inserted_spent ht (hfresh.resolve_left hnot) hagree hb hstep
      ⟨hstep.raise.nodup list.nodup, hvals⟩ spent short hL (hlarge.resolve_left hnot)
      (hspill hL) hc hD'

end List

end Inserted

/-! ## `hashtable_put_key_value` -/

section PutKeyValue

variable {x : Prop} {lo D L : ℕ}

/-- What `hashtable_put_key_value` does to a table under construction. -/
def PutsKeyValue (x : Prop) (lo D L : ℕ) (spill : Hashtable → KeyValue → Option Hashtable) :
    Prop :=
  ∀ t kv, TableOk x lo D L t → t.Flat → t.count.toNat ≤ 15 →
    t.count.toNat = t.keys.length → kv.key ∉ t.keys → 1 ≤ kv.num → kv.num ≤ D →
    (∀ k ∈ t.keys, k.toNat % 16 ^ L = kv.key.toNat % 16 ^ L) →
    ∃ t', spill t kv = some t' ∧ Inserted x lo D L kv.key kv.num t t'

/-- The loop over the popped nodes, from any table under construction. -/
theorem foldlM_spill {spill : Hashtable → KeyValue → Option Hashtable}
    (hspill : PutsKeyValue x lo D L spill) : ∀ (ns : List KeyValue) (t : Hashtable),
    TableOk x lo D L t → t.Flat → t.count.toNat = t.keys.length →
    t.count.toNat + ns.length ≤ 16 → (ns ≠ [] → t.count.toNat ≤ 15) →
    (keysOf ns ++ t.keys).Nodup → (∀ e ∈ ns, 1 ≤ e.num ∧ e.num ≤ D) →
    (∃ p, ∀ k ∈ keysOf ns ++ t.keys, k.toNat % 16 ^ L = p) →
    ∃ t', ns.foldlM spill t = some t' ∧ TableOk x lo D L t' ∧
      (t'.entries : Multiset KeyValue) = ns + t.entries ∧
      t'.count.toNat = t.count.toNat + ns.length ∧ (t'.count.toNat ≤ 15 → t'.Flat)
  | [], t, ht, hflat, _, _, _, _, _, _ => by
    refine ⟨t, rfl, ht, ?_, rfl, fun _ => hflat⟩
    simp
  | kv :: ns, t, ht, hflat, hexact, hlen, hle, hnd, hvals, hp => by
    obtain ⟨p, hp⟩ := hp
    rw [keysOf_cons, List.cons_append, List.nodup_cons] at hnd
    rw [List.length_cons] at hlen
    have hnew : kv.key ∉ t.keys := fun h => hnd.1 (List.mem_append_right _ h)
    have hkv := hvals kv List.mem_cons_self
    obtain ⟨t₁, hs, hins⟩ := hspill t kv ht hflat (hle (List.cons_ne_nil _ _)) hexact hnew
      hkv.1 hkv.2 fun k hk => (hp k (by simp [hk])).trans (hp kv.key (by simp)).symm
    have hcount : t₁.count.toNat = t.count.toNat + 1 := by rw [hins.count, if_neg hnew]
    have hraise : (t₁.entries : Multiset KeyValue) = kv ::ₘ t.entries := by
      cases hins.raise with
      | new e hk hv _ hE' =>
        have : e = kv := by
          obtain ⟨ek, ev⟩ := e
          obtain ⟨k, v⟩ := kv
          simp only at hk
          subst hk
          congr 1
          exact BitVec.eq_of_toNat_eq hv
        rw [hE', this]
      | old R e _ hk _ _ hE _ =>
        refine absurd ?_ hnew
        rw [← Multiset.mem_coe, Hashtable.coe_keys, hE, Multiset.map_cons, hk]
        exact Multiset.mem_cons_self _ _
    have hperm : t₁.entries.Perm (kv :: t.entries) := Multiset.coe_eq_coe.mp hraise
    have hkeys : t₁.keys.Perm (kv.key :: t.keys) := hperm.map _
    by_cases hns : ns = []
    · subst hns
      refine ⟨t₁, by rw [List.foldlM_cons, hs]; rfl, hins.ok, ?_, hcount, fun h15 => ?_⟩
      · rw [hraise]
        rfl
      · exact hins.flat hflat (by omega)
    · have hpos : 0 < ns.length := List.length_pos_iff.mpr hns
      have hp' : ∀ k ∈ keysOf ns ++ t₁.keys, k.toNat % 16 ^ L = p := by
        intro k hk
        refine hp k ?_
        rw [keysOf_cons, List.cons_append]
        rcases List.mem_append.mp hk with hk | hk
        · exact List.mem_cons_of_mem _ (List.mem_append_left _ hk)
        · rcases List.mem_cons.mp (hkeys.mem_iff.mp hk) with rfl | hk
          · exact List.mem_cons_self
          · exact List.mem_cons_of_mem _ (List.mem_append_right _ hk)
      obtain ⟨t', hs', hok', hent', hcnt', hflat'⟩ := foldlM_spill hspill ns t₁ hins.ok
        (hins.flat hflat (by omega)) (by rw [hcount, hkeys.length_eq, List.length_cons, hexact])
        (by omega) (fun _ => by omega)
        ((hkeys.append_left (keysOf ns)).nodup_iff.mpr
          (List.perm_middle.nodup_iff.mpr (List.nodup_cons.mpr hnd)))
        (fun e he => hvals e (List.mem_cons_of_mem _ he)) ⟨p, hp'⟩
      refine ⟨t', by rw [List.foldlM_cons, hs]; exact hs', hok', ?_, ?_, hflat'⟩
      · rw [hent', hraise, ← Multiset.cons_coe, Multiset.add_cons, Multiset.cons_add]
      · rw [hcnt', hcount, List.length_cons]
        omega

/-- A `hashtable_put_key_value` that works at depth `L` fills a fresh table of that depth. -/
theorem spills_of_puts {spill : Hashtable → KeyValue → Option Hashtable}
    (hspill : PutsKeyValue x lo D L spill) (hL : L ≤ 15) : Spills x lo D L spill := by
  intro level ns hlevel hlen hnd hvals hp
  have hentries := entries_newHashtable level
  have hkeys : (_newHashtable level).keys = [] := by
    rw [Hashtable.keys, hentries, keysOf_nil]
  have hcount : (_newHashtable level).count.toNat = 0 := rfl
  obtain ⟨t, hs, hok, hent, hcnt, hflat⟩ := foldlM_spill hspill ns (_newHashtable level)
    (tableOk_new x lo D hlevel hL) (flat_newHashtable level) (by rw [hkeys]; rfl) (by omega)
    (fun _ => by omega) (by rw [hkeys, List.append_nil]; exact hnd) hvals
    (by rw [hkeys, List.append_nil]; exact hp)
  refine ⟨t, hs, hok, ?_, by omega, fun h15 => hflat (by omega)⟩
  rw [hent, hentries]
  simp

/-- **`hashtable_put_key_value` into a table under construction** stores the key with its value,
within `16 - L` levels of calls. -/
theorem hashtablePutKeyValue_spec (hlo : lo ≤ 6) (hD : 1 ≤ D) (hD' : D < 2 ^ 61) :
    ∀ (fuel L : ℕ), 16 ≤ fuel + L → PutsKeyValue x lo D L (hashtablePutKeyValue fuel)
  | 0, L, hfuel => by
    intro t kv ht
    have := ht.here.depth
    omega
  | fuel + 1, L, hfuel => by
    intro t kv ht hflat hle hexact hnew hpos hval hagree
    obtain ⟨c, l, s, b⟩ := t
    obtain ⟨ll, hb, hcount⟩ := hflat (bucketIndex kv.key s)
    rw [Hashtable.bucket_mk] at hb
    have hn := ht.here
    have hnew' : kv.key ∉ keysOf ll.nodes := by
      intro h
      refine hnew (Hashtable.mem_keys.mpr ⟨bucketIndex kv.key s, ?_⟩)
      rw [Hashtable.bucket_mk, hb]
      exact h
    refine inserted_list ht le_rfl hagree hb (sllPutKeyValue_step hnew') ?_ (Or.inl hcount) hlo
      (Or.inl hcount) (fun hL => spills_of_puts
        (hashtablePutKeyValue_spec hlo hD hD' fuel (L + 1) (by omega)) (by omega)) hD ?_ hD'
    · intro e he
      rcases List.mem_cons.mp he with rfl | he
      · exact ⟨hpos, hval⟩
      · refine ht.values e (Hashtable.mem_entries.mpr ⟨bucketIndex kv.key s, ?_⟩)
        rw [Hashtable.bucket_mk, hb]
        exact he
    · simp only [Hashtable.count_mk] at hle
      omega

end PutKeyValue

/-! ## `put` -/

mutual

/-- The list of the unexpanded bucket at which `put` of a key ends. -/
def Hashtable.listOf : Hashtable → Ull → LinkedList
  | .mk _ _ shifts bucket, key => (bucket (bucketIndex key shifts)).listOf key

def Bucket.listOf : Bucket → Ull → LinkedList
  | .list linkedList, _ => linkedList
  | .expanded table _, key => table.listOf key

end

/-- The number of nodes a list has after `sll_add`. -/
def LinkedList.sizeWith (l : LinkedList) (key : Ull) : ℕ :=
  if key ∈ keysOf l.nodes then l.nodes.length else l.nodes.length + 1

/-- `put` of the key splits no list into a table smaller than `lo`: the list it ends at was never
split before, or holds at least `lo` keys after the call. -/
def SplitsAtLeast (lo : ℕ) (t : Hashtable) (key : Ull) : Prop :=
  (t.listOf key).count.toNat = (t.listOf key).nodes.length ∨ lo ≤ (t.listOf key).sizeWith key

instance (lo : ℕ) (t : Hashtable) (key : Ull) : Decidable (SplitsAtLeast lo t key) :=
  inferInstanceAs (Decidable (_ ∨ _))

/-- Every split leaves at least one key in the new table. -/
theorem splitsAtLeast_one (t : Hashtable) (key : Ull) : SplitsAtLeast 1 t key := by
  right
  unfold LinkedList.sizeWith
  split
  · rename_i h
    rw [← length_keysOf]
    exact List.length_pos_of_mem h
  · omega

/-- **`put` on a well-formed table** ends within `16 - L` levels of calls, raises the count of its
key by one and keeps the table well-formed. -/
theorem put_spec {x : Prop} {lo D : ℕ} (hlo : lo ≤ 6) (hD : D + 1 < 2 ^ 61) :
    ∀ (fuel L : ℕ) (t : Hashtable) (k : Ull), 16 ≤ fuel + L → TableOk x lo D L t →
      SplitsAtLeast lo t k → (∀ k' ∈ t.keys, k'.toNat % 16 ^ L = k.toNat % 16 ^ L) →
      ∃ t', put fuel t k = some t' ∧ Inserted x lo (D + 1) L k 1 t t'
  | 0, L, t, k, hfuel, ht, _, _ => by
    have := ht.here.depth
    omega
  | fuel + 1, L, .mk c l s b, k, hfuel, ht, hsplit, hagree => by
    have hn := ht.here
    have hc : c.toNat + 1 ≤ D + 1 + 15 := by
      have := hn.count_le
      simp only [Hashtable.count_mk] at this
      omega
    cases hb : b (bucketIndex k s) with
    | expanded t ll =>
      have hagree' := hn.agree_child hb hagree
      have hsplit' : SplitsAtLeast lo t k := by
        simpa only [SplitsAtLeast, Hashtable.listOf, hb, Bucket.listOf] using hsplit
      obtain ⟨t', hput, hins⟩ :=
        put_spec hlo hD fuel (L + 1) t k (by omega) (ht.child hb) hsplit' hagree'
      exact ⟨_, insertWith_expanded hn.shifts_lt hb hput,
        inserted_expanded ht (Nat.le_succ D) hagree hb hins hc hD⟩
    | list ll =>
      have hvals : ∀ e ∈ ll.nodes, 1 ≤ e.num ∧ e.num ≤ D := by
        intro e he
        refine ht.values e (Hashtable.mem_entries.mpr ⟨bucketIndex k s, ?_⟩)
        rw [Hashtable.bucket_mk, hb]
        exact he
      have hstep : SllStep k 1 ll (sllAdd ll k) :=
        sllAdd_step fun e he => by
          have := hvals e he
          omega
      refine inserted_list ht (Nat.le_succ D) hagree hb hstep ?_ (Or.inr (Nat.lt_succ_self D)) hlo
        ?_ (fun hL => spills_of_puts (hashtablePutKeyValue_spec hlo (by omega) hD fuel (L + 1)
          (by omega)) (by omega)) (by omega) hc hD
      · intro e he
        rcases hstep.raise.mem (Multiset.mem_coe.mpr he) with he | he | ⟨e', he', heq⟩
        · have := hvals e he
          omega
        · omega
        · have := hvals e' he'
          omega
      · have hsize : (sllAdd ll k).nodes.length = ll.sizeWith k := hstep.raise.card
        rw [hsize]
        simpa only [SplitsAtLeast, Hashtable.listOf, hb, Bucket.listOf] using hsplit

end C380.Valws
