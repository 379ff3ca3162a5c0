import Mathlib.Algebra.Order.Monoid.Canonical.Defs
import Mathlib.Data.Multiset.OrderedMonoid
import C380.Valws.Put

/-!
# `delete` on a well-formed table

`delete` merges a child that is left with fewer than `MERGE_SIZE` keys by popping the child's own
lists and destroying the child with every table below it. `lostBy t k` are the entries that
`delete` destroys on its way.

* `delete_spec`: apart from what it destroys, `delete` takes one occurrence of its key out, and
  the table stays well-formed; its counter follows the keys.
* `lostBy_eq_zero_iff`: with exact counters, `delete` destroys nothing iff the table does not
  satisfy `loses` before the call: some child on the path of the key holds exactly `MERGE_SIZE`
  keys, the key for the last time among them, and has an expanded bucket off the path.
* `not_loses_of_large`: when every child holds at least `MERGE_SIZE` keys, no `delete` loses one.
-/

namespace C380.Valws

open CountedBag

/-- `Lower` on the entries of lists and tables. -/
abbrev Lowers (k : Ull) (E E' : Multiset KeyValue) : Prop :=
  Lower KeyValue.key KeyValue.num k E E'

/-- The nodes of the table's own lists, in bucket order. -/
def Hashtable.ownNodes (t : Hashtable) : List KeyValue :=
  (List.finRange tableSize).flatMap fun i => (t.bucket i).linkedList.nodes

/-- The entries below the expanded buckets of a table. -/
def Hashtable.subEntries (t : Hashtable) : Multiset KeyValue :=
  ∑ i, match t.bucket i with
    | .list _ => 0
    | .expanded c _ => (c.entries : Multiset KeyValue)

mutual

/-- The entries that `delete` destroys with the children it merges. -/
def Hashtable.lostBy : Hashtable → Ull → Multiset KeyValue
  | .mk _ _ shifts bucket, key => (bucket (bucketIndex key shifts)).lostBy key

def Bucket.lostBy : Bucket → Ull → Multiset KeyValue
  | .list _, _ => 0
  | .expanded table _, key =>
    table.lostBy key +
      if (delete table key).count < mergeSize then (delete table key).subEntries else 0

end

/-- The bucket is a table. -/
def Bucket.isExpanded : Bucket → Bool
  | .list _ => false
  | .expanded _ _ => true

mutual

/-- Some child on the path of the key holds exactly `MERGE_SIZE` keys, the key for the last time
among them, and has an expanded bucket off the path. -/
def Hashtable.loses : Hashtable → Ull → Bool
  | .mk _ _ shifts bucket, key => (bucket (bucketIndex key shifts)).loses key

def Bucket.loses : Bucket → Ull → Bool
  | .list _, _ => false
  | .expanded table _, key =>
    table.loses key ||
      (table.count == mergeSize && table.multiplicity key == 1 &&
        (List.finRange tableSize).any fun j =>
          j != bucketIndex key table.shifts && (table.bucket j).isExpanded)

end

/-! ## The merge loop -/

theorem foldl_sllPutKeyValue : ∀ (ns : List KeyValue) (l : LinkedList),
    ns.foldl sllPutKeyValue l = ⟨l.count + BitVec.ofNat 64 ns.length, ns.reverse ++ l.nodes⟩
  | [], l => by simp
  | kv :: ns, l => by
    rw [List.foldl_cons, foldl_sllPutKeyValue ns, List.length_cons, List.reverse_cons,
      List.append_assoc]
    simp only [sllPutKeyValue, LinkedList.mk.injEq, List.singleton_append, and_true]
    bv_omega

/-- **The merge loop** puts the child's own nodes on the parent's list and counts them. -/
theorem mergeLists_spec (t : Hashtable) (l : LinkedList) :
    (mergeLists t l).nodes.Perm (t.ownNodes ++ l.nodes) ∧
      (mergeLists t l).count = l.count + BitVec.ofNat 64 t.ownNodes.length := by
  unfold mergeLists Hashtable.ownNodes
  induction List.finRange tableSize generalizing l with
  | nil => simp
  | cons i is ih =>
    have hpop : ∀ inner : LinkedList,
        (whilePop (m := Id) sllPutKeyValue inner.nodes.length inner l).2 =
          inner.nodes.foldl sllPutKeyValue l := by
      intro inner
      have h := whilePop_eq (m := Id) sllPutKeyValue inner.nodes inner.count l
      exact (congrArg Prod.snd h).trans List.idRun_foldlM
    simp only [List.foldl_cons, hpop, List.flatMap_cons, foldl_sllPutKeyValue]
    obtain ⟨hn, hc⟩ := ih ⟨l.count + BitVec.ofNat 64 (t.bucket i).linkedList.nodes.length,
      (t.bucket i).linkedList.nodes.reverse ++ l.nodes⟩
    refine ⟨hn.trans ?_, ?_⟩
    · rw [← List.append_assoc]
      refine List.Perm.append_right _ ?_
      exact List.perm_append_comm.trans (List.Perm.append_right _ (List.reverse_perm _))
    · rw [hc, List.length_append]
      simp only
      bv_omega

/-- The entries of a table are its own nodes and those below its expanded buckets. -/
theorem entries_eq_own_add_sub {t : Hashtable}
    (h : ∀ i c l, t.bucket i = .expanded c l → l.nodes = []) :
    (t.entries : Multiset KeyValue) = t.ownNodes + t.subEntries := by
  have hown : (t.ownNodes : Multiset KeyValue) =
      ∑ i, ((t.bucket i).linkedList.nodes : Multiset KeyValue) := by
    rw [Fin.sum_univ_def]
    unfold Hashtable.ownNodes
    induction List.finRange tableSize with
    | nil => rfl
    | cons i is ih =>
      rw [List.flatMap_cons, ← Multiset.coe_add, ih, List.map_cons, List.sum_cons]
  rw [Hashtable.entries_sum, hown, Hashtable.subEntries, ← Finset.sum_add_distrib]
  refine Finset.sum_congr rfl fun i _ => ?_
  cases hb : t.bucket i with
  | list l => simp [Bucket.entries, Bucket.linkedList]
  | expanded c l => simp [Bucket.entries, Bucket.linkedList, h i c l hb]

theorem NodeOk.expanded_empty {x : Prop} {lo D L : ℕ} {t : Hashtable} (h : NodeOk x lo D L t)
    {i : Fin tableSize} {c : Hashtable} {l : LinkedList} (hb : t.bucket i = .expanded c l) :
    l.nodes = [] := by
  have hok := h.bucket i
  rw [hb] at hok
  cases hok with
  | expanded empty _ _ _ _ => exact empty

/-! ## What a deletion does -/

theorem delete_mk (c l s : Ull) (b : Fin tableSize → Bucket) (k : Ull) :
    delete (.mk c l s b) k =
      .mk (if (deleteBucket (b (bucketIndex k s)) k).2 then c - 1 else c) l s
        (Function.update b (bucketIndex k s) (deleteBucket (b (bucketIndex k s)) k).1) := by
  rw [delete]

/-- `t'` and the destroyed entries are `t` with one occurrence of `k` taken out. -/
structure Deleted (x : Prop) (lo D L : ℕ) (k : Ull) (lost : Multiset KeyValue)
    (t t' : Hashtable) : Prop where
  ok : TableOk x lo D L t'
  lower : Lowers k (t.entries : Multiset KeyValue) (t'.entries + lost)
  count : t'.count.toNat + t.entries.length = t.count.toNat + (t'.entries.length + lost.card)

/-- The same of one bucket, with the flag of the counter. -/
structure BucketDeleted (x : Prop) (lo D L : ℕ) (k : Ull) (lost : Multiset KeyValue)
    (B : Bucket) (r : Bucket × Bool) : Prop where
  ok : BucketOk lo D L r.1
  below : ∀ t l, r.1 = .expanded t l → TableOk x lo D (L + 1) t
  lower : Lowers k (B.entries : Multiset KeyValue) (r.1.entries + lost)
  changed : (if r.2 then 1 else 0) + (r.1.entries.length + lost.card) = B.entries.length

theorem lower_card {k : Ull} {E E' : Multiset KeyValue} (h : Lowers k E E') :
    E'.card ≤ E.card ∧ E.card ≤ E'.card + 1 := by
  have hk := h.keys
  rcases hk with hk | hk
  · have := congrArg Multiset.card hk
    simp only [Multiset.card_map] at this
    omega
  · have := congrArg Multiset.card hk
    simp only [Multiset.card_map, Multiset.card_cons] at this
    omega

section Delete

variable {x : Prop} {lo D L : ℕ} {k : Ull}

/-- **`sll_remove`** takes one occurrence out, and lowers the counter with the number of nodes. -/
theorem sllRemove_lowers {l : LinkedList} (hpos : ∀ e ∈ l.nodes, 1 ≤ e.num) :
    Lowers k (l.nodes : Multiset KeyValue) (sllRemove l k).nodes ∧
      (l.nodes.length = (sllRemove l k).nodes.length ∧ (sllRemove l k).count = l.count ∨
        l.nodes.length = (sllRemove l k).nodes.length + 1 ∧
          (sllRemove l k).count = l.count - 1) := by
  by_cases hk : k ∈ keysOf l.nodes
  · obtain ⟨a, v, b, hn, -, heq⟩ := sllRemove_present hk
    have hv := hpos ⟨k, v⟩ (by rw [hn]; simp)
    simp only [KeyValue.num] at hv
    have hmid : (l.nodes : Multiset KeyValue) = ⟨k, v⟩ ::ₘ ((a ++ b : List KeyValue)) := by
      rw [hn]
      exact Multiset.coe_eq_coe.mpr List.perm_middle
    by_cases h1 : v - 1 = 0
    · rw [if_pos h1] at heq
      refine ⟨.last ⟨k, v⟩ rfl ?_ (by rw [heq, hmid]), Or.inr ?_⟩
      · simp only [KeyValue.num]
        bv_omega
      · rw [heq, hn]
        simp only [List.length_append, List.length_cons, and_true]
        omega
    · rw [if_neg h1] at heq
      refine ⟨.more (a ++ b : List KeyValue) ⟨k, v⟩ ⟨k, v - 1⟩ rfl rfl ?_ ?_ hmid ?_, Or.inl ?_⟩
      · simp only [KeyValue.num]
        bv_omega
      · simp only [KeyValue.num]
        bv_omega
      · rw [heq]
        exact Multiset.coe_eq_coe.mpr List.perm_middle
      · rw [heq, hn]
        simp
  · rw [sllRemove_absent hk]
    exact ⟨.absent hk rfl, Or.inl ⟨rfl, rfl⟩⟩

/-- **`sll_remove` on a bucket's list.** -/
theorem sllRemove_spec {l : LinkedList} (hD : D < 2 ^ 61) (h : BucketOk lo D L (.list l))
    (x : Prop) :
    BucketDeleted x lo D L k 0 (.list l)
      (.list (sllRemove l k), decide (l.count ≠ (sllRemove l k).count)) := by
  have hlist : ListOk D l := by
    cases h with
    | fresh list _ _ => exact list
    | spent list _ _ _ => exact list
  obtain ⟨hlow, hcnt⟩ := sllRemove_lowers (k := k) fun e he => (hlist.values e he).1
  have hlist' : ListOk D (sllRemove l k) := by
    refine ⟨hlow.nodup hlist.nodup, fun e he => ?_⟩
    rcases hlow.mem (Multiset.mem_coe.mpr he) with he | ⟨hpos, e', he', hlt⟩
    · exact hlist.values e he
    · have := hlist.values e' he'
      omega
  refine ⟨?_, fun t l' he => (by cases he), ?_, ?_⟩
  · cases h with
    | fresh list count short =>
      refine .fresh hlist' ?_ (by omega)
      rcases hcnt with ⟨h1, h2⟩ | ⟨h1, h2⟩
      · rw [h2, ← h1, count]
      · rw [h2]
        bv_omega
    | spent list spent short depth =>
      obtain ⟨debt, h16, hle, heq⟩ := spent
      refine .spent hlist' ⟨debt, h16, hle, ?_⟩ (by omega) depth
      rcases hcnt with ⟨h1, h2⟩ | ⟨h1, h2⟩
      · rw [h2, ← h1, heq]
      · rw [h2]
        bv_omega
  · rw [add_zero]
    exact hlow
  · simp only [Bucket.entries, Multiset.card_zero]
    rcases hcnt with ⟨h1, h2⟩ | ⟨h1, h2⟩
    · rw [h2]
      simp [h1]
    · have hne : l.count ≠ l.count - 1 := by bv_omega
      rw [h2, decide_eq_true hne, h1]
      simp only [if_true]
      omega

section Expanded

variable {t : Hashtable} {ll : LinkedList} {lost : Multiset KeyValue}

/-- The comparison of the child's counter before and after tells whether a key is gone. -/
theorem Deleted.flag (h : Deleted x lo D (L + 1) k lost t (delete t k)) :
    (if decide (t.count ≠ (delete t k).count) = true then 1 else 0) +
      ((delete t k).entries.length + lost.card) = t.entries.length := by
  have hcard := lower_card h.lower
  rw [Multiset.card_add, Multiset.coe_card, Multiset.coe_card] at hcard
  have hcount := h.count
  by_cases hc : t.count = (delete t k).count
  · rw [hc] at hcount
    simp only [hc, ne_eq, not_true_eq_false, decide_false, Bool.false_eq_true, if_false]
    omega
  · have hc' : t.count.toNat ≠ (delete t k).count.toNat := fun he => hc (BitVec.eq_of_toNat_eq he)
    simp only [ne_eq, hc, not_false_eq_true, decide_true, if_true]
    omega

/-- The child keeps `MERGE_SIZE` keys or more. -/
theorem deleteBucket_kept (hlo : lo ≤ 6) (hB : BucketOk lo D L (.expanded t ll))
    (h : Deleted x lo D (L + 1) k lost t (delete t k))
    (hm : ¬ (delete t k).count < mergeSize) :
    BucketDeleted x lo D L k lost (.expanded t ll) (deleteBucket (.expanded t ll) k) := by
  cases hB with
  | expanded empty spent depth large small =>
  have hbe : ∀ t₁ : Hashtable, (Bucket.expanded t₁ ll).entries = t₁.entries := fun t₁ => by
    unfold Bucket.entries
    rw [empty, List.nil_append]
  have hr : deleteBucket (.expanded t ll) k =
      (.expanded (delete t k) ll, decide (t.count ≠ (delete t k).count)) := by
    rw [deleteBucket]
    simp only [if_neg hm]
  rw [hr]
  have hge : 6 ≤ (delete t k).count.toNat := by
    have : ¬ (delete t k).count.toNat < 6 := by simpa [BitVec.lt_def] using hm
    omega
  refine ⟨.expanded empty spent depth (hlo.trans hge) fun hlt => absurd hlt (by omega), ?_, ?_, ?_⟩
  · intro t₁ l' he
    cases he
    exact h.ok
  · simp only [hbe]
    exact h.lower
  · simp only [hbe]
    exact h.flag

/-- The child is merged back: its own lists are moved, its own sub-tables are lost. -/
theorem deleteBucket_merged (hB : BucketOk lo D L (.expanded t ll))
    (h : Deleted x lo D (L + 1) k lost t (delete t k)) (hle : t.entries.length ≤ t.count.toNat)
    (hm : (delete t k).count < mergeSize) :
    BucketDeleted x lo D L k (lost + (delete t k).subEntries) (.expanded t ll)
      (deleteBucket (.expanded t ll) k) := by
  cases hB with
  | expanded empty spent depth large small =>
  have hflag := h.flag
  set t' := delete t k with ht'
  have hbe : (Bucket.expanded t ll).entries = t.entries := by
    unfold Bucket.entries
    rw [empty, List.nil_append]
  have hr : deleteBucket (.expanded t ll) k =
      (.list (mergeLists t' ll), decide (t.count ≠ t'.count)) := by
    rw [deleteBucket]
    simp only [← ht', if_pos hm]
  rw [hr]
  obtain ⟨hnodes, hcnt⟩ := mergeLists_spec t' ll
  rw [empty, List.append_nil] at hnodes
  -- what is moved and what is lost make up the child
  have hsplit : (t'.entries : Multiset KeyValue) = t'.ownNodes + t'.subEntries :=
    entries_eq_own_add_sub fun i c l hb => h.ok.here.expanded_empty hb
  have hown : ((mergeLists t' ll).nodes : Multiset KeyValue) = t'.ownNodes :=
    Multiset.coe_eq_coe.mpr hnodes
  have hsub : ∀ e ∈ (mergeLists t' ll).nodes, e ∈ t'.entries := by
    intro e he
    rw [← Multiset.mem_coe, hsplit, Multiset.mem_add]
    exact Or.inl (hown ▸ Multiset.mem_coe.mpr he)
  have hcards := congrArg Multiset.card hsplit
  rw [Multiset.card_add, Multiset.coe_card, Multiset.coe_card] at hcards
  have hlen := hnodes.length_eq
  have hlt : t'.count.toNat < 6 := by simpa [BitVec.lt_def] using hm
  have hle' : t'.keys.length ≤ t'.count.toNat := h.ok.here.keys_le
  rw [Hashtable.keys, length_keysOf] at hle'
  refine ⟨.spent ⟨?_, fun e he => h.ok.values e (hsub e he)⟩ ?_ (by omega) depth,
    fun _ _ he => (by cases he), ?_, ?_⟩
  · have hnd : ((t'.entries : Multiset KeyValue).map KeyValue.key).Nodup := h.ok.keys_nodup
    rw [hsplit, Multiset.map_add, ← hown] at hnd
    exact (Multiset.nodup_add.mp hnd).1
  · obtain ⟨debt, h16, hD, heq⟩ := spent
    refine ⟨debt, h16, hD, ?_⟩
    rw [empty, List.length_nil] at heq
    rw [hcnt, hlen]
    bv_omega
  · rw [hbe]
    have hlower := h.lower
    rw [hsplit] at hlower
    simp only [Bucket.entries]
    rw [hown, add_comm lost, ← add_assoc]
    exact hlower
  · rw [hbe]
    simp only [Bucket.entries, Multiset.card_add]
    omega

/-- **The expanded branch of `delete`**, given what the recursive call does. -/
theorem deleteBucket_expanded (hlo : lo ≤ 6) (hB : BucketOk lo D L (.expanded t ll))
    (h : Deleted x lo D (L + 1) k lost t (delete t k)) (hle : t.entries.length ≤ t.count.toNat) :
    BucketDeleted x lo D L k
      (lost + if (delete t k).count < mergeSize then (delete t k).subEntries else 0)
      (.expanded t ll) (deleteBucket (.expanded t ll) k) := by
  by_cases hm : (delete t k).count < mergeSize
  · rw [if_pos hm]
    exact deleteBucket_merged hB h hle hm
  · rw [if_neg hm, add_zero]
    exact deleteBucket_kept hlo hB h hm

end Expanded

/-- **`delete` on a well-formed table** takes one occurrence of the key out, apart from the
entries it destroys, and keeps the table well-formed. -/
theorem delete_spec (hlo : lo ≤ 6) (hD : D < 2 ^ 61) {t : Hashtable} (ht : TableOk x lo D L t)
    (hx : x → t.lostBy k = 0) : Deleted x lo D L k (t.lostBy k) t (delete t k) := by
  induction ht with
  | @node L t here below ih =>
    obtain ⟨c, l, s, b⟩ := t
    have ht : TableOk x lo D L (.mk c l s b) := .node here below
    have hbucket : BucketDeleted x lo D L k ((b (bucketIndex k s)).lostBy k)
        (b (bucketIndex k s)) (deleteBucket (b (bucketIndex k s)) k) := by
      have hok := here.bucket (bucketIndex k s)
      unfold Hashtable.lostBy at hx
      rw [Hashtable.bucket_mk] at hok
      cases hb : b (bucketIndex k s) with
      | list ll =>
        rw [hb] at hok
        exact sllRemove_spec hD hok x
      | expanded t ll =>
        rw [hb] at hok hx
        have hle := (below _ t ll hb).here.keys_le
        rw [Hashtable.keys, length_keysOf] at hle
        refine deleteBucket_expanded hlo hok (ih _ t ll hb fun h => ?_) hle
        have h0 := hx h
        unfold Bucket.lostBy at h0
        exact (add_eq_zero.mp h0).1
    set B := b (bucketIndex k s) with hB
    set r := deleteBucket B k with hr
    have hlost : (Hashtable.mk c l s b).lostBy k = B.lostBy k := by rw [Hashtable.lostBy]
    have hold := Hashtable.length_keys (Hashtable.mk c l s b) (bucketIndex k s)
    have hle := here.keys_le
    have hcle := here.count_le
    simp only [Hashtable.bucket_mk, ← hB, Hashtable.count_mk] at hold hle hcle
    have hch := hbucket.changed
    have hc : (if r.2 then c - 1 else c).toNat = c.toNat - if r.2 then 1 else 0 := by
      cases hr2 : r.2 with
      | false => rfl
      | true =>
        rw [hr2] at hch
        simp only [if_true] at hch ⊢
        bv_omega
    obtain ⟨p, hp⟩ := here.agree
    have hsub : ∀ k' ∈ r.1.keys, k' ∈ B.keys := by
      intro k' hk'
      refine hbucket.lower.mem_keys ?_
      rw [Multiset.map_add, Multiset.mem_add]
      exact Or.inl hk'
    rw [delete_mk, ← hB, ← hr, hlost]
    rw [hlost] at hx
    refine ⟨ht.update le_rfl hp hbucket.ok hbucket.below (fun k' hk' => ?_) ?_ (fun h => ?_) ?_,
      ?_, ?_⟩
    · have hk'' : k' ∈ B.keys := hsub k' hk'
      exact ⟨here.routed _ k' hk'', hp k' (Hashtable.mem_keys.mpr ⟨_, hk''⟩)⟩
    · rw [hc]
      omega
    · have h0 := hx h
      have he := here.exact h
      simp only [Hashtable.count_mk] at he
      rw [h0, Multiset.card_zero] at hch
      rw [hc]
      omega
    · rw [hc]
      omega
    · rw [Hashtable.entries_split _ (bucketIndex k s), Hashtable.entries_split
        (Hashtable.mk _ _ _ _) (bucketIndex k s), Hashtable.rest_update c, Hashtable.bucket_mk,
        Hashtable.bucket_mk, Function.update_self, ← hB, add_right_comm]
      exact hbucket.lower.add (here.not_mem_rest k)
    · have hnew := Hashtable.length_keys (Hashtable.mk (if r.2 then c - 1 else c) l s
        (Function.update b (bucketIndex k s) r.1)) (bucketIndex k s)
      rw [Hashtable.rest_update c, Hashtable.bucket_mk, Function.update_self, Hashtable.keys,
        length_keysOf] at hnew
      rw [Hashtable.keys, length_keysOf] at hold hle
      rw [Hashtable.count_mk, Hashtable.count_mk, hc]
      omega

end Delete

/-! ## When `delete` destroys an entry -/

theorem multiplicity_eq_total (t : Hashtable) (k : Ull) :
    t.multiplicity k = total KeyValue.key KeyValue.num (t.entries : Multiset KeyValue) k := by
  have hf : (t.entries.filter fun e => e.key == k) = t.entries.filter fun e => e.key = k :=
    List.filter_congr fun _ _ => rfl
  unfold Hashtable.multiplicity total
  rw [hf, Multiset.filter_coe, Multiset.map_coe, Multiset.sum_coe]

/-- The counter falls by one exactly when the key was stored for the last time. -/
theorem Deleted.count_eq {x : Prop} {lo D L : ℕ} {k : Ull} {lost : Multiset KeyValue}
    {t t' : Hashtable} (h : Deleted x lo D L k lost t t') (hnd : t.keys.Nodup) :
    t.count.toNat = t'.count.toNat + if t.multiplicity k = 1 then 1 else 0 := by
  have hc := h.count
  have hcard := h.lower.card (Multiset.coe_nodup.mpr hnd)
  rw [← multiplicity_eq_total, Multiset.card_add, Multiset.coe_card, Multiset.coe_card] at hcard
  omega

theorem subEntries_eq_zero {t : Hashtable} (h : ∀ i, (t.bucket i).isExpanded = false) :
    t.subEntries = 0 := by
  unfold Hashtable.subEntries
  refine Finset.sum_eq_zero fun i _ => ?_
  have := h i
  cases hb : t.bucket i with
  | list l => rfl
  | expanded c l =>
    rw [hb] at this
    cases this

theorem length_entries_le {x : Prop} {lo D L : ℕ} {t : Hashtable} (h : NodeOk x lo D L t)
    {i : Fin tableSize} {c : Hashtable} {l : LinkedList} (hb : t.bucket i = .expanded c l) :
    c.entries.length ≤ t.entries.length := by
  have := Hashtable.length_keys t i
  rw [h.entries_expanded hb, Hashtable.keys, length_keysOf] at this
  omega

/-- A bucket that is expanded after `delete` was expanded before, with at least `MERGE_SIZE` keys
left on the path of the key. -/
theorem deleteBucket_isExpanded {B : Bucket} {k : Ull}
    (h : (deleteBucket B k).1.isExpanded = true) : ∃ t l, B = .expanded t l ∧
      (deleteBucket B k).1 = .expanded (delete t k) l ∧ 6 ≤ (delete t k).count.toNat := by
  cases B with
  | list l =>
    rw [deleteBucket] at h
    cases h
  | expanded t l =>
    rw [deleteBucket] at h ⊢
    by_cases hm : (delete t k).count < mergeSize
    · rw [if_pos hm] at h
      cases h
    · refine ⟨t, l, rfl, by rw [if_neg hm], ?_⟩
      have : ¬ (delete t k).count.toNat < 6 := by simpa [BitVec.lt_def] using hm
      omega

theorem delete_bucket_self (t : Hashtable) (k : Ull) :
    (delete t k).bucket (bucketIndex k t.shifts) =
      (deleteBucket (t.bucket (bucketIndex k t.shifts)) k).1 := by
  obtain ⟨c, l, s, b⟩ := t
  rw [delete_mk, Hashtable.bucket_mk, Hashtable.shifts_mk, Function.update_self]
  rfl

theorem delete_bucket_of_ne (t : Hashtable) (k : Ull) {j : Fin tableSize}
    (hj : j ≠ bucketIndex k t.shifts) : (delete t k).bucket j = t.bucket j := by
  obtain ⟨c, l, s, b⟩ := t
  rw [Hashtable.shifts_mk] at hj
  rw [delete_mk, Hashtable.bucket_mk, Function.update_of_ne hj]
  rfl

theorem Hashtable.Flat.delete {t : Hashtable} (h : t.Flat) (k : Ull) (i : Fin tableSize) :
    ((delete t k).bucket i).isExpanded = false := by
  by_cases hi : i = bucketIndex k t.shifts
  · subst hi
    rw [delete_bucket_self]
    cases he : (deleteBucket (t.bucket (bucketIndex k t.shifts)) k).1.isExpanded with
    | false => rfl
    | true =>
      obtain ⟨c, l, hb, -⟩ := deleteBucket_isExpanded he
      obtain ⟨l', hl, -⟩ := h (bucketIndex k t.shifts)
      rw [hb] at hl
      cases hl
  · rw [delete_bucket_of_ne t k hi]
    obtain ⟨l, hl, -⟩ := h i
    rw [hl]
    rfl

/-- The test of `loses` at one child. -/
theorem loses_here_iff {t : Hashtable} {k : Ull} :
    (t.count == mergeSize && t.multiplicity k == 1 &&
      (List.finRange tableSize).any fun j =>
        j != bucketIndex k t.shifts && (t.bucket j).isExpanded) = true ↔
    t.count.toNat = 6 ∧ t.multiplicity k = 1 ∧
      ∃ j, j ≠ bucketIndex k t.shifts ∧ (t.bucket j).isExpanded = true := by
  have h6 : t.count = mergeSize ↔ t.count.toNat = 6 :=
    ⟨fun h => by rw [h]; rfl, fun h => BitVec.eq_of_toNat_eq h⟩
  simp only [Bool.and_eq_true, beq_iff_eq, h6, List.any_eq_true, List.mem_finRange, true_and,
    bne_iff_ne, and_assoc]

/-- **The merge of one child destroys nothing** iff the child does not hold exactly `MERGE_SIZE`
keys, the deleted one for the last time, next to an expanded bucket off the path. -/
theorem merge_lossless_iff {lo D L : ℕ} (hlo : 1 ≤ lo) {k : Ull} {t : Hashtable}
    (ht : TableOk True lo D L t) (hdel : Deleted True lo D L k 0 t (delete t k))
    (hsmall : t.count.toNat < 6 → t.Flat) :
    (if (delete t k).count < mergeSize then (delete t k).subEntries else 0) = 0 ↔
      ¬ (t.count.toNat = 6 ∧ t.multiplicity k = 1 ∧
        ∃ j, j ≠ bucketIndex k t.shifts ∧ (t.bucket j).isExpanded = true) := by
  have hcount := hdel.count_eq ht.keys_nodup
  have hlt : (delete t k).count < mergeSize ↔ (delete t k).count.toNat < 6 := by
    rw [BitVec.lt_def]
    rfl
  simp only [hlt]
  constructor
  · rintro hzero ⟨h6, h1, j, hj, hexp⟩
    rw [h1, if_pos rfl] at hcount
    rw [if_pos (by omega)] at hzero
    cases hb : t.bucket j with
    | list l =>
      rw [hb] at hexp
      cases hexp
    | expanded c l =>
      have hok := ht.here.bucket j
      rw [hb] at hok
      cases hok with
      | expanded _ _ _ large _ =>
        have hexact := (ht.child hb).here.exact trivial
        have hterm := (Finset.sum_eq_zero_iff.mp hzero) j (Finset.mem_univ j)
        rw [delete_bucket_of_ne t k hj, hb] at hterm
        have hnil : c.entries = [] := by simpa using hterm
        rw [Hashtable.keys, length_keysOf, hnil, List.length_nil] at hexact
        omega
  · intro hnot
    split
    · rename_i hmerge
      apply subEntries_eq_zero
      by_cases hsm : t.count.toNat < 6
      · exact (hsmall hsm).delete k
      · have h1 : t.multiplicity k = 1 := by
          by_contra hne
          rw [if_neg hne] at hcount
          omega
        rw [if_pos h1] at hcount
        intro i
        by_cases hi : i = bucketIndex k t.shifts
        · cases he : ((delete t k).bucket i).isExpanded with
          | false => rfl
          | true =>
            rw [hi, delete_bucket_self] at he
            obtain ⟨c, l, -, hr, h6⟩ := deleteBucket_isExpanded he
            have hb : (delete t k).bucket (bucketIndex k t.shifts) = .expanded (delete c k) l := by
              rw [delete_bucket_self, hr]
            have hle := length_entries_le hdel.ok.here hb
            have e1 := (hdel.ok.child hb).here.exact trivial
            have e2 := hdel.ok.here.exact trivial
            rw [Hashtable.keys, length_keysOf] at e1 e2
            omega
        · rw [delete_bucket_of_ne t k hi]
          cases he : (t.bucket i).isExpanded with
          | false => rfl
          | true => exact absurd ⟨by omega, h1, i, hi, he⟩ hnot
    · rfl

/-- **With exact counters, `delete` destroys no entry iff the table does not satisfy `loses`.** -/
theorem lostBy_eq_zero_iff {lo D L : ℕ} (hlo : 1 ≤ lo) (hlo' : lo ≤ 6) (hD : D < 2 ^ 61) {k : Ull}
    {t : Hashtable} (ht : TableOk True lo D L t) : t.lostBy k = 0 ↔ t.loses k = false := by
  induction ht with
  | @node L t here below ih =>
    obtain ⟨c, l, s, b⟩ := t
    unfold Hashtable.lostBy Hashtable.loses
    cases hb : b (bucketIndex k s) with
    | list ll => simp [Bucket.lostBy, Bucket.loses]
    | expanded t ll =>
      have hok := here.bucket (bucketIndex k s)
      rw [Hashtable.bucket_mk, hb] at hok
      have htk : TableOk True lo D (L + 1) t := below _ t ll hb
      unfold Bucket.lostBy Bucket.loses
      rw [add_eq_zero, Bool.or_eq_false_iff, ← ih _ t ll hb]
      refine and_congr_right fun h0 => ?_
      have hdel := delete_spec hlo' hD htk fun _ => h0
      rw [h0] at hdel
      rw [← Bool.not_eq_true, loses_here_iff]
      cases hok with
      | expanded _ _ _ _ small => exact merge_lossless_iff hlo htk hdel small

/-- **When every child holds at least `MERGE_SIZE` keys, no `delete` loses one.** -/
theorem not_loses_of_large {D L : ℕ} {k : Ull} {t : Hashtable} (ht : TableOk True 6 D L t) :
    t.loses k = false := by
  induction ht with
  | @node L t here below ih =>
    obtain ⟨c, l, s, b⟩ := t
    unfold Hashtable.loses
    cases hb : b (bucketIndex k s) with
    | list ll => rw [Bucket.loses]
    | expanded t ll =>
      unfold Bucket.loses
      rw [ih _ t ll hb, Bool.false_or, ← Bool.not_eq_true, loses_here_iff]
      rintro ⟨h6, h1, j, hj, hexp⟩
      have htk : TableOk True 6 D (L + 1) t := below _ t ll hb
      cases hbj : t.bucket j with
      | list ll =>
        rw [hbj] at hexp
        cases hexp
      | expanded c ll =>
        -- the expanded bucket holds six keys, and the deleted key is outside it
        have hok := htk.here.bucket j
        rw [hbj] at hok
        cases hok with
        | expanded _ _ _ large _ =>
          have hc := (htk.child hbj).here.exact trivial
          have ht := htk.here.exact trivial
          have hlen := Hashtable.length_keys t j
          rw [htk.here.entries_expanded hbj] at hlen
          rw [Hashtable.keys, length_keysOf] at hc
          have hmem : k ∈ t.keys := by
            by_contra hk
            rw [multiplicity_eq_total, total_eq_zero hk] at h1
            omega
          have hrest : 0 < (t.rest j).card := by
            rw [Multiset.card_pos_iff_exists_mem]
            obtain ⟨e, he, hek⟩ := mem_keysOf.mp (htk.here.mem_bucket hmem)
            exact ⟨e, Multiset.mem_sum.mpr ⟨bucketIndex k t.shifts,
              Finset.mem_erase.mpr ⟨hj.symm, Finset.mem_univ _⟩, Multiset.mem_coe.mpr he⟩⟩
          omega

end C380.Valws
