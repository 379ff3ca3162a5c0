import Mathlib.Algebra.BigOperators.Fin
import Mathlib.Algebra.Order.BigOperators.Group.Multiset
import C380.Lib.CountedBag
import C380.Valws.Hashtable

/-!
# The invariant of the radix table

`Everywhere T L t` says that `T` holds of the table `t` at depth `L` and of every table below it
at its own depth. The invariant of the hash table is `Everywhere (NodeOk x lo D)`:

* `NodeOk` is what one table keeps: its level and shift follow from its depth, which is at most
  15; keys are routed by their nibble; the counter is at least the number of keys below (equal to
  it when `x` holds).
* `BucketOk` is what one bucket keeps. `sll_pop` takes two off the counter of a list for every
  node it pops, so the counter of a list that was split once stays below zero, wrapped:
  `Spent` says by how much. An unexpanded bucket is *fresh* (the counter is the length) or *spent*
  (it was split and merged back, and has at most five nodes).
* `lo` is a lower bound on the counter of a child table, `D` the number of `put` calls so far,
  which bounds the values, the counters and the wrapped debts.

A child with fewer than `MERGE_SIZE` keys is `Flat`: no delete has reached it, so none of its
buckets was ever split. `TableOk.update` replaces one bucket of a table.
-/

namespace C380.Valws

open CountedBag

/-- The value of a node as a number. -/
abbrev KeyValue.num (e : KeyValue) : ℕ := e.value.toNat

/-! ## Routing -/

/-- The bucket index at depth `L` is the `L`-th nibble of the key. -/
theorem bucketIndex_val {key shifts : Ull} {L : ℕ} (h : shifts.toNat = 4 * L) :
    (bucketIndex key shifts).val = key.toNat / 16 ^ L % 16 := by
  have hmask : hashMask.toNat = 2 ^ 4 - 1 := rfl
  simp only [bucketIndex, BitVec.toNat_and, hmask, Nat.and_two_pow_sub_one_eq_mod]
  rw [BitVec.ushiftRight_eq', BitVec.toNat_ushiftRight, h, Nat.shiftRight_eq_div_pow,
    Nat.pow_mul]

/-- Two keys that agree below depth `L` and in the nibble of depth `L` agree below `L + 1`. -/
theorem agree_succ {a b L : ℕ} (h : a % 16 ^ L = b % 16 ^ L)
    (hd : a / 16 ^ L % 16 = b / 16 ^ L % 16) : a % 16 ^ (L + 1) = b % 16 ^ (L + 1) := by
  rw [Nat.pow_succ, Nat.mod_mul, Nat.mod_mul, h, hd]

/-- Keys that agree in all sixteen nibbles are equal. -/
theorem eq_of_agree {a b : Ull} (h : a.toNat % 16 ^ 16 = b.toNat % 16 ^ 16) : a = b := by
  apply BitVec.eq_of_toNat_eq
  have ha := a.isLt
  have hb := b.isLt
  omega

/-! ## The entries of a table, one bucket against the rest -/

namespace Hashtable

/-- The entries outside bucket `i`. -/
def rest (t : Hashtable) (i : Fin tableSize) : Multiset KeyValue :=
  ∑ j ∈ Finset.univ.erase i, ((t.bucket j).entries : Multiset KeyValue)

theorem entries_sum (t : Hashtable) :
    (t.entries : Multiset KeyValue) = ∑ j, ((t.bucket j).entries : Multiset KeyValue) := by
  obtain ⟨c, l, s, b⟩ := t
  rw [Fin.sum_univ_def]
  simp only [entries, bucket_mk]
  induction List.finRange tableSize with
  | nil => rfl
  | cons i is ih =>
    rw [List.flatMap_cons, ← Multiset.coe_add, ih, List.map_cons, List.sum_cons]

theorem entries_split (t : Hashtable) (i : Fin tableSize) :
    (t.entries : Multiset KeyValue) = (t.bucket i).entries + t.rest i := by
  rw [entries_sum, ← Finset.add_sum_erase _ _ (Finset.mem_univ i)]
  rfl

@[simp] theorem rest_update (c c' l s : Ull) (b : Fin tableSize → Bucket) (i : Fin tableSize)
    (B : Bucket) : (mk c' l s (Function.update b i B)).rest i = (mk c l s b).rest i := by
  unfold rest
  refine Finset.sum_congr rfl fun j hj => ?_
  rw [bucket_mk, bucket_mk, Function.update_of_ne (Finset.ne_of_mem_erase hj)]

theorem mem_entries {t : Hashtable} {e : KeyValue} :
    e ∈ t.entries ↔ ∃ i, e ∈ (t.bucket i).entries := by
  obtain ⟨c, l, s, b⟩ := t
  simp [entries]

theorem mem_keys {t : Hashtable} {k : Ull} : k ∈ t.keys ↔ ∃ i, k ∈ (t.bucket i).keys := by
  simp only [keys, Bucket.keys, mem_keysOf, mem_entries]
  constructor
  · rintro ⟨e, ⟨i, he⟩, hk⟩
    exact ⟨i, e, he, hk⟩
  · rintro ⟨i, e, he, hk⟩
    exact ⟨e, ⟨i, he⟩, hk⟩

theorem length_keys (t : Hashtable) (i : Fin tableSize) :
    t.keys.length = (t.bucket i).entries.length + (t.rest i).card := by
  have h := congrArg Multiset.card (t.entries_split i)
  rw [Multiset.card_add, Multiset.coe_card, Multiset.coe_card] at h
  unfold keys
  rw [length_keysOf, h]

theorem coe_keys (t : Hashtable) :
    (t.keys : Multiset Ull) = (t.entries : Multiset KeyValue).map KeyValue.key := rfl

/-- Every key is in the bucket that its table looks for it in. -/
def Routed (t : Hashtable) : Prop :=
  ∀ i, ∀ k ∈ (t.bucket i).keys, bucketIndex k t.shifts = i

/-- The bucket of `k` holds the key if the table does. -/
theorem Routed.mem_bucket {t : Hashtable} (h : t.Routed) {k : Ull} (hk : k ∈ t.keys) :
    k ∈ (t.bucket (bucketIndex k t.shifts)).keys := by
  obtain ⟨i, hi⟩ := mem_keys.mp hk
  rwa [h i k hi]

/-- The rest of the table does not hold a key of its bucket. -/
theorem Routed.not_mem_rest {t : Hashtable} (h : t.Routed) (k : Ull) :
    k ∉ (t.rest (bucketIndex k t.shifts)).map KeyValue.key := by
  intro hk
  obtain ⟨e, he, rfl⟩ := Multiset.mem_map.mp hk
  obtain ⟨j, hj, hej⟩ := Multiset.mem_sum.mp he
  have hr := h j e.key (mem_keysOf.mpr ⟨e, Multiset.mem_coe.mp hej, rfl⟩)
  exact Finset.ne_of_mem_erase hj hr.symm

end Hashtable

theorem Bucket.coe_keys (b : Bucket) :
    (b.keys : Multiset Ull) = (b.entries : Multiset KeyValue).map KeyValue.key := rfl

/-! ## The invariant -/

/-- `T` holds of the table at depth `L` and of every table below it. -/
inductive Everywhere (T : ℕ → Hashtable → Prop) : ℕ → Hashtable → Prop
  | node {L : ℕ} {t : Hashtable} (here : T L t)
      (children : ∀ i c l, t.bucket i = .expanded c l → Everywhere T (L + 1) c) : Everywhere T L t

section

variable {T T' : ℕ → Hashtable → Prop} {L : ℕ} {t : Hashtable}

theorem Everywhere.here (h : Everywhere T L t) : T L t := by
  cases h with
  | node here _ => exact here

theorem Everywhere.child (h : Everywhere T L t) {i : Fin tableSize} {c : Hashtable}
    {l : LinkedList} (hb : t.bucket i = .expanded c l) : Everywhere T (L + 1) c := by
  cases h with
  | node _ children => exact children i c l hb

theorem Everywhere.mono (himp : ∀ L t, T L t → T' L t) (h : Everywhere T L t) :
    Everywhere T' L t := by
  induction h with
  | node here _ ih => exact .node (himp _ _ here) ih

end

/-- Every bucket is an unexpanded list whose counter is its length. -/
def Hashtable.Flat (t : Hashtable) : Prop :=
  ∀ i, ∃ l, t.bucket i = .list l ∧ l.count.toNat = l.nodes.length

/-- The keys of a list are distinct and its values between 1 and `D`. -/
structure ListOk (D : ℕ) (l : LinkedList) : Prop where
  nodup : (keysOf l.nodes).Nodup
  values : ∀ e ∈ l.nodes, 1 ≤ e.num ∧ e.num ≤ D

/-- The counter of a list that was split lies below its length by the nodes popped so far, and
has wrapped. -/
def Spent (D : ℕ) (l : LinkedList) : Prop :=
  ∃ debt, 16 ≤ debt ∧ debt ≤ 6 * D + 10 ∧ l.count.toNat + debt = 2 ^ 64 + l.nodes.length

/-- What one bucket of a table at depth `L` keeps. -/
inductive BucketOk (lo D L : ℕ) : Bucket → Prop
  | fresh {l : LinkedList} (list : ListOk D l) (count : l.count.toNat = l.nodes.length)
      (short : l.nodes.length ≤ 15) : BucketOk lo D L (.list l)
  | spent {l : LinkedList} (list : ListOk D l) (spent : Spent D l) (short : l.nodes.length ≤ 5)
      (depth : L < 15) : BucketOk lo D L (.list l)
  | expanded {c : Hashtable} {l : LinkedList} (empty : l.nodes = []) (spent : Spent D l)
      (depth : L < 15) (large : lo ≤ c.count.toNat) (small : c.count.toNat < 6 → c.Flat) :
      BucketOk lo D L (.expanded c l)

/-- What one table at depth `L` keeps after `D` calls of `put`. The counter is exact when `x`
holds. -/
structure NodeOk (x : Prop) (lo D L : ℕ) (t : Hashtable) : Prop where
  depth : L ≤ 15
  level : t.level.toNat = L
  shifts : t.shifts.toNat = 4 * L
  agree : ∃ p, ∀ k ∈ t.keys, k.toNat % 16 ^ L = p
  routed : ∀ i, ∀ k ∈ (t.bucket i).keys, bucketIndex k t.shifts = i
  bucket : ∀ i, BucketOk lo D L (t.bucket i)
  keys_le : t.keys.length ≤ t.count.toNat
  exact : x → t.keys.length = t.count.toNat
  count_le : t.count.toNat ≤ D + 15

/-- The invariant of a table at depth `L`. -/
abbrev TableOk (x : Prop) (lo D L : ℕ) (t : Hashtable) : Prop := Everywhere (NodeOk x lo D) L t

section Mono

variable {x : Prop} {lo lo' D D' L : ℕ}

theorem ListOk.mono {l : LinkedList} (h : ListOk D l) (hD : D ≤ D') : ListOk D' l :=
  ⟨h.nodup, fun e he => ⟨(h.values e he).1, (h.values e he).2.trans hD⟩⟩

theorem Spent.mono {l : LinkedList} (h : Spent D l) (hD : D ≤ D') : Spent D' l := by
  obtain ⟨debt, h1, h2, h3⟩ := h
  exact ⟨debt, h1, by omega, h3⟩

theorem BucketOk.mono {B : Bucket} (h : BucketOk lo D L B) (hD : D ≤ D') (hlo : lo' ≤ lo) :
    BucketOk lo' D' L B := by
  cases h with
  | fresh list count short => exact .fresh (list.mono hD) count short
  | spent list spent short depth => exact .spent (list.mono hD) (spent.mono hD) short depth
  | expanded empty spent depth large small =>
    exact .expanded empty (spent.mono hD) depth (hlo.trans large) small

theorem TableOk.mono {t : Hashtable} (h : TableOk x lo D L t) (hD : D ≤ D') (hlo : lo' ≤ lo)
    {x' : Prop} (hx : x' → x) : TableOk x' lo' D' L t :=
  Everywhere.mono (fun _ _ n =>
    { n with
      bucket := fun i => (n.bucket i).mono hD hlo
      exact := fun hx' => n.exact (hx hx')
      count_le := by have := n.count_le; omega }) h

end Mono

/-! ## Consequences -/

section Consequences

variable {x : Prop} {lo D L : ℕ} {t : Hashtable}

theorem NodeOk.shifts_lt (h : NodeOk x lo D L t) : t.shifts.toNat < 64 := by
  have := h.depth
  have := h.shifts
  omega

/-- The bucket of `i` holds every key that routes to `i`. -/
theorem NodeOk.mem_bucket (h : NodeOk x lo D L t) {k : Ull} (hk : k ∈ t.keys) :
    k ∈ (t.bucket (bucketIndex k t.shifts)).keys :=
  Hashtable.Routed.mem_bucket h.routed hk

/-- The rest of the table does not hold a key that routes to `i`. -/
theorem NodeOk.not_mem_rest (h : NodeOk x lo D L t) (k : Ull) :
    k ∉ (t.rest (bucketIndex k t.shifts)).map KeyValue.key :=
  Hashtable.Routed.not_mem_rest h.routed k

/-- The keys of an expanded bucket are those of its table. -/
theorem NodeOk.entries_expanded (h : NodeOk x lo D L t) {i : Fin tableSize} {c : Hashtable}
    {l : LinkedList} (hb : t.bucket i = .expanded c l) : (t.bucket i).entries = c.entries := by
  have hok := h.bucket i
  rw [hb] at hok ⊢
  cases hok with
  | expanded empty _ _ _ _ => rw [Bucket.entries, empty, List.nil_append]

/-- Below the bucket of `k` every key agrees with `k` one nibble further. -/
theorem NodeOk.agree_child (h : NodeOk x lo D L t) {k : Ull} {c : Hashtable} {l : LinkedList}
    (hb : t.bucket (bucketIndex k t.shifts) = .expanded c l)
    (hagree : ∀ k' ∈ t.keys, k'.toNat % 16 ^ L = k.toNat % 16 ^ L) :
    ∀ k' ∈ c.keys, k'.toNat % 16 ^ (L + 1) = k.toNat % 16 ^ (L + 1) := by
  intro k' hk'
  have hmem : k' ∈ (t.bucket (bucketIndex k t.shifts)).keys := by
    unfold Bucket.keys
    rw [h.entries_expanded hb]
    exact hk'
  refine agree_succ (hagree k' (Hashtable.mem_keys.mpr ⟨_, hmem⟩)) ?_
  rw [← bucketIndex_val h.shifts, ← bucketIndex_val h.shifts, h.routed _ k' hmem]

/-- **No key is stored twice.** -/
theorem TableOk.keys_nodup (h : TableOk x lo D L t) : t.keys.Nodup := by
  induction h with
  | @node L t here _ ih =>
    have hbucket : ∀ i, (t.bucket i).keys.Nodup := by
      intro i
      have hok := here.bucket i
      cases hb : t.bucket i with
      | list l =>
        rw [hb] at hok
        cases hok with
        | fresh list _ _ => exact list.nodup
        | spent list _ _ _ => exact list.nodup
      | expanded c l =>
        have he := here.entries_expanded hb
        rw [hb] at he
        unfold Bucket.keys
        rw [he]
        exact ih i c l hb
    have hmap : t.keys = (List.finRange tableSize).flatMap fun i => (t.bucket i).keys := by
      obtain ⟨c, l, s, b⟩ := t
      simp only [Hashtable.keys, Hashtable.entries, keysOf, List.map_flatMap]
      rfl
    rw [hmap, List.nodup_flatMap]
    refine ⟨fun i _ => hbucket i, (List.nodup_finRange _).imp fun {i j} hij => ?_⟩
    intro k hki hkj
    exact hij ((here.routed i k hki).symm.trans (here.routed j k hkj))

theorem TableOk.values (h : TableOk x lo D L t) : ∀ e ∈ t.entries, 1 ≤ e.num ∧ e.num ≤ D := by
  induction h with
  | @node L t here _ ih =>
    intro e he
    obtain ⟨i, hi⟩ := Hashtable.mem_entries.mp he
    have hok := here.bucket i
    cases hb : t.bucket i with
    | list l =>
      rw [hb] at hok hi
      cases hok with
      | fresh list _ _ => exact list.values e hi
      | spent list _ _ _ => exact list.values e hi
    | expanded c l =>
      rw [here.entries_expanded hb] at hi
      exact ih i c l hb e hi

end Consequences

/-! ## Replacing one bucket -/

/-- **One bucket of a table replaced**: the table keeps its invariant when the new bucket is
well-formed, its keys route to it and agree with the table's prefix `p`, and the new counter
counts them. -/
theorem TableOk.update {x : Prop} {lo D D' L : ℕ} {c c' l s : Ull} {b : Fin tableSize → Bucket}
    (h : TableOk x lo D L (.mk c l s b)) (hD : D ≤ D') {i : Fin tableSize} {B : Bucket} {p : ℕ}
    (hp : ∀ k ∈ (Hashtable.mk c l s b).keys, k.toNat % 16 ^ L = p)
    (hB : BucketOk lo D' L B)
    (hbelow : ∀ t l', B = .expanded t l' → TableOk x lo D' (L + 1) t)
    (hkeys : ∀ k ∈ B.keys, bucketIndex k s = i ∧ k.toNat % 16 ^ L = p)
    (hle : B.entries.length + ((Hashtable.mk c l s b).rest i).card ≤ c'.toNat)
    (hx : x → B.entries.length + ((Hashtable.mk c l s b).rest i).card = c'.toNat)
    (hc : c'.toNat ≤ D' + 15) :
    TableOk x lo D' L (.mk c' l s (Function.update b i B)) := by
  have hn := h.here
  have hlen : (Hashtable.mk c' l s (Function.update b i B)).keys.length =
      B.entries.length + ((Hashtable.mk c l s b).rest i).card := by
    rw [Hashtable.length_keys _ i, Hashtable.rest_update c, Hashtable.bucket_mk,
      Function.update_self]
  -- a key of the new table is a key of the new bucket or of an old one
  have hcase : ∀ j, ∀ k ∈ (Function.update b i B j).keys,
      (j = i ∧ k ∈ B.keys) ∨ (j ≠ i ∧ k ∈ (b j).keys) := by
    intro j k hk
    by_cases hj : j = i
    · subst hj
      rw [Function.update_self] at hk
      exact Or.inl ⟨rfl, hk⟩
    · rw [Function.update_of_ne hj] at hk
      exact Or.inr ⟨hj, hk⟩
  refine .node ⟨hn.depth, hn.level, hn.shifts, ⟨p, fun k hk => ?_⟩, fun j k hk => ?_,
    fun j => ?_, by rw [hlen]; exact hle, fun hx' => by rw [hlen]; exact hx hx', hc⟩ ?_
  · obtain ⟨j, hj⟩ := Hashtable.mem_keys.mp hk
    rcases hcase j k hj with ⟨-, hk⟩ | ⟨-, hk⟩
    · exact (hkeys k hk).2
    · exact hp k (Hashtable.mem_keys.mpr ⟨j, hk⟩)
  · rcases hcase j k hk with ⟨hj, hk'⟩ | ⟨-, hk'⟩
    · exact hj ▸ (hkeys k hk').1
    · exact hn.routed j k hk'
  · by_cases hj : j = i
    · subst hj
      rw [Hashtable.bucket_mk, Function.update_self]
      exact hB
    · rw [Hashtable.bucket_mk, Function.update_of_ne hj]
      exact (hn.bucket j).mono hD le_rfl
  · intro j t l' hb
    by_cases hj : j = i
    · subst hj
      rw [Hashtable.bucket_mk, Function.update_self] at hb
      exact hbelow t l' hb
    · rw [Hashtable.bucket_mk, Function.update_of_ne hj] at hb
      exact TableOk.mono (h.child hb) hD le_rfl id

/-! ## The empty table -/

theorem entries_newHashtable (level : Ull) : (_newHashtable level).entries = [] := by
  simp [_newHashtable, Hashtable.entries, Bucket.entries, newLinkedList]

theorem shifts_newHashtable {level : Ull} (h : level.toNat ≤ 15) :
    (_newHashtable level).shifts.toNat = 4 * level.toNat := by
  have h4 : getPowerOfTwo tableSize = 4 := by decide
  simp only [_newHashtable, Hashtable.shifts_mk, h4]
  bv_omega

theorem flat_newHashtable (level : Ull) : (_newHashtable level).Flat :=
  fun _ => ⟨newLinkedList, rfl, rfl⟩

/-- **`_new_hashtable` builds a well-formed table.** -/
theorem tableOk_new (x : Prop) (lo D : ℕ) {L : ℕ} {level : Ull} (hl : level.toNat = L)
    (hL : L ≤ 15) : TableOk x lo D L (_newHashtable level) := by
  have hkeys : (_newHashtable level).keys = [] := by
    rw [Hashtable.keys, entries_newHashtable, keysOf_nil]
  refine .node ⟨hL, hl, hl ▸ shifts_newHashtable (hl ▸ hL), ⟨0, ?_⟩, ?_, ?_, ?_, ?_, ?_⟩ ?_
  · rw [hkeys]
    exact fun k hk => absurd hk List.not_mem_nil
  · exact fun i k hk => absurd hk List.not_mem_nil
  · exact fun i => .fresh ⟨List.nodup_nil, fun e he => absurd he List.not_mem_nil⟩ rfl
      (Nat.zero_le _)
  · rw [hkeys]
    exact Nat.zero_le _
  · rw [hkeys]
    exact fun _ => rfl
  · exact Nat.zero_le _
  · intro i c l hb
    simp [_newHashtable] at hb

end C380.Valws
