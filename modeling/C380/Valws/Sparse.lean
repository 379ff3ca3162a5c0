import Mathlib.Data.Set.Card
import C380.Valws.Canonical
import C380.Valws.Windowset

/-!
# Traces that never lose a page

`getWindowSetSize` may be wrong after a merge, so its correctness asks that no `delete` of the run
`loses`. That is a condition on the table. These are two on the trace alone:

* `runLossless_of_short`: the window is at least as long as the trace, so nothing is deleted.
* `runLossless_of_sparse`: **at most `SPLIT_SIZE` pages of the trace share their low four bits**
  (`Sparse`), so no bucket is ever split, whatever the window. Every trace of at most 15 distinct
  pages is one.

`Hashtable.Flat` is the invariant of a table that was never split: sixteen lists whose counters are
their lengths.
-/

namespace C380.Valws

open CountedBag SlidingWindow

/-! ## Tables that were never split -/

section Flat

variable {D : ℕ} {S : Finset Ull} {t t' : Hashtable} {k : Ull}

/-- A flat table whose bucket of `k` is replaced by a list with its length as counter. -/
theorem Hashtable.Flat.update {c c' l s : Ull} {b : Fin tableSize → Bucket}
    (h : (Hashtable.mk c l s b).Flat) (i : Fin tableSize) {ll : LinkedList}
    (hcount : ll.count.toNat = ll.nodes.length) :
    (Hashtable.mk c' l s (Function.update b i (.list ll))).Flat := by
  intro j
  by_cases hj : j = i
  · subst hj
    exact ⟨ll, by simp, hcount⟩
  · simpa [Function.update_of_ne hj] using h j

/-- A list of the table, with one more key, is no longer than the keys of its bucket. -/
theorem length_sllAdd_le (ht : NodeOk True 1 D 0 t) (hkeys : ∀ a ∈ t.keys, a ∈ S) (hk : k ∈ S)
    {ll : LinkedList} (hb : t.bucket (bucketIndex k t.shifts) = .list ll)
    (hnodup : (keysOf ll.nodes).Nodup) (hstep : SllStep k 1 ll (sllAdd ll k)) :
    (sllAdd ll k).nodes.length ≤ (slot S t.shifts (bucketIndex k t.shifts)).card := by
  have hsub : insert k (keysOf ll.nodes).toFinset ⊆ slot S t.shifts (bucketIndex k t.shifts) := by
    intro a ha
    rw [Finset.mem_insert, List.mem_toFinset] at ha
    rcases ha with rfl | ha
    · exact mem_slot_self.mpr hk
    · have hbucket : a ∈ (t.bucket (bucketIndex k t.shifts)).keys := by rwa [hb]
      exact mem_slot.mpr ⟨hkeys a (Hashtable.mem_keys.mpr ⟨_, hbucket⟩), ht.routed _ a hbucket⟩
  refine le_of_eq_of_le ?_ (Finset.card_le_card hsub)
  rw [length_sllStep hstep]
  by_cases hmem : k ∈ keysOf ll.nodes
  · rw [if_pos hmem, Finset.insert_eq_of_mem (List.mem_toFinset.mpr hmem),
      List.toFinset_card_of_nodup hnodup, length_keysOf]
  · rw [if_neg hmem, Finset.card_insert_of_notMem (mt List.mem_toFinset.mp hmem),
      List.toFinset_card_of_nodup hnodup, length_keysOf]

/-- **`put` splits no bucket that has room for all the keys there are.** -/
theorem Hashtable.Flat.put {fuel : ℕ} (h : t.Flat) (ht : TableOk True 1 D 0 t) (hD : D < 2 ^ 61)
    (hkeys : ∀ a ∈ t.keys, a ∈ S) (hk : k ∈ S) (hroom : ∀ i, (slot S t.shifts i).card ≤ 15)
    (hput : Valws.put fuel t k = some t') : t'.Flat := by
  obtain ⟨c, l, s, b⟩ := t
  obtain _ | fuel := fuel
  · cases hput
  obtain ⟨ll, hb, hcount⟩ :
    ∃ ll, b (bucketIndex k s) = .list ll ∧ ll.count.toNat = ll.nodes.length := h _
  have hs : s.toNat < 64 := ht.here.shifts_lt
  have hok := ht.here.bucket (bucketIndex k s)
  rw [Hashtable.bucket_mk, hb] at hok
  have hlist : ListOk D ll ∧ ll.nodes.length ≤ 15 := by
    cases hok with
    | fresh list count short => exact ⟨list, short⟩
    | spent list spent short depth => exact ⟨list, by omega⟩
  have hstep : SllStep k 1 ll (sllAdd ll k) := sllAdd_step fun e he => by
    have := (hlist.1.values e he).2
    omega
  have hlen := (length_sllAdd_le ht.here hkeys hk hb hlist.1.nodup hstep).trans (hroom _)
  have hcount' := count_sllStep hstep hcount hlist.2
  have hkeep : ¬ (sllAdd ll k).count > splitSize := by
    rw [gt_iff_lt, BitVec.lt_def, hcount', not_lt]
    exact hlen
  rw [Valws.put, insertWith_keep hs hb hkeep] at hput
  cases hput
  exact h.update _ hcount'

/-- **`delete` leaves a flat table flat.** -/
theorem Hashtable.Flat.delete_flat (h : t.Flat) (ht : TableOk True 1 D 0 t) (k : Ull) :
    (Valws.delete t k).Flat := by
  obtain ⟨c, l, s, b⟩ := t
  obtain ⟨ll, hb, hcount⟩ :
    ∃ ll, b (bucketIndex k s) = .list ll ∧ ll.count.toNat = ll.nodes.length := h _
  have hok := ht.here.bucket (bucketIndex k s)
  rw [Hashtable.bucket_mk, hb] at hok
  have hpos : ∀ e ∈ ll.nodes, 1 ≤ e.num := by
    cases hok with
    | fresh list count short => exact fun e he => (list.values e he).1
    | spent list spent short depth => exact fun e he => (list.values e he).1
  rw [delete_mk, hb, deleteBucket]
  refine h.update _ ?_
  rcases (sllRemove_lowers (k := k) hpos).2 with ⟨hlen, hsame⟩ | ⟨hlen, hless⟩
  · rw [hsame, hcount, hlen]
  · rw [hless]
    bv_omega

/-- A flat table has nothing to merge. -/
theorem Hashtable.Flat.not_loses (h : t.Flat) (k : Ull) : t.loses k = false := by
  obtain ⟨c, l, s, b⟩ := t
  obtain ⟨ll, hb, -⟩ : ∃ ll, b (bucketIndex k s) = .list ll ∧ _ := h _
  rw [Hashtable.loses, hb, Bucket.loses]

/-- Deleting from a flat table loses nothing and leaves it flat. -/
theorem Hashtable.Flat.deletes (hD : D < 2 ^ 61) : ∀ (as : List Ull) {t : Hashtable}, t.Flat →
    TableOk True 1 D 0 t → lossless t as = true ∧ (as.foldl Valws.delete t).Flat
  | [], _, h, _ => ⟨rfl, h⟩
  | a :: as, t, h, ht => by
    have hdel := delete_spec (by omega) hD ht fun _ =>
      (lostBy_eq_zero_iff le_rfl (by omega) hD ht).mpr (h.not_loses a)
    obtain ⟨hl, hflat⟩ := deletes hD as (h.delete_flat ht a) hdel.ok
    refine ⟨?_, hflat⟩
    rw [lossless, h.not_loses a, hl]
    rfl

/-- Putting keys of `S` one after another leaves a flat table flat. -/
theorem Hashtable.Flat.puts {fuel : ℕ} (hfuel : 16 ≤ fuel)
    (hroom : ∀ i, (slot S 0 i).card ≤ 15) : ∀ (as : List Ull) (D : ℕ) {t t' : Hashtable}, t.Flat →
    TableOk True 1 D 0 t → D + as.length < 2 ^ 60 → (∀ a ∈ t.keys, a ∈ S) → (∀ a ∈ as, a ∈ S) →
    as.foldlM (Valws.put fuel) t = some t' → t'.Flat
  | [], _, t, t', h, _, _, _, _, hputs => by
    cases hputs
    exact h
  | a :: as, D, t, t', h, ht, hD, hkeys, has, hputs => by
    rw [List.length_cons] at hD
    obtain ⟨t₁, hput, hins⟩ := put_spec (by omega) (by omega) fuel 0 t a (by omega) ht
      (splitsAtLeast_one t a) fun _ _ => by rw [Nat.pow_zero, Nat.mod_one, Nat.mod_one]
    rw [List.foldlM_cons, hput] at hputs
    have ha := has a List.mem_cons_self
    have hshifts : t.shifts = 0 := BitVec.eq_of_toNat_eq ht.here.shifts
    refine puts hfuel hroom as (D + 1) (h.put ht (by omega) hkeys ha (hshifts ▸ hroom) hput)
      hins.ok (by omega) (fun k hk => ?_) (fun k hk => has k (List.mem_cons_of_mem _ hk)) hputs
    rcases hins.raise.mem_keys.mp hk with rfl | hk
    · exact ha
    · exact hkeys k hk

end Flat

/-! ## Runs -/

section Runs

variable {fuel : ℕ} {pageSize windowSize : Ull} {refs : List Reference} {r : Reference}

/-- A run loses nothing when the shorter one and the last call lose nothing. -/
theorem RunLossless.concat (h : RunLossless fuel pageSize windowSize refs)
    (hlast : ∀ ws, runWindow fuel refs (initializeWindowSet pageSize windowSize) = some ws →
      insertLossless fuel ws r = true) :
    RunLossless fuel pageSize windowSize (refs ++ [r]) := by
  intro pre r' hpre ws hrun
  rcases List.prefix_concat_iff.mp hpre with heq | hpre
  · obtain ⟨rfl, hr⟩ := List.append_inj' heq rfl
    obtain rfl := List.singleton_inj.mp hr
    exact hlast ws hrun
  · exact h pre r' hpre ws hrun

/-- A reference that does not fill the window deletes nothing. -/
theorem insertLossless_of_room {ws : WindowSet} (hok : WindowOk pageSize windowSize refs ws)
    (hlen : refs.length < windowSize.toNat) (r : Reference) : insertLossless fuel ws r = true := by
  have hnodes : ws.queue.nodes.length = refs.length := by
    rw [hok.nodes, length_last, List.length_map]
    omega
  have hsize : ¬ (enqueue ws.queue (processMemRef ws.pageExponent r.address r.size)).size >
      ws.windowSize := by
    have := windowSize.isLt
    rw [size_gt_iff hok.size (by omega), hok.window, List.length_append, List.length_singleton]
    omega
  simp only [insertLossless, hsize, decide_false, Bool.not_false, Bool.true_or]
  cases windowsetPut fuel ws.hashtable (processMemRef ws.pageExponent r.address r.size) <;> rfl

/-- **A trace that fits into the window loses nothing.** -/
theorem runLossless_of_short (hfuel : 16 ≤ fuel) (hp : 1 ≤ pageSize.toNat)
    (hvalid : ∀ r ∈ refs, r.Valid) (hputs : pagePuts pageSize refs < 2 ^ 60)
    (hlen : refs.length ≤ windowSize.toNat) : RunLossless fuel pageSize windowSize refs := by
  induction refs using List.reverseRecOn with
  | nil => exact fun pre r hpre => absurd hpre (by simp)
  | append_singleton refs r ih =>
    have hcount := pagePuts_concat pageSize refs r
    have hvalid' : ∀ r' ∈ refs, r'.Valid := fun r' hr' => hvalid r' (List.mem_append_left _ hr')
    rw [List.length_append, List.length_singleton] at hlen
    have hrun := ih hvalid' (by omega) (by omega)
    refine hrun.concat fun ws hws => ?_
    obtain ⟨ws', hws', hok⟩ := windowOk_run hfuel hp refs hvalid' (by omega) hrun
    obtain rfl := Option.some.inj (hws.symm.trans hws')
    exact insertLossless_of_room hok (by omega) r

/-- The page numbers that the references put. -/
def pageKeys (pageSize : Ull) (refs : List Reference) : Finset Ull :=
  (refs.flatMap fun r => (r.memRef pageSize).addresses).toFinset

/-- At most `SPLIT_SIZE` pages of the trace share their low four bits. -/
def Sparse (pageSize : Ull) (refs : List Reference) : Prop :=
  ∀ c, {p | p % 16 = c ∧ ∃ r ∈ refs, r.Touches (Nat.log 2 pageSize.toNat) p}.encard ≤ 15

theorem mem_pageKeys {k : Ull} :
    k ∈ pageKeys pageSize refs ↔ ∃ r ∈ refs, k ∈ (r.memRef pageSize).addresses := by
  simp [pageKeys]

/-- The page numbers put are the pages touched. -/
theorem mem_image_pageKeys (hp : 1 ≤ pageSize.toNat) (hvalid : ∀ r ∈ refs, r.Valid) {p : ℕ} :
    p ∈ (pageKeys pageSize refs).image BitVec.toNat ↔
      ∃ r ∈ refs, r.Touches (Nat.log 2 pageSize.toNat) p := by
  simp only [Finset.mem_image, mem_pageKeys]
  constructor
  · rintro ⟨k, ⟨r, hr, hk⟩, rfl⟩
    exact ⟨r, hr, (Reference.mem_addresses hp (hvalid r hr)).mp hk⟩
  · rintro ⟨r, hr, ht⟩
    have hk : (BitVec.ofNat 64 p).toNat = p := by
      rw [BitVec.toNat_ofNat, Nat.mod_eq_of_lt (ht.lt (hvalid r hr))]
    refine ⟨BitVec.ofNat 64 p, ⟨r, hr, ?_⟩, hk⟩
    rw [Reference.mem_addresses hp (hvalid r hr), hk]
    exact ht

/-- The pages of a sparse trace leave room in every bucket of the root. -/
theorem card_slot_pageKeys (hp : 1 ≤ pageSize.toNat) (hvalid : ∀ r ∈ refs, r.Valid)
    (h : Sparse pageSize refs) (i : Fin tableSize) :
    (slot (pageKeys pageSize refs) 0 i).card ≤ 15 := by
  have hsub : ((slot (pageKeys pageSize refs) 0 i).image BitVec.toNat : Set ℕ) ⊆
      {p | p % 16 = i.val ∧ ∃ r ∈ refs, r.Touches (Nat.log 2 pageSize.toNat) p} := by
    intro p hpage
    obtain ⟨k, hk, rfl⟩ := Finset.mem_image.mp (Finset.mem_coe.mp hpage)
    obtain ⟨hk, hi⟩ := mem_slot.mp hk
    have hval := @bucketIndex_val k 0 0 rfl
    rw [hi] at hval
    exact ⟨by omega, (mem_image_pageKeys hp hvalid).mp (Finset.mem_image_of_mem _ hk)⟩
  have hle := (Set.encard_le_encard hsub).trans (h i.val)
  rw [Set.encard_coe_eq_coe_finsetCard,
    Finset.card_image_of_injective _ fun _ _ => BitVec.eq_of_toNat_eq] at hle
  exact_mod_cast hle

/-- A trace of few pages is sparse. -/
theorem sparse_of_card_le (hp : 1 ≤ pageSize.toNat) (hvalid : ∀ r ∈ refs, r.Valid)
    (h : (pageKeys pageSize refs).card ≤ 15) : Sparse pageSize refs := by
  intro c
  have hsub : {p | p % 16 = c ∧ ∃ r ∈ refs, r.Touches (Nat.log 2 pageSize.toNat) p} ⊆
      ↑((pageKeys pageSize refs).image BitVec.toNat) := fun p hp' =>
    Finset.mem_coe.mpr ((mem_image_pageKeys hp hvalid).mpr hp'.2)
  refine (Set.encard_le_encard hsub).trans ?_
  rw [Set.encard_coe_eq_coe_finsetCard]
  exact_mod_cast Finset.card_image_le.trans h

/-- The keys of the table are pages of the trace. -/
theorem WindowOk.mem_pageKeys {ws : WindowSet} (hok : WindowOk pageSize windowSize refs ws)
    {k : Ull} (hk : k ∈ ws.hashtable.keys) : k ∈ pageKeys pageSize refs := by
  have hpage : k ∈ ws.hashtable.pages :=
    (mem_bag fun e he => (hok.table.values e (Multiset.mem_coe.mp he)).1).mpr hk
  rw [hok.pages, mem_pool, hok.nodes] at hpage
  obtain ⟨m, hm, hk⟩ := hpage
  obtain ⟨r, hr, rfl⟩ := List.mem_map.mp (List.mem_of_mem_drop hm)
  exact Valws.mem_pageKeys.mpr ⟨r, hr, Multiset.mem_coe.mp hk⟩

/-- **One call on a flat table** loses nothing and leaves the table flat, when every bucket has room
for all the pages of the trace. -/
theorem flat_insert {S : Finset Ull} (hfuel : 16 ≤ fuel) (hroom : ∀ i, (slot S 0 i).card ≤ 15)
    {ws : WindowSet} (hok : WindowOk pageSize windowSize refs ws) (hflat : ws.hashtable.Flat)
    (hputs : pagePuts pageSize (refs ++ [r]) < 2 ^ 60) (hS : pageKeys pageSize (refs ++ [r]) ⊆ S) :
    insertLossless fuel ws r = true ∧
      ∀ ws', windowSetInsert fuel ws r.address r.size = some ws' → ws'.hashtable.Flat := by
  have hmem : processMemRef ws.pageExponent r.address r.size = r.memRef pageSize := by
    rw [hok.exponent]
    rfl
  have hcount := pagePuts_concat pageSize refs r
  have hD : pagePuts pageSize refs + (r.memRef pageSize).addresses.length < 2 ^ 60 := by
    rw [MemRef.length_addresses]
    omega
  have hkeys : ∀ a ∈ ws.hashtable.keys, a ∈ S := fun a ha => by
    obtain ⟨r', hr', ha⟩ := mem_pageKeys.mp (hok.mem_pageKeys ha)
    exact hS (mem_pageKeys.mpr ⟨r', List.mem_append_left _ hr', ha⟩)
  have hpages : ∀ a ∈ (r.memRef pageSize).addresses, a ∈ S := fun a ha =>
    hS (mem_pageKeys.mpr ⟨r, List.mem_append_right _ List.mem_cons_self, ha⟩)
  obtain ⟨t, hput, ht, -⟩ := foldlM_put hfuel (r.memRef pageSize).addresses _ _ hok.table hD
  have hputFlat := Hashtable.Flat.puts hfuel hroom _ _ hflat hok.table hD hkeys hpages hput
  have hput : windowsetPut fuel ws.hashtable (r.memRef pageSize) = some t := hput
  have hdeletes := fun as => Hashtable.Flat.deletes (by omega) as hputFlat ht
  constructor
  · simp only [insertLossless, hmem, hput, Option.all_some, (hdeletes _).1, Bool.or_true]
  · intro ws' hws'
    simp only [windowSetInsert, hmem, hput, Option.bind_eq_bind, Option.bind_some] at hws'
    split at hws'
    · cases hws'
      exact (hdeletes _).2
    · cases hws'
      exact hputFlat

/-- A run whose pages leave room in every bucket loses nothing and leaves the table flat. -/
theorem flat_run {S : Finset Ull} (hfuel : 16 ≤ fuel) (hroom : ∀ i, (slot S 0 i).card ≤ 15)
    (hp : 1 ≤ pageSize.toNat) (hvalid : ∀ r ∈ refs, r.Valid)
    (hputs : pagePuts pageSize refs < 2 ^ 60) (hS : pageKeys pageSize refs ⊆ S) :
    RunLossless fuel pageSize windowSize refs ∧
      ∀ ws, runWindow fuel refs (initializeWindowSet pageSize windowSize) = some ws →
        ws.hashtable.Flat := by
  induction refs using List.reverseRecOn with
  | nil =>
    refine ⟨fun pre r hpre => absurd hpre (by simp), fun ws hws => ?_⟩
    cases hws
    exact flat_newHashtable 0
  | append_singleton refs r ih =>
    have hcount := pagePuts_concat pageSize refs r
    have hvalid' : ∀ r' ∈ refs, r'.Valid := fun r' hr' => hvalid r' (List.mem_append_left _ hr')
    obtain ⟨hrun, hflat⟩ := ih hvalid' (by omega) fun k hk => by
      obtain ⟨r', hr', hk⟩ := mem_pageKeys.mp hk
      exact hS (mem_pageKeys.mpr ⟨r', List.mem_append_left _ hr', hk⟩)
    obtain ⟨ws, hws, hok⟩ := windowOk_run hfuel hp refs hvalid' (by omega) hrun
    obtain ⟨hinsert, hnext⟩ := flat_insert hfuel hroom hok (hflat ws hws) hputs hS
    refine ⟨hrun.concat fun ws' hws' => ?_, fun ws' hws' => ?_⟩
    · obtain rfl := Option.some.inj (hws.symm.trans hws')
      exact hinsert
    · rw [runWindow_append hws] at hws'
      exact hnext ws' hws'

/-- **A sparse trace loses nothing**, in a window of any size. -/
theorem runLossless_of_sparse (hfuel : 16 ≤ fuel) (hp : 1 ≤ pageSize.toNat)
    (hvalid : ∀ r ∈ refs, r.Valid) (hputs : pagePuts pageSize refs < 2 ^ 60)
    (h : Sparse pageSize refs) : RunLossless fuel pageSize windowSize refs :=
  (flat_run hfuel (card_slot_pageKeys hp hvalid h) hp hvalid hputs (Finset.Subset.refl _)).1

end Runs

end C380.Valws
