import Mathlib.Data.Set.Card
import C380.Valws.Queue
import C380.Valws.Runs

/-!
# The window set (`Assignment03/windowset.c`)

`window_set_insert` cuts a reference into pages, counts each page in the hash table, and takes the
pages of the reference that leaves the window out again. `get_window_set_size` is the root counter
of the table.

* `WindowOk`: after any references, the queue holds the window and the table the multiset of its
  pages.
* `getWindowSetSize_eq`: **the size is the number of distinct pages of the window**, after every
  call of a run in which no `delete` is made in a state with `loses`, that is, none takes out the
  last occurrence of a page that is one of exactly `MERGE_SIZE` keys of a table with an expanded
  bucket off the page's path. Such a merge destroys what the expanded bucket stores.
* `getWindowSetSize_wrong`: a run whose last size is 6 where the window has 5 distinct pages.
-/

namespace C380.Valws

open CountedBag SlidingWindow

/-- The static variables of `windowset.c`. -/
structure WindowSet where
  pageExponent : Ull
  pageSize : Ull
  windowSize : Ull
  queue : Queue
  hashtable : Hashtable

/-- `initialize_window_set`. -/
def initializeWindowSet (pageSize windowSize : Ull) : WindowSet :=
  ⟨getPowerOfTwo pageSize, pageSize, windowSize, newQueue, newHashtable⟩

/-- The addresses `address + i` that the loops of `windowset_put` and `windowset_delete` visit,
`i` from 0 while `i < mem_ref.page_count`. -/
def MemRef.addresses (r : MemRef) : List Ull :=
  (List.range r.pageCount.toNat).map fun i => r.address + BitVec.ofNat 64 i

/-- `windowset_put`. -/
def windowsetPut (fuel : Nat) (t : Hashtable) (memRef : MemRef) : Option Hashtable :=
  memRef.addresses.foldlM (put fuel) t

/-- `windowset_delete`. -/
def windowsetDelete (t : Hashtable) (memRef : MemRef) : Hashtable :=
  memRef.addresses.foldl delete t

/-- The `mem_ref` that `window_set_insert` builds. -/
def processMemRef (pageExponent address pageSize : Ull) : MemRef :=
  let lowerAddress := address >>> pageExponent
  let upperAddress := (address + pageSize - 1) >>> pageExponent
  ⟨lowerAddress, (upperAddress - lowerAddress) + 1⟩

/-- `window_set_insert`. -/
def windowSetInsert (fuel : Nat) (ws : WindowSet) (address pageSize : Ull) : Option WindowSet := do
  let memRef := processMemRef ws.pageExponent address pageSize
  let queue := enqueue ws.queue memRef
  let hashtable ← windowsetPut fuel ws.hashtable memRef
  if queue.size > ws.windowSize then
    let (memRef, queue) := dequeue queue
    some { ws with queue := queue, hashtable := windowsetDelete hashtable memRef }
  else
    some { ws with queue := queue, hashtable := hashtable }

/-- `get_window_set_size`. -/
def getWindowSetSize (ws : WindowSet) : Ull := ws.hashtable.count

/-! ## References and the pages they touch -/

/-- The arguments of a `window_set_insert` call. -/
structure Reference where
  address : Ull
  size : Ull
  deriving DecidableEq, Repr

/-- At least one byte, and the last byte has an address. -/
def Reference.Valid (r : Reference) : Prop :=
  1 ≤ r.size.toNat ∧ r.address.toNat + r.size.toNat - 1 < 2 ^ 64

/-- Some byte of the reference lies in page `p`, pages having size `2 ^ e`. -/
def Reference.Touches (e : ℕ) (r : Reference) (p : ℕ) : Prop :=
  ∃ byte, r.address.toNat ≤ byte ∧ byte ≤ r.address.toNat + r.size.toNat - 1 ∧ byte / 2 ^ e = p

/-- The processed reference of a call. -/
def Reference.memRef (pageSize : Ull) (r : Reference) : MemRef :=
  processMemRef (getPowerOfTwo pageSize) r.address r.size

/-- The window set after a sequence of `window_set_insert` calls. -/
def runWindow (fuel : Nat) (refs : List Reference) (ws : WindowSet) : Option WindowSet :=
  refs.foldlM (fun ws r => windowSetInsert fuel ws r.address r.size) ws

/-- The number of pages put by a sequence of calls. -/
def pagePuts (pageSize : Ull) (refs : List Reference) : ℕ :=
  (refs.map fun r => (r.memRef pageSize).pageCount.toNat).sum

@[simp] theorem MemRef.length_addresses (m : MemRef) :
    m.addresses.length = m.pageCount.toNat := by
  simp [MemRef.addresses]

section Pages

variable {pageSize : Ull} {r : Reference}

theorem shiftRight_toNat (hp : 1 ≤ pageSize.toNat) (v : Ull) :
    (v >>> getPowerOfTwo pageSize).toNat = v.toNat / 2 ^ Nat.log 2 pageSize.toNat := by
  rw [BitVec.ushiftRight_eq', BitVec.toNat_ushiftRight, getPowerOfTwo_toNat (by omega),
    Nat.shiftRight_eq_div_pow]

/-- `n` more bytes reach at most `n` more pages. -/
theorem add_div_le (a n : ℕ) {d : ℕ} (hd : 0 < d) : (a + n) / d ≤ a / d + n := by
  rw [← Nat.lt_succ_iff]
  refine Nat.div_lt_of_lt_mul ?_
  calc a + n < d * (a / d + 1) + d * n :=
        Nat.add_lt_add_of_lt_of_le (Nat.lt_mul_div_succ a hd) (Nat.le_mul_of_pos_left n hd)
    _ = d * (a / d + n + 1) := by rw [← Nat.mul_add, Nat.add_right_comm]

theorem span_toNat (lower upper : Ull) (hle : lower.toNat ≤ upper.toNat)
    (hlt : upper.toNat < lower.toNat + (2 ^ 64 - 1)) :
    lower.toNat + (upper - lower + 1).toNat = upper.toNat + 1 := by
  bv_omega

/-- The first page and the number of pages of a valid reference. -/
theorem Reference.memRef_toNat (hp : 1 ≤ pageSize.toNat) (h : r.Valid) :
    (r.memRef pageSize).address.toNat = r.address.toNat / 2 ^ Nat.log 2 pageSize.toNat ∧
      (r.memRef pageSize).address.toNat + (r.memRef pageSize).pageCount.toNat =
        (r.address.toNat + r.size.toNat - 1) / 2 ^ Nat.log 2 pageSize.toNat + 1 := by
  obtain ⟨h1, hlt⟩ := h
  have hlow := shiftRight_toNat hp r.address
  have hupper := shiftRight_toNat hp (r.address + r.size - 1)
  have hlast : (r.address + r.size - 1).toNat = r.address.toNat + r.size.toNat - 1 := by bv_omega
  rw [hlast] at hupper
  have hle := Nat.div_le_div_right (c := 2 ^ Nat.log 2 pageSize.toNat)
    (show r.address.toNat ≤ r.address.toNat + r.size.toNat - 1 by omega)
  have hspan := add_div_le r.address.toNat (r.size.toNat - 1)
    (Nat.two_pow_pos (Nat.log 2 pageSize.toNat))
  rw [← Nat.add_sub_assoc h1] at hspan
  have hcount := span_toNat (r.address >>> getPowerOfTwo pageSize)
    ((r.address + r.size - 1) >>> getPowerOfTwo pageSize) (by omega) (by omega)
  exact ⟨hlow, hcount.trans (by rw [hupper])⟩

/-- The bytes from `a` to `b` lie in the pages from that of `a` to that of `b`. -/
theorem exists_byte_iff {a b d p : ℕ} (hd : 0 < d) (hab : a ≤ b) :
    (∃ byte, a ≤ byte ∧ byte ≤ b ∧ byte / d = p) ↔ a / d ≤ p ∧ p ≤ b / d := by
  constructor
  · rintro ⟨byte, ha, hb, rfl⟩
    exact ⟨Nat.div_le_div_right ha, Nat.div_le_div_right hb⟩
  · rintro ⟨ha, hb⟩
    rw [Nat.le_div_iff_mul_le hd] at hb
    rcases le_total a (p * d) with h | h
    · exact ⟨p * d, h, hb, Nat.mul_div_cancel p hd⟩
    · exact ⟨a, le_rfl, hab, le_antisymm ha ((Nat.le_div_iff_mul_le hd).mpr h)⟩

/-- **The pages counted are the pages touched.** -/
theorem Reference.mem_addresses (hp : 1 ≤ pageSize.toNat) (h : r.Valid) {k : Ull} :
    k ∈ (r.memRef pageSize).addresses ↔ r.Touches (Nat.log 2 pageSize.toNat) k.toNat := by
  obtain ⟨hlow, hcount⟩ := Reference.memRef_toNat hp h
  obtain ⟨h1, hlt⟩ := h
  unfold Reference.Touches
  rw [exists_byte_iff (Nat.two_pow_pos _) (by omega), ← hlow]
  have hmax := Nat.div_le_self (r.address.toNat + r.size.toNat - 1)
    (2 ^ Nat.log 2 pageSize.toNat)
  simp only [MemRef.addresses, List.mem_map, List.mem_range]
  constructor
  · rintro ⟨i, hi, rfl⟩
    bv_omega
  · rintro ⟨ha, hb⟩
    exact ⟨k.toNat - (r.memRef pageSize).address.toNat, by omega, by bv_omega⟩

/-- A touched page is a 64-bit number. -/
theorem Reference.Touches.lt {e p : ℕ} (h : r.Valid) (ht : r.Touches e p) : p < 2 ^ 64 := by
  obtain ⟨-, hlt⟩ := h
  obtain ⟨byte, -, hle, rfl⟩ := ht
  have := Nat.div_le_self byte (2 ^ e)
  omega

theorem Reference.pageCount_pos (hp : 1 ≤ pageSize.toNat) (h : r.Valid) :
    1 ≤ (r.memRef pageSize).pageCount.toNat := by
  obtain ⟨h1, h2⟩ := Reference.memRef_toNat hp h
  have : r.address.toNat / 2 ^ Nat.log 2 pageSize.toNat ≤
      (r.address.toNat + r.size.toNat - 1) / 2 ^ Nat.log 2 pageSize.toNat :=
    Nat.div_le_div_right (by have := h.1; omega)
  omega

end Pages

/-! ## The table of a window set -/

/-- The multiset of keys a table stands for. -/
def Hashtable.pages (t : Hashtable) : Multiset Ull :=
  bag KeyValue.key KeyValue.num (t.entries : Multiset KeyValue)

/-- No `delete` of the addresses, one after another, is made in a state in which it `loses`. -/
def lossless : Hashtable → List Ull → Bool
  | _, [] => true
  | t, a :: as => !t.loses a && lossless (delete t a) as

/-- Putting addresses one after another adds them. -/
theorem foldlM_put {fuel : ℕ} (hfuel : 16 ≤ fuel) : ∀ (as : List Ull) (D : ℕ) (t : Hashtable),
    TableOk True 1 D 0 t → D + as.length < 2 ^ 60 →
    ∃ t', as.foldlM (put fuel) t = some t' ∧ TableOk True 1 (D + as.length) 0 t' ∧
      t'.pages = as + t.pages
  | [], D, t, ht, _ => ⟨t, rfl, ht, by simp⟩
  | a :: as, D, t, ht, hD => by
    rw [List.length_cons] at hD ⊢
    obtain ⟨t₁, hput, hins⟩ := put_spec (by omega) (by omega) fuel 0 t a (by omega) ht
      (splitsAtLeast_one t a) fun _ _ => by rw [Nat.pow_zero, Nat.mod_one, Nat.mod_one]
    obtain ⟨t', hputs, hok, hpages⟩ := foldlM_put hfuel as (D + 1) t₁ hins.ok (by omega)
    refine ⟨t', by rw [List.foldlM_cons, hput]; exact hputs, ?_, ?_⟩
    · rwa [Nat.add_assoc, Nat.add_comm 1] at hok
    · rw [hpages, Hashtable.pages, hins.raise.bag_eq, Multiset.replicate_one,
        Multiset.singleton_add, Multiset.add_cons, ← Multiset.cons_coe, Multiset.cons_add]
      rfl

/-- Deleting addresses one after another takes them out, where no deletion loses anything. -/
theorem foldl_delete {D : ℕ} (hD : D < 2 ^ 61) : ∀ (as : List Ull) (t : Hashtable),
    TableOk True 1 D 0 t → lossless t as = true →
    TableOk True 1 D 0 (as.foldl delete t) ∧
      (as.foldl delete t).pages = as.foldl Multiset.erase t.pages
  | [], t, ht, _ => ⟨ht, rfl⟩
  | a :: as, t, ht, hl => by
    unfold lossless at hl
    rw [Bool.and_eq_true, Bool.not_eq_true'] at hl
    obtain ⟨ha, has⟩ := hl
    have hlost : t.lostBy a = 0 := (lostBy_eq_zero_iff le_rfl (by omega) hD ht).mpr ha
    have hdel := delete_spec (by omega) hD ht fun _ => hlost
    have hpages : (delete t a).pages = t.pages.erase a := by
      have := hdel.lower.bag_eq
      rwa [hlost, add_zero] at this
    obtain ⟨hok, hrest⟩ := foldl_delete hD as (delete t a) hdel.ok has
    rw [List.foldl_cons, List.foldl_cons, hrest, hpages]
    exact ⟨hok, rfl⟩

/-- The root counter of an exact table is its number of distinct keys. -/
theorem TableOk.count_eq_card {lo D L : ℕ} {t : Hashtable} (h : TableOk True lo D L t) :
    t.count.toNat = t.pages.toFinset.card := by
  rw [← h.here.exact trivial, Hashtable.keys, length_keysOf, Hashtable.pages,
    card_toFinset_bag (fun e he => (h.values e (Multiset.mem_coe.mp he)).1)
      (by rw [← Hashtable.coe_keys]; exact Multiset.coe_nodup.mpr h.keys_nodup),
    Multiset.coe_card]

/-! ## The invariant of a window set -/

/-- The window set after the references `refs`. -/
structure WindowOk (pageSize windowSize : Ull) (refs : List Reference) (ws : WindowSet) : Prop where
  exponent : ws.pageExponent = getPowerOfTwo pageSize
  window : ws.windowSize = windowSize
  size : ws.queue.Ok
  nodes : ws.queue.nodes = last windowSize.toNat (refs.map (Reference.memRef pageSize))
  table : TableOk True 1 (pagePuts pageSize refs) 0 ws.hashtable
  pages : ws.hashtable.pages = pool (fun m => (m.addresses : Multiset Ull)) ws.queue.nodes

/-- The deletes of a `window_set_insert` call lose nothing. -/
def insertLossless (fuel : Nat) (ws : WindowSet) (r : Reference) : Bool :=
  let memRef := processMemRef ws.pageExponent r.address r.size
  let queue := enqueue ws.queue memRef
  (windowsetPut fuel ws.hashtable memRef).all fun t =>
    !decide (queue.size > ws.windowSize) || lossless t (dequeue queue).1.addresses

theorem windowOk_initialize (pageSize windowSize : Ull) :
    WindowOk pageSize windowSize [] (initializeWindowSet pageSize windowSize) := by
  refine ⟨rfl, rfl, newQueue_ok, by simp [initializeWindowSet, newQueue],
    tableOk_new True 1 0 rfl (Nat.zero_le _), ?_⟩
  show newHashtable.pages = _
  unfold Hashtable.pages newHashtable
  rw [entries_newHashtable]
  rfl

theorem pagePuts_concat (pageSize : Ull) (refs : List Reference) (r : Reference) :
    pagePuts pageSize (refs ++ [r]) =
      pagePuts pageSize refs + (r.memRef pageSize).pageCount.toNat := by
  simp [pagePuts]

theorem length_le_pagePuts {pageSize : Ull} (hp : 1 ≤ pageSize.toNat) : ∀ {refs : List Reference},
    (∀ r ∈ refs, r.Valid) → refs.length ≤ pagePuts pageSize refs
  | [], _ => Nat.zero_le _
  | r :: refs, h => by
    have h1 := Reference.pageCount_pos hp (h r List.mem_cons_self)
    have h2 := length_le_pagePuts hp fun r' hr' => h r' (List.mem_cons_of_mem _ hr')
    simp only [pagePuts, List.map_cons, List.sum_cons, List.length_cons] at h2 ⊢
    omega

/-- **One `window_set_insert` slides the window**, provided its deletes lose nothing. -/
theorem WindowOk.insert {fuel : ℕ} (hfuel : 16 ≤ fuel) {pageSize windowSize : Ull}
    {refs : List Reference} {ws : WindowSet} (h : WindowOk pageSize windowSize refs ws)
    {r : Reference} (hputs : pagePuts pageSize (refs ++ [r]) < 2 ^ 60)
    (hlen : refs.length < 2 ^ 60) (hl : insertLossless fuel ws r = true) :
    ∃ ws', windowSetInsert fuel ws r.address r.size = some ws' ∧
      WindowOk pageSize windowSize (refs ++ [r]) ws' := by
  have hsub : ws.queue.nodes.length + 1 < 2 ^ 64 := by
    rw [h.nodes, length_last, List.length_map]
    omega
  have hmem : processMemRef ws.pageExponent r.address r.size = r.memRef pageSize := by
    rw [h.exponent]
    rfl
  have hslide : slide windowSize.toNat ws.queue.nodes (r.memRef pageSize) =
      last windowSize.toNat ((refs ++ [r]).map (Reference.memRef pageSize)) := by
    rw [h.nodes, slide_last, List.map_append]
    rfl
  have hcount := pagePuts_concat pageSize refs r
  obtain ⟨t, hput, hok, hpages⟩ := foldlM_put hfuel (r.memRef pageSize).addresses _ _ h.table
    (by rw [MemRef.length_addresses]; omega)
  rw [MemRef.length_addresses, ← hcount] at hok
  rw [h.pages] at hpages
  have hput : windowsetPut fuel ws.hashtable (r.memRef pageSize) = some t := hput
  simp only [insertLossless, hmem, hput, h.window, Option.all_some, Bool.or_eq_true,
    Bool.not_eq_true', decide_eq_false_iff_not] at hl
  simp only [windowSetInsert, hmem, hput, Option.bind_eq_bind, Option.bind_some, h.window]
  by_cases hgt : (enqueue ws.queue (r.memRef pageSize)).size > windowSize
  · rw [if_pos hgt]
    obtain ⟨hqok, hqnodes, hsplit⟩ := dequeue_slide h.size hsub windowSize _ hgt
    obtain ⟨hdok, hdpages⟩ := foldl_delete (by omega) _ t hok (hl.resolve_left (not_not.mpr hgt))
    refine ⟨_, rfl, h.exponent, rfl, hqok, hqnodes.trans hslide, hdok, ?_⟩
    -- the window with the new reference is the one that leaves and the new window
    have hpool := congrArg (pool fun m => (m.addresses : Multiset Ull)) hsplit
    rw [pool_concat, pool_cons, ← hpages] at hpool
    rw [hqnodes]
    show (windowsetDelete t _).pages = _
    unfold windowsetDelete
    rw [hdpages, hpool, foldl_erase]
  · rw [if_neg hgt]
    have hkeep := enqueue_slide h.size hsub windowSize _ hgt
    refine ⟨_, rfl, h.exponent, rfl, h.size.enqueue hsub _, hkeep.trans hslide, hok, ?_⟩
    show t.pages = pool _ (ws.queue.nodes ++ [r.memRef pageSize])
    rw [pool_concat, hpages]

theorem runWindow_append {fuel : ℕ} {refs : List Reference} {r : Reference} {ws ws' : WindowSet}
    (h : runWindow fuel refs ws = some ws') :
    runWindow fuel (refs ++ [r]) ws = windowSetInsert fuel ws' r.address r.size :=
  Transition.foldlM_concat h

/-- Every call of the run loses nothing. -/
def RunLossless (fuel : Nat) (pageSize windowSize : Ull) (refs : List Reference) : Prop :=
  ∀ pre r, pre ++ [r] <+: refs → ∀ ws,
    runWindow fuel pre (initializeWindowSet pageSize windowSize) = some ws →
    insertLossless fuel ws r = true

/-- The condition call by call, in a form that evaluates. -/
theorem runLossless_of_take {fuel : ℕ} {pageSize windowSize : Ull} {refs : List Reference}
    (h : ∀ i < refs.length, (runWindow fuel (refs.take i)
      (initializeWindowSet pageSize windowSize)).all (fun ws =>
        insertLossless fuel ws (refs.getD i ⟨0, 0⟩)) = true) :
    RunLossless fuel pageSize windowSize refs := by
  rintro pre r ⟨post, rfl⟩ ws hrun
  have hi := h pre.length (by simp only [List.length_append, List.length_singleton]; omega)
  rw [List.append_assoc, List.take_left, hrun, Option.all_some] at hi
  simpa using hi

/-- **Every lossless run keeps the invariant.** -/
theorem windowOk_run {fuel : ℕ} (hfuel : 16 ≤ fuel) {pageSize windowSize : Ull}
    (hp : 1 ≤ pageSize.toNat) (refs : List Reference) (hvalid : ∀ r ∈ refs, r.Valid)
    (hputs : pagePuts pageSize refs < 2 ^ 60)
    (hl : RunLossless fuel pageSize windowSize refs) :
    ∃ ws, runWindow fuel refs (initializeWindowSet pageSize windowSize) = some ws ∧
      WindowOk pageSize windowSize refs ws := by
  induction refs using List.reverseRecOn with
  | nil => exact ⟨_, rfl, windowOk_initialize pageSize windowSize⟩
  | append_singleton refs r ih =>
    have hcount := pagePuts_concat pageSize refs r
    have hvalid' : ∀ r' ∈ refs, r'.Valid := fun r' hr' => hvalid r' (List.mem_append_left _ hr')
    have hlen := length_le_pagePuts hp hvalid'
    obtain ⟨ws, hrun, hok⟩ := ih hvalid' (by omega) fun pre r' hpre =>
      hl pre r' (hpre.trans (List.prefix_append _ _))
    obtain ⟨ws', hins, hok'⟩ := hok.insert hfuel hputs (by omega)
      (hl refs r List.prefix_rfl ws hrun)
    exact ⟨ws', (runWindow_append hrun).trans hins, hok'⟩

/-! ## The size -/

/-- The pages of the last `windowSize` references. -/
def windowPages (pageSize windowSize : Ull) (refs : List Reference) : Set ℕ :=
  {p | ∃ r ∈ last windowSize.toNat refs, r.Touches (Nat.log 2 pageSize.toNat) p}

/-- The pages of a window as a finite set. -/
def windowPageSet (pageSize windowSize : Ull) (refs : List Reference) : Finset ℕ :=
  ((last windowSize.toNat refs).flatMap fun r =>
    (r.memRef pageSize).addresses.map BitVec.toNat).toFinset

theorem coe_windowPageSet {pageSize : Ull} (hp : 1 ≤ pageSize.toNat) (windowSize : Ull)
    {refs : List Reference} (hvalid : ∀ r ∈ refs, r.Valid) :
    windowPages pageSize windowSize refs = ↑(windowPageSet pageSize windowSize refs) := by
  have hv : ∀ r ∈ last windowSize.toNat refs, r.Valid := fun r hr =>
    hvalid r (List.mem_of_mem_drop hr)
  ext p
  simp only [windowPages, windowPageSet, Set.mem_ofPred_eq, Finset.mem_coe, List.mem_toFinset,
    List.mem_flatMap, List.mem_map]
  constructor
  · rintro ⟨r, hr, ht⟩
    have hlt := ht.lt (hv r hr)
    have hk : (BitVec.ofNat 64 p).toNat = p := by rw [BitVec.toNat_ofNat, Nat.mod_eq_of_lt hlt]
    exact ⟨r, hr, BitVec.ofNat 64 p,
      (Reference.mem_addresses hp (hv r hr)).mpr (by rw [hk]; exact ht), hk⟩
  · rintro ⟨r, hr, k, hk, rfl⟩
    exact ⟨r, hr, (Reference.mem_addresses hp (hv r hr)).mp hk⟩

theorem WindowOk.card {pageSize windowSize : Ull} {refs : List Reference} {ws : WindowSet}
    (h : WindowOk pageSize windowSize refs ws) :
    (windowPageSet pageSize windowSize refs).card = ws.hashtable.pages.toFinset.card := by
  have himage : windowPageSet pageSize windowSize refs =
      ws.hashtable.pages.toFinset.image BitVec.toNat := by
    ext p
    simp only [windowPageSet, List.mem_toFinset, List.mem_flatMap, List.mem_map, Finset.mem_image,
      Multiset.mem_toFinset, h.pages, mem_pool, h.nodes, last_map, Multiset.mem_coe]
    constructor
    · rintro ⟨r, hr, k, hk, rfl⟩
      exact ⟨k, ⟨_, ⟨r, hr, rfl⟩, hk⟩, rfl⟩
    · rintro ⟨k, ⟨_, ⟨r, hr, rfl⟩, hk⟩, rfl⟩
      exact ⟨r, hr, k, hk, rfl⟩
  rw [himage, Finset.card_image_of_injective _ fun _ _ => BitVec.eq_of_toNat_eq]

/-- **`get_window_set_size` is the number of distinct pages of the window**, after every call of a
run none of whose `delete` calls is made in a state in which it `loses`. -/
theorem getWindowSetSize_eq (fuel : ℕ) (hfuel : 16 ≤ fuel) (pageSize windowSize : Ull)
    (hp : 1 ≤ pageSize.toNat) (refs : List Reference) (hvalid : ∀ r ∈ refs, r.Valid)
    (hputs : pagePuts pageSize refs < 2 ^ 60)
    (hl : RunLossless fuel pageSize windowSize refs) :
    ∀ pre, pre <+: refs →
      ∃ ws, runWindow fuel pre (initializeWindowSet pageSize windowSize) = some ws ∧
        (getWindowSetSize ws).toNat = (windowPages pageSize windowSize pre).ncard := by
  intro pre hpre
  have hvalid' : ∀ r ∈ pre, r.Valid := fun r hr => hvalid r (hpre.mem hr)
  have hputs' : pagePuts pageSize pre < 2 ^ 60 := by
    obtain ⟨post, rfl⟩ := hpre
    simp only [pagePuts, List.map_append, List.sum_append] at hputs ⊢
    omega
  obtain ⟨ws, hrun, hok⟩ := windowOk_run hfuel hp pre hvalid' hputs' fun pre' r h' =>
    hl pre' r (h'.trans hpre)
  refine ⟨ws, hrun, ?_⟩
  rw [coe_windowPageSet hp windowSize hvalid', Set.ncard_coe_finset, hok.card,
    ← hok.table.count_eq_card]
  rfl

/-- Sixteen pages that share their two low nibbles, and the last of them until five are left. -/
def nestedRefs : List Reference :=
  ((List.range 16).map fun i => Reference.mk (BitVec.ofNat 64 (256 * i)) 1) ++
    List.replicate 11 ⟨3840, 1⟩

/-- In a window of 16 references and pages of one byte, the sixteenth reference splits two tables,
and the page that the last one takes out merges both. The size is right after every call. -/
theorem getWindowSetSize_eq_nested : RunLossless 16 1 16 nestedRefs ∧ ∀ pre, pre <+: nestedRefs →
    ∃ ws, runWindow 16 pre (initializeWindowSet 1 16) = some ws ∧
      (getWindowSetSize ws).toNat = (windowPages 1 16 pre).ncard := by
  have hvalid : ∀ r ∈ nestedRefs, r.Valid := by
    unfold Reference.Valid
    decide
  have hlossless : RunLossless 16 1 16 nestedRefs := runLossless_of_take (by decide +kernel)
  exact ⟨hlossless, getWindowSetSize_eq 16 le_rfl 1 16 (by decide) nestedRefs hvalid
    (by decide +kernel) hlossless⟩

/-- Sixteen pages of one bucket and six more of another level, one page until the first ones have
left the window, and two pages in turn. -/
def losingRefs : List Reference :=
  ((List.range 16).map fun i => Reference.mk (BitVec.ofNat 64 (256 * i)) 1) ++
    ((List.range 6).map fun i => ⟨BitVec.ofNat 64 (16 * (i + 1)), 1⟩) ++
    List.replicate 16 ⟨1, 1⟩ ++ [⟨0, 1⟩, ⟨1, 1⟩, ⟨0, 1⟩]

/-- **A wrong size**: after `losingRefs` in a window of 22 references and pages of one byte the
size is 6, and the window has 5 distinct pages. -/
theorem getWindowSetSize_wrong : (∀ r ∈ losingRefs, r.Valid) ∧ pagePuts 1 losingRefs < 2 ^ 60 ∧
    ∃ ws, runWindow 16 losingRefs (initializeWindowSet 1 22) = some ws ∧
      (getWindowSetSize ws).toNat = 6 ∧ (windowPages 1 22 losingRefs).ncard = 5 := by
  have hvalid : ∀ r ∈ losingRefs, r.Valid := by
    unfold Reference.Valid
    decide
  have hrun : (runWindow 16 losingRefs (initializeWindowSet 1 22)).map
      (fun ws => (getWindowSetSize ws).toNat) = some 6 := by decide +kernel
  obtain ⟨ws, hws, hsize⟩ := Option.map_eq_some_iff.mp hrun
  refine ⟨hvalid, by decide +kernel, ws, hws, hsize, ?_⟩
  rw [coe_windowPageSet (by decide) 22 hvalid, Set.ncard_coe_finset]
  decide +kernel

end C380.Valws
