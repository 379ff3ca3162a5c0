import C380.Valws.LinkedWindow

/-!
# The pages that `window_set_insert` puts and deletes (`Assignment03/windowset.c`)

* `forPages` is the loop of `windowset_put` and `windowset_delete`, with its 64-bit counter;
  `forPages_eq` says which keys it visits, for any body.
* `recordRun` is a run of `window_set_insert` calls on a table that records the calls made to it;
  `runWindow_eq_replay` connects it to the hash table of the program.
* `recordedCalls_exact`: **the calls cover the pages exactly**, for page sizes that are powers of
  two and others.
* `work_bounded_iff`: **the number of calls is bounded by the size of the access iff** the access
  is not empty at address 0 and does not run past `2 ^ 64` to a page far below its first.
-/

namespace C380.Valws

open SlidingWindow Linked

/-! ## The loops -/

/-- `for (ull i = …; i < mem_ref.page_count; ++i) body(address + i)`, at most `n` iterations. -/
def forPages {m : Type → Type} [Monad m] {τ : Type} (body : τ → Ull → m τ) (memRef : MemRef) :
    Nat → Ull → τ → m τ
  | 0, _, t => pure t
  | n + 1, i, t =>
    if i < memRef.pageCount then
      body t (memRef.address + i) >>= fun t' => forPages body memRef n (i + 1) t'
    else pure t

section Loop

variable {m : Type → Type} [Monad m] {τ : Type} (body : τ → Ull → m τ)
  (memRef : MemRef)

/-- The iterations from `i` on. -/
theorem forPages_from : ∀ (n : ℕ) (i : Ull) (t : τ), i.toNat ≤ memRef.pageCount.toNat →
    memRef.pageCount.toNat - i.toNat ≤ n → forPages body memRef n i t =
      ((List.range' i.toNat (memRef.pageCount.toNat - i.toNat)).map fun j =>
        memRef.address + BitVec.ofNat 64 j).foldlM body t
  | 0, i, t, _, hn => by
    rw [Nat.le_zero.mp hn]
    rfl
  | n + 1, i, t, hi, hn => by
    rw [forPages]
    by_cases hlt : i < memRef.pageCount
    · have hlt' : i.toNat < memRef.pageCount.toNat := hlt
      have hsucc : (i + 1).toNat = i.toNat + 1 := by bv_omega
      obtain ⟨d, hd⟩ : ∃ d, memRef.pageCount.toNat - i.toNat = d + 1 :=
        ⟨memRef.pageCount.toNat - i.toNat - 1, by omega⟩
      rw [if_pos hlt, hd, List.range'_succ, List.map_cons, List.foldlM_cons, BitVec.ofNat_toNat,
        BitVec.setWidth_eq]
      congr 1
      funext t'
      rw [forPages_from n (i + 1) t' (by omega) (by omega), hsucc]
      congr 3
      omega
    · have hle : memRef.pageCount.toNat - i.toNat = 0 := by
        have : ¬ i.toNat < memRef.pageCount.toNat := hlt
        omega
      rw [if_neg hlt, hle]
      rfl

/-- **The loop visits the addresses in order**, once each. -/
theorem forPages_eq (t : τ) : forPages body memRef memRef.pageCount.toNat 0 t =
    memRef.addresses.foldlM body t := by
  rw [forPages_from body memRef _ 0 t (Nat.zero_le _) (Nat.sub_le _ _), MemRef.addresses,
    List.range_eq_range']
  rfl

end Loop

/-- `windowset_put` is the loop. -/
theorem windowsetPut_eq_loop (fuel : ℕ) (t : Hashtable) (memRef : MemRef) :
    windowsetPut fuel t memRef = forPages (put fuel) memRef memRef.pageCount.toNat 0 t :=
  (forPages_eq (put fuel) memRef t).symm

/-- `windowset_delete` is the loop. -/
theorem windowsetDelete_eq_loop (t : Hashtable) (memRef : MemRef) :
    windowsetDelete t memRef =
      forPages (m := Id) (fun t a => delete t a) memRef memRef.pageCount.toNat 0 t := by
  rw [forPages_eq, List.foldlM_eq_foldl]
  rfl

/-! ## The calls of a run -/

/-- `windowset_put` on a record of the calls made. -/
def recordPut (calls : List TableOp) (memRef : MemRef) : List TableOp :=
  forPages (m := Id) (fun calls a => calls ++ [.put a]) memRef memRef.pageCount.toNat 0 calls

/-- `windowset_delete` on a record of the calls made. -/
def recordDelete (calls : List TableOp) (memRef : MemRef) : List TableOp :=
  forPages (m := Id) (fun calls a => calls ++ [.delete a]) memRef memRef.pageCount.toNat 0 calls

theorem foldl_append_singleton {α β : Type} (f : α → β) :
    ∀ (as : List α) (l : List β), as.foldl (fun l a => l ++ [f a]) l = l ++ as.map f
  | [], l => (List.append_nil l).symm
  | a :: as, l => by
    rw [List.foldl_cons, foldl_append_singleton f as, List.append_assoc]
    rfl

theorem recordPut_eq (calls : List TableOp) (memRef : MemRef) :
    recordPut calls memRef = calls ++ memRef.addresses.map .put := by
  rw [recordPut, forPages_eq, List.foldlM_eq_foldl, ← foldl_append_singleton]
  rfl

theorem recordDelete_eq (calls : List TableOp) (memRef : MemRef) :
    recordDelete calls memRef = calls ++ memRef.addresses.map .delete := by
  rw [recordDelete, forPages_eq, List.foldlM_eq_foldl, ← foldl_append_singleton]
  rfl

/-- `window_set_insert` on a record of the calls made to the hash table. -/
def recordInsert (pageSize windowSize : Ull) (w : ListWindow (List TableOp)) (r : Reference) :
    ListWindow (List TableOp) :=
  listInsert recordPut recordDelete windowSize w (r.memRef pageSize)

/-- The window set after a sequence of `window_set_insert` calls, with the record. -/
def recordRun (pageSize windowSize : Ull) (refs : List Reference) : ListWindow (List TableOp) :=
  refs.foldl (recordInsert pageSize windowSize) ⟨newQueue, [], []⟩

/-- The calls of `put` and `delete` made by a sequence of `window_set_insert` calls. -/
def recordedCalls (pageSize windowSize : Ull) (refs : List Reference) : List TableOp :=
  (recordRun pageSize windowSize refs).hashtable

section Record

variable (pageSize windowSize : Ull)

/-- **The calls of one `window_set_insert`**: the pages of the reference, then those of the
`mem_ref` that leaves the queue. -/
theorem recordInsert_calls (w : ListWindow (List TableOp)) (r : Reference) :
    (recordInsert pageSize windowSize w r).hashtable =
      w.hashtable ++ (r.memRef pageSize).addresses.map .put ++
        if (enqueue w.queue (r.memRef pageSize)).size > windowSize then
          (dequeue (enqueue w.queue (r.memRef pageSize))).1.addresses.map .delete
        else [] := by
  unfold recordInsert listInsert
  simp only [recordPut_eq]
  split
  · exact recordDelete_eq _ _
  · exact (List.append_nil _).symm

theorem recordRun_concat (refs : List Reference) (r : Reference) :
    recordRun pageSize windowSize (refs ++ [r]) =
      recordInsert pageSize windowSize (recordRun pageSize windowSize refs) r := by
  rw [recordRun, List.foldl_append, List.foldl_cons, List.foldl_nil]
  rfl

/-- The window set whose table is the replay of the recorded calls. -/
def replay (fuel : Nat) (w : ListWindow (List TableOp)) : Option WindowSet :=
  (runTable fuel w.hashtable newHashtable).map fun t =>
    ⟨getPowerOfTwo pageSize, pageSize, windowSize, w.queue, t⟩

theorem runTable_put (fuel : ℕ) (memRef : MemRef) (t : Hashtable) :
    runTable fuel (memRef.addresses.map .put) t = windowsetPut fuel t memRef :=
  List.foldlM_map

theorem runTable_delete (fuel : ℕ) (memRef : MemRef) (t : Hashtable) :
    runTable fuel (memRef.addresses.map .delete) t = some (windowsetDelete t memRef) := by
  rw [runTable, List.foldlM_map]
  exact List.foldlM_pure

/-- A recorded call, replayed, is the call of the program. -/
theorem replay_recordInsert (fuel : ℕ) (w : ListWindow (List TableOp)) (r : Reference) :
    replay pageSize windowSize fuel (recordInsert pageSize windowSize w r) =
      (replay pageSize windowSize fuel w).bind fun ws =>
        windowSetInsert fuel ws r.address r.size := by
  have happend : ∀ (as bs : List TableOp) (t : Hashtable),
      runTable fuel (as ++ bs) t = (runTable fuel as t).bind (runTable fuel bs) :=
    fun as bs t => List.foldlM_append
  have hmem : processMemRef (getPowerOfTwo pageSize) r.address r.size = r.memRef pageSize := rfl
  rw [replay, replay, recordInsert_calls, List.append_assoc, happend]
  cases runTable fuel w.hashtable newHashtable with
  | none => rfl
  | some t =>
    rw [Option.bind_some, Option.map_some, Option.bind_some, happend, runTable_put]
    simp only [windowSetInsert, hmem, recordInsert, listInsert, Option.bind_eq_bind]
    cases windowsetPut fuel t (r.memRef pageSize) with
    | none => rfl
    | some t' =>
      rw [Option.bind_some, Option.bind_some]
      by_cases hgt : (enqueue w.queue (r.memRef pageSize)).size > windowSize
      · rw [if_pos hgt, if_pos hgt, if_pos hgt, runTable_delete, Option.map_some]
      · rw [if_neg hgt, if_neg hgt, if_neg hgt]
        rfl

/-- **The hash table of a run is the replay of its calls.** -/
theorem runWindow_eq_replay (fuel : ℕ) (refs : List Reference) :
    runWindow fuel refs (initializeWindowSet pageSize windowSize) =
      replay pageSize windowSize fuel (recordRun pageSize windowSize refs) := by
  induction refs using List.reverseRecOn with
  | nil => rfl
  | append_singleton refs r ih =>
    rw [recordRun_concat, replay_recordInsert, ← ih, runWindow, List.foldlM_append]
    simp [runWindow]

end Record

/-! ## The reference that leaves -/

/-- The reference whose `mem_ref` the last call of a run takes out of the queue: the one made
`window_size` calls before. A queue is never longer than the largest window size. -/
def evicted (windowSize : Ull) (refs : List Reference) : Option Reference :=
  if windowSize.toNat + 1 < 2 ^ 64 ∧ windowSize.toNat < refs.length then
    refs[refs.length - 1 - windowSize.toNat]?
  else none

section Evicted

variable {pageSize windowSize : Ull}

/-- The queue of a run holds the window. -/
theorem recordRun_queue (pageSize : Ull) (hw : windowSize.toNat + 1 < 2 ^ 64)
    (refs : List Reference) :
    (recordRun pageSize windowSize refs).queue.Ok ∧
      (recordRun pageSize windowSize refs).queue.nodes =
        last windowSize.toNat (refs.map (Reference.memRef pageSize)) := by
  induction refs using List.reverseRecOn with
  | nil => exact ⟨newQueue_ok, (last_nil _).symm⟩
  | append_singleton refs r ih =>
    obtain ⟨hok, hnodes⟩ := ih
    have hlen : (recordRun pageSize windowSize refs).queue.nodes.length + 1 < 2 ^ 64 := by
      rw [hnodes, length_last]
      omega
    have hslide : slide windowSize.toNat (recordRun pageSize windowSize refs).queue.nodes
        (r.memRef pageSize) =
          last windowSize.toNat ((refs ++ [r]).map (Reference.memRef pageSize)) := by
      rw [hnodes, slide_last, List.map_append]
      rfl
    rw [recordRun_concat, recordInsert, listInsert, ← hslide]
    by_cases hgt : (enqueue (recordRun pageSize windowSize refs).queue
        (r.memRef pageSize)).size > windowSize
    · obtain ⟨hok', hnodes', -⟩ := dequeue_slide hok hlen windowSize _ hgt
      simp only [if_pos hgt]
      exact ⟨hok', hnodes'⟩
    · simp only [if_neg hgt]
      exact ⟨hok.enqueue hlen _, enqueue_slide hok hlen windowSize _ hgt⟩

theorem recordRun_room (pageSize : Ull) (hw : windowSize.toNat + 1 < 2 ^ 64)
    (refs : List Reference) :
    (recordRun pageSize windowSize refs).queue.nodes.length + 1 < 2 ^ 64 := by
  rw [(recordRun_queue pageSize hw refs).2, length_last]
  omega

/-- The queue overflows iff the window is full. -/
theorem overflow_iff (hw : windowSize.toNat + 1 < 2 ^ 64) (refs : List Reference) (r : Reference) :
    (enqueue (recordRun pageSize windowSize refs).queue (r.memRef pageSize)).size > windowSize ↔
      windowSize.toNat ≤ refs.length := by
  obtain ⟨hok, hnodes⟩ := recordRun_queue pageSize hw refs
  have hlen := recordRun_room pageSize hw refs
  have hgt := size_gt_iff hok hlen windowSize (r.memRef pageSize)
  rw [hnodes, List.length_append, List.length_singleton, length_last, List.length_map] at hgt
  rw [hgt]
  omega

/-- A full window loses the reference `window_size` calls before. -/
theorem dequeue_full (hw : windowSize.toNat + 1 < 2 ^ 64) {refs : List Reference} (r : Reference)
    (hle : windowSize.toNat ≤ refs.length) :
    ∃ r', (refs ++ [r])[refs.length - windowSize.toNat]? = some r' ∧ r'.memRef pageSize =
      (dequeue (enqueue (recordRun pageSize windowSize refs).queue (r.memRef pageSize))).1 := by
  obtain ⟨hok, hnodes⟩ := recordRun_queue pageSize hw refs
  have hlen := recordRun_room pageSize hw refs
  obtain ⟨-, -, hsplit⟩ := dequeue_slide hok hlen windowSize _ ((overflow_iff hw refs r).mpr hle)
  -- the queue with the new value starts at that reference
  have hfirst : (recordRun pageSize windowSize refs).queue.nodes ++ [r.memRef pageSize] =
      ((refs ++ [r]).map (Reference.memRef pageSize)).drop (refs.length - windowSize.toNat) := by
    rw [hnodes, last, List.length_map, List.map_append,
      List.drop_append_of_le_length (by rw [List.length_map]; omega)]
    rfl
  rw [← Option.map_eq_some_iff, ← List.getElem?_map, ← List.head?_drop, ← hfirst, hsplit,
    List.head?_cons]

/-- **What leaves the queue in a call** is the `mem_ref` of the reference `window_size` calls
before. -/
theorem dequeued_eq_evicted (refs : List Reference) (r : Reference) :
    (if (enqueue (recordRun pageSize windowSize refs).queue
        (r.memRef pageSize)).size > windowSize then
      (dequeue (enqueue (recordRun pageSize windowSize refs).queue
        (r.memRef pageSize))).1.addresses.map TableOp.delete
    else []) =
      (evicted windowSize (refs ++ [r])).elim [] fun r' =>
        (r'.memRef pageSize).addresses.map .delete := by
  unfold evicted
  by_cases hw : windowSize.toNat + 1 < 2 ^ 64
  · by_cases hle : windowSize.toNat ≤ refs.length
    · obtain ⟨r', hr', heq⟩ := @dequeue_full pageSize _ hw refs r hle
      rw [if_pos ((overflow_iff hw refs r).mpr hle),
        if_pos ⟨hw, by rw [List.length_append, List.length_singleton]; omega⟩,
        List.length_append, List.length_singleton, Nat.add_sub_cancel, hr', Option.elim_some, heq]
    · rw [if_neg (mt (overflow_iff hw refs r).mp hle), if_neg]
      · rfl
      · rintro ⟨-, h⟩
        rw [List.length_append, List.length_singleton] at h
        omega
  · rw [if_neg, if_neg (fun h => hw h.1)]
    · rfl
    · intro h
      have h' : windowSize.toNat < (enqueue (recordRun pageSize windowSize refs).queue
        (r.memRef pageSize)).size.toNat := h
      omega

end Evicted

/-! ## The pages are covered exactly -/

/-- The keys of a processed reference increase when the pages of its bytes do. -/
theorem Reference.addresses_sorted {pageSize : Ull} {r : Reference} (hp : 1 ≤ pageSize.toNat)
    (h : r.Valid) : (r.memRef pageSize).addresses.Pairwise (· < ·) := by
  obtain ⟨-, hcount⟩ := Reference.memRef_toNat hp h
  have hlast := Nat.div_le_self (r.address.toNat + r.size.toNat - 1)
    (2 ^ Nat.log 2 pageSize.toNat)
  have hlt := h.2
  rw [MemRef.addresses, List.pairwise_map]
  refine List.pairwise_lt_range.imp_of_mem fun {i j} hi hj hij => ?_
  rw [List.mem_range] at hi hj
  rw [BitVec.lt_def]
  bv_omega

/-- A page number is touched iff some byte of the reference lies between its borders. -/
theorem Reference.touches_iff {e p : ℕ} {r : Reference} : r.Touches e p ↔
    ∃ byte, r.address.toNat ≤ byte ∧ byte ≤ r.address.toNat + r.size.toNat - 1 ∧
      p * 2 ^ e ≤ byte ∧ byte < (p + 1) * 2 ^ e := by
  have hborder : ∀ byte, byte / 2 ^ e = p ↔ p * 2 ^ e ≤ byte ∧ byte < (p + 1) * 2 ^ e := by
    intro byte
    have hpos := Nat.two_pow_pos e
    rw [Nat.div_eq_iff hpos, Nat.succ_mul]
    omega
  simp only [Reference.Touches, hborder]

/-- **The calls cover the pages exactly.** `get_power_of_two` rounds the page size down to a power
of two. The calls of a run put the pages of each reference, every page some byte of it lies in
once and in increasing order, and the reference that leaves is deleted with the same pages. -/
theorem recordedCalls_exact (pageSize : Ull) (hp : 1 ≤ pageSize.toNat) :
    2 ^ (getPowerOfTwo pageSize).toNat ≤ pageSize.toNat ∧
    pageSize.toNat < 2 ^ ((getPowerOfTwo pageSize).toNat + 1) ∧
    ∃ keys : Reference → List Ull,
      (∀ r, r.Valid → (keys r).Pairwise (· < ·) ∧ ∀ p : ℕ, p ∈ (keys r).map BitVec.toNat ↔
        ∃ byte, r.address.toNat ≤ byte ∧ byte ≤ r.address.toNat + r.size.toNat - 1 ∧
          p * 2 ^ (getPowerOfTwo pageSize).toNat ≤ byte ∧
          byte < (p + 1) * 2 ^ (getPowerOfTwo pageSize).toNat) ∧
      ∀ windowSize refs r, recordedCalls pageSize windowSize (refs ++ [r]) =
        recordedCalls pageSize windowSize refs ++ (keys r).map .put ++
          (evicted windowSize (refs ++ [r])).elim [] fun r' => (keys r').map .delete := by
  have he : (getPowerOfTwo pageSize).toNat = Nat.log 2 pageSize.toNat := getPowerOfTwo_toNat hp
  refine ⟨?_, ?_, fun r => (r.memRef pageSize).addresses, fun r hr => ⟨?_, fun p => ?_⟩, ?_⟩
  · rw [he]
    exact Nat.pow_log_le_self 2 (by omega)
  · rw [he]
    exact Nat.lt_pow_succ_log_self (by omega) _
  · exact Reference.addresses_sorted hp hr
  · rw [he, ← Reference.touches_iff, List.mem_map]
    constructor
    · rintro ⟨k, hk, rfl⟩
      exact (Reference.mem_addresses hp hr).mp hk
    · intro ht
      have hlt := ht.lt hr
      refine ⟨BitVec.ofNat 64 p, (Reference.mem_addresses hp hr).mpr ?_, ?_⟩
      all_goals rw [BitVec.toNat_ofNat, Nat.mod_eq_of_lt hlt]
      exact ht
  · intro windowSize refs r
    rw [recordedCalls, recordRun_concat, recordInsert_calls, dequeued_eq_evicted]
    rfl

/-- Pages of 6 bytes are counted as pages of 4. -/
theorem recordedCalls_exact_six :
    2 ^ (getPowerOfTwo 6).toNat ≤ (6 : Ull).toNat ∧
    (6 : Ull).toNat < 2 ^ ((getPowerOfTwo 6).toNat + 1) ∧
    ∃ keys : Reference → List Ull,
      (∀ r, r.Valid → (keys r).Pairwise (· < ·) ∧ ∀ p : ℕ, p ∈ (keys r).map BitVec.toNat ↔
        ∃ byte, r.address.toNat ≤ byte ∧ byte ≤ r.address.toNat + r.size.toNat - 1 ∧
          p * 2 ^ (getPowerOfTwo 6).toNat ≤ byte ∧
          byte < (p + 1) * 2 ^ (getPowerOfTwo 6).toNat) ∧
      ∀ windowSize refs r, recordedCalls 6 windowSize (refs ++ [r]) =
        recordedCalls 6 windowSize refs ++ (keys r).map .put ++
          (evicted windowSize (refs ++ [r])).elim [] fun r' => (keys r').map .delete :=
  recordedCalls_exact 6 (by decide)

/-! ## The number of calls -/

/-- The call is a `put`. -/
def TableOp.isPut : TableOp → Bool
  | .put _ => true
  | .delete _ => false

/-- The calls of the last `window_set_insert` of a run. -/
def lastCalls (pageSize windowSize : Ull) (refs : List Reference) (r : Reference) : List TableOp :=
  (recordedCalls pageSize windowSize (refs ++ [r])).drop
    (recordedCalls pageSize windowSize refs).length

/-- In every run the reference costs at most `size / 2 ^ e + 2` calls of `put` when it enters, and
as many of `delete` when it leaves. -/
def WorkBounded (pageSize : Ull) (r : Reference) : Prop :=
  ∀ windowSize refs,
    (lastCalls pageSize windowSize refs r).countP TableOp.isPut ≤
      r.size.toNat / 2 ^ (getPowerOfTwo pageSize).toNat + 2 ∧
    ∀ r', evicted windowSize (refs ++ [r']) = some r →
      (lastCalls pageSize windowSize refs r').countP (fun op => !op.isPut) ≤
        r.size.toNat / 2 ^ (getPowerOfTwo pageSize).toNat + 2

/-- The accesses of bounded work: the page size is 1; or the access is empty, and not at address 0
unless a page is half the address space; or its last byte has an address, or one that wraps to the
page of the first or to the page before. -/
def SmallSpan (e address size : ℕ) : Prop :=
  e = 0 ∨ (size = 0 ∧ (address ≠ 0 ∨ e = 63)) ∨
    (1 ≤ size ∧ (address + size ≤ 2 ^ 64 ∨
      address / 2 ^ e ≤ (address + size - 1 - 2 ^ 64) / 2 ^ e + 1))

section Count

variable {pageSize : Ull} {r : Reference}

/-- The page count, when pages have at least two bytes: exact if the last page is not more than
one below the first, above `2 ^ 63` otherwise. -/
theorem Reference.pageCount_toNat {d lower upper : ℕ} (hp : 1 ≤ pageSize.toNat) (hd : 2 ≤ d)
    (hdef : d = 2 ^ Nat.log 2 pageSize.toNat) (hl : lower = r.address.toNat / d)
    (hu : upper = (r.address + r.size - 1).toNat / d) :
    (r.memRef pageSize).pageCount.toNat =
      if lower ≤ upper + 1 then upper + 1 - lower else 2 ^ 64 + upper + 1 - lower := by
  have hlow := shiftRight_toNat hp r.address
  have hupper := shiftRight_toNat hp (r.address + r.size - 1)
  rw [← hdef, ← hl] at hlow
  rw [← hdef, ← hu] at hupper
  have hlt : ∀ v : Ull, v.toNat / d < 2 ^ 63 := fun v =>
    (Nat.div_le_div_left hd (by omega)).trans_lt (by have := v.isLt; omega)
  have h1 := hlt r.address
  have h2 := hlt (r.address + r.size - 1)
  rw [← hl] at h1
  rw [← hu] at h2
  show (_ - _ + 1 : Ull).toNat = _
  split <;> bv_omega

/-- The address of the last byte, as the program computes it. -/
theorem lastByte_toNat (a n : Ull) : (a + n - 1).toNat =
    if a.toNat + n.toNat = 0 then 2 ^ 64 - 1
    else if a.toNat + n.toNat ≤ 2 ^ 64 then a.toNat + n.toNat - 1
    else a.toNat + n.toNat - 1 - 2 ^ 64 := by
  split
  · bv_omega
  · split <;> bv_omega

/-- A count above `2 ^ 63` is not bounded by a number of pages. -/
theorem count_le_iff {lower upper pages : ℕ} (hl : lower < 2 ^ 63) (hp : pages < 2 ^ 63) :
    (if lower ≤ upper + 1 then upper + 1 - lower else 2 ^ 64 + upper + 1 - lower) ≤ pages + 2 ↔
      lower ≤ upper + 1 ∧ upper ≤ lower + pages + 1 := by
  split <;> omega

/-- An empty access at address 0 ends at the last byte there is. -/
theorem span_zero {e : ℕ} (he : 1 ≤ e) (he' : e ≤ 63) :
    (0 / 2 ^ e ≤ (2 ^ 64 - 1) / 2 ^ e + 1 ∧ (2 ^ 64 - 1) / 2 ^ e ≤ 0 / 2 ^ e + 0 / 2 ^ e + 1) ↔
      e = 63 := by
  rw [Nat.zero_div]
  by_cases h63 : e = 63
  · subst h63
    omega
  · have hle : 2 ^ e ≤ 2 ^ 62 := Nat.pow_le_pow_right (by omega) (by omega)
    have hbig : (2 ^ 64 - 1) / 2 ^ 62 ≤ (2 ^ 64 - 1) / 2 ^ e :=
      Nat.div_le_div_left hle (Nat.two_pow_pos e)
    omega

/-- Without a wrap the last page is at most one further than the size says. -/
theorem span_noWrap {d a n last : ℕ} (hd : 0 < d) (hlast : last + 1 = a + n) :
    a / d ≤ last / d + 1 ∧ last / d ≤ a / d + n / d + 1 := by
  by_cases hn0 : n = 0
  · subst hn0
    have h1 := add_div_le last 1 hd
    have h2 : last / d ≤ a / d := Nat.div_le_div_right (by omega)
    rw [show last + 1 = a by omega] at h1
    rw [Nat.zero_div]
    omega
  · have h1 : a / d ≤ last / d := Nat.div_le_div_right (by omega)
    have h2 := Nat.add_div (a := a) (b := n - 1) hd
    have h3 : (n - 1) / d ≤ n / d := Nat.div_le_div_right (by omega)
    rw [show a + (n - 1) = last by omega] at h2
    split at h2 <;> omega

/-- The span of pages of at least two bytes. -/
theorem span_le_iff {e a n : ℕ} (he : 1 ≤ e) (he' : e ≤ 63) (ha : a < 2 ^ 64) {last : ℕ}
    (hlast : last = if a + n = 0 then 2 ^ 64 - 1
      else if a + n ≤ 2 ^ 64 then a + n - 1 else a + n - 1 - 2 ^ 64) (hn : n < 2 ^ 64) :
    (a / 2 ^ e ≤ last / 2 ^ e + 1 ∧ last / 2 ^ e ≤ a / 2 ^ e + n / 2 ^ e + 1) ↔
      SmallSpan e a n := by
  unfold SmallSpan
  by_cases h0 : a + n = 0
  · obtain ⟨rfl, rfl⟩ := Nat.add_eq_zero_iff.mp h0
    rw [if_pos rfl] at hlast
    rw [hlast, span_zero he he']
    omega
  · rw [if_neg h0] at hlast
    by_cases hwrap : a + n ≤ 2 ^ 64
    · rw [if_pos hwrap] at hlast
      exact iff_of_true (span_noWrap (Nat.two_pow_pos e) (by omega)) (by omega)
    · -- the wrapped last byte lies below the first
      rw [if_neg hwrap] at hlast
      have h1 : last / 2 ^ e ≤ a / 2 ^ e := Nat.div_le_div_right (by omega)
      have hpages := Nat.zero_le (n / 2 ^ e)
      rw [← hlast]
      omega

/-- **The page count is bounded by the size iff the span is small.** -/
theorem Reference.pageCount_le_iff (hp : 1 ≤ pageSize.toNat) :
    (r.memRef pageSize).pageCount.toNat ≤
        r.size.toNat / 2 ^ (getPowerOfTwo pageSize).toNat + 2 ↔
      SmallSpan (getPowerOfTwo pageSize).toNat r.address.toNat r.size.toNat := by
  rw [getPowerOfTwo_toNat hp]
  have he64 : Nat.log 2 pageSize.toNat < 64 := Nat.log_lt_of_lt_pow (by omega) pageSize.isLt
  by_cases he : Nat.log 2 pageSize.toNat = 0
  · -- pages of one byte: as many as the size says
    refine iff_of_true ?_ (Or.inl he)
    have hlow := shiftRight_toNat hp r.address
    have hupper := shiftRight_toNat hp (r.address + r.size - 1)
    rw [he, Nat.pow_zero, Nat.div_one] at hlow hupper
    have hcount : (r.memRef pageSize).pageCount = r.size := by
      show (_ - _ + 1 : Ull) = _
      rw [BitVec.eq_of_toNat_eq hlow, BitVec.eq_of_toNat_eq hupper]
      bv_omega
    rw [he, Nat.pow_zero, Nat.div_one, hcount]
    exact Nat.le_add_right _ _
  · have hd : 2 ≤ 2 ^ Nat.log 2 pageSize.toNat :=
      le_trans (by decide) (Nat.pow_le_pow_right (by decide) (by omega : 1 ≤ _))
    have hhalf : ∀ v : Ull, v.toNat / 2 ^ Nat.log 2 pageSize.toNat < 2 ^ 63 := fun v =>
      (Nat.div_le_div_left hd (by omega)).trans_lt (by have := v.isLt; omega)
    rw [Reference.pageCount_toNat hp hd rfl rfl rfl, count_le_iff (hhalf _) (hhalf _)]
    exact span_le_iff (by omega) (by omega) r.address.isLt (lastByte_toNat _ _) r.size.isLt

end Count

/-- The calls of the last reference. -/
theorem lastCalls_eq (pageSize windowSize : Ull) (refs : List Reference) (r : Reference) :
    lastCalls pageSize windowSize refs r = (r.memRef pageSize).addresses.map .put ++
      (evicted windowSize (refs ++ [r])).elim [] fun r' =>
        (r'.memRef pageSize).addresses.map .delete := by
  rw [lastCalls, recordedCalls, recordedCalls, recordRun_concat, recordInsert_calls,
    dequeued_eq_evicted, List.append_assoc, List.drop_left]

theorem countP_puts (as bs : List Ull) :
    (as.map TableOp.put ++ bs.map TableOp.delete).countP TableOp.isPut = as.length ∧
      (as.map TableOp.put ++ bs.map TableOp.delete).countP (fun op : TableOp => !op.isPut) =
        bs.length := by
  simp [List.countP_append, List.countP_map, Function.comp_def, TableOp.isPut]

/-- Entering costs a `put` for each page of the `mem_ref`, and leaving a `delete` for each. -/
theorem countP_lastCalls (pageSize windowSize : Ull) (refs : List Reference) (r : Reference) :
    (lastCalls pageSize windowSize refs r).countP TableOp.isPut =
      (r.memRef pageSize).pageCount.toNat ∧
    ∀ r', evicted windowSize (refs ++ [r]) = some r' →
      (lastCalls pageSize windowSize refs r).countP (fun op => !op.isPut) =
        (r'.memRef pageSize).pageCount.toNat := by
  rw [lastCalls_eq, ← MemRef.length_addresses]
  cases evicted windowSize (refs ++ [r]) with
  | none => exact ⟨(countP_puts (r.memRef pageSize).addresses []).1, fun _ h => by cases h⟩
  | some r'' =>
    obtain ⟨hput, hdel⟩ :=
      countP_puts (r.memRef pageSize).addresses (r''.memRef pageSize).addresses
    refine ⟨hput, fun r' h => ?_⟩
    rw [← MemRef.length_addresses, ← Option.some.inj h]
    exact hdel

/-- **The work per reference is bounded by its size iff its span is small.** -/
theorem work_bounded_iff (pageSize : Ull) (hp : 1 ≤ pageSize.toNat) (r : Reference) :
    WorkBounded pageSize r ↔
      SmallSpan (getPowerOfTwo pageSize).toNat r.address.toNat r.size.toNat := by
  rw [← Reference.pageCount_le_iff hp]
  constructor
  · intro h
    rw [← (countP_lastCalls pageSize 0 [] r).1]
    exact (h 0 []).1
  · intro h windowSize refs
    refine ⟨(countP_lastCalls pageSize windowSize refs r).1.trans_le h, fun r' hev => ?_⟩
    exact ((countP_lastCalls pageSize windowSize refs r').2 r hev).trans_le h

/-- An access of 20 bytes across a border of 16-byte pages. -/
theorem work_bounded_iff_border : WorkBounded 16 ⟨12, 20⟩ ↔
    SmallSpan (getPowerOfTwo 16).toNat (12 : Ull).toNat (20 : Ull).toNat :=
  work_bounded_iff 16 (by decide) ⟨12, 20⟩

/-- **An empty access at address 0** costs `2 ^ 52` calls of `put`, pages having 4096 bytes. -/
theorem work_empty_access :
    (lastCalls 4096 0 [] ⟨0, 0⟩).countP TableOp.isPut = 2 ^ 52 ∧ ¬ WorkBounded 4096 ⟨0, 0⟩ := by
  have hcount : (lastCalls 4096 0 [] ⟨0, 0⟩).countP TableOp.isPut = 2 ^ 52 := by
    rw [(countP_lastCalls 4096 0 [] ⟨0, 0⟩).1]
    decide
  refine ⟨hcount, fun h => ?_⟩
  have hle := (h 0 []).1
  rw [hcount] at hle
  revert hle
  decide

end C380.Valws
