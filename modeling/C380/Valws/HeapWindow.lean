import C380.Valws.HeapTable
import C380.Valws.Pages

/-!
# A whole session of the window set on the heap (`Assignment03/windowset.c`)

`session` is what `main` does with a window set: `initialize_window_set`, any calls of
`window_set_insert`, `get_window_set_size` after each, and `destroy_window_set`. The hash table is
on the heap of `HeapTable.lean` and the queue on that of `LinkedQueue.lean`, whose nodes get the
addresses that the calls name.

* `session_frees_all`: **a session frees everything it allocated, and computes the sizes of
  `Windowset.lean`**, unless `malloc` fails.
-/

namespace C380.Valws.OnHeap

open Separation Separation.Assertion Linked

/-- A loop with nothing to carry. -/
theorem foldlM_unit {m : Type → Type} [Monad m] {β γ : Type} (g : β → γ) (f : γ → m Unit) :
    ∀ as : List β, as.foldlM (fun _ a => f (g a)) () = (as.map g).forM f
  | [] => rfl
  | a :: as => by
    rw [List.foldlM_cons, List.map_cons]
    exact congrArg (f (g a) >>= ·) (funext fun _ => foldlM_unit g f as)

variable {α : Type} [DecidableEq α]

/-! ## The functions -/

/-- The static variables of `windowset.c`, and the heap of the queue. -/
structure HeapWindow (α : Type) where
  pageExponent : Ull
  windowSize : Ull
  machine : Machine
  queue : LinkedQueue
  hashtable : Option α

/-- A call of a function of `queue.c`. -/
def ofQueue {τ : Type} : Option τ → Code α τ
  | some x => pure x
  | none => fault .invalidAddress

/-- `windowset_put`. -/
def windowsetPut (loop fuel : ℕ) (hashtable : Option α) (memRef : MemRef) : Code α Unit :=
  forPages (fun _ a => put loop fuel hashtable a) memRef memRef.pageCount.toNat 0 ()

/-- `windowset_delete`. -/
def windowsetDelete (loop fuel : ℕ) (hashtable : Option α) (memRef : MemRef) : Code α Unit :=
  forPages (fun _ a => delete loop fuel hashtable a) memRef memRef.pageCount.toNat 0 ()

/-- `initialize_window_set`. -/
def initializeWindowSet (pageSize windowSize : Ull) : Code α (HeapWindow α) := do
  let hashtable ← newHashtable
  pure ⟨getPowerOfTwo pageSize, windowSize, newMachine, Linked.newQueue, hashtable⟩

/-- `window_set_insert`. -/
def windowSetInsert (loop fuel : ℕ) (ws : HeapWindow α) (c : Call) : Code α (HeapWindow α) := do
  let memRef := processMemRef ws.pageExponent c.reference.address c.reference.size
  let (machine, queue) ← ofQueue (Linked.enqueue ws.machine ws.queue memRef c.node)
  windowsetPut loop fuel ws.hashtable memRef
  if queue.size > ws.windowSize then do
    let (memRef, machine, queue) ← ofQueue (Linked.dequeue machine queue)
    windowsetDelete loop fuel ws.hashtable memRef
    pure { ws with machine := machine, queue := queue }
  else
    pure { ws with machine := machine, queue := queue }

/-- `get_window_set_size`. -/
def getWindowSetSize (ws : HeapWindow α) : Code α Ull := do
  let t ← load tableKind ws.hashtable
  pure t.count

/-- `destroy_window_set`. -/
def destroyWindowSet (loop fuel queueFuel : ℕ) (ws : HeapWindow α) : Code α Machine := do
  let machine ← ofQueue (destroyQueue queueFuel ws.machine ws.queue)
  destroyHashtable loop fuel ws.hashtable
  pure machine

/-- One iteration of `main`: a call, and the size it reports. -/
def insertAndReport (loop fuel : ℕ) (r : HeapWindow α × List Ull) (c : Call) :
    Code α (HeapWindow α × List Ull) := do
  let ws ← windowSetInsert loop fuel r.1 c
  let size ← getWindowSetSize ws
  pure (ws, r.2 ++ [size])

/-- A whole session: the sizes, and the heap of the queue at the end. -/
def session (loop fuel queueFuel : ℕ) (pageSize windowSize : Ull) (calls : List Call) :
    Code α (List Ull × Machine) := do
  let ws ← initializeWindowSet pageSize windowSize
  let r ← calls.foldlM (insertAndReport loop fuel) (ws, [])
  let machine ← destroyWindowSet loop fuel queueFuel r.1
  pure (r.2, machine)

/-! ## The calls -/

/-- The sizes after each of the calls, by the model over lists. -/
def windowSizes (fuel : ℕ) (pageSize windowSize : Ull) (refs : List Reference) :
    List (Option Ull) :=
  (List.range refs.length).map fun i =>
    (runWindow fuel (refs.take (i + 1)) (Valws.initializeWindowSet pageSize windowSize)).map
      Valws.getWindowSetSize

theorem windowSizes_concat (fuel : ℕ) (pageSize windowSize : Ull) (refs : List Reference)
    (r : Reference) : windowSizes fuel pageSize windowSize (refs ++ [r]) =
      windowSizes fuel pageSize windowSize refs ++
        [(runWindow fuel (refs ++ [r]) (Valws.initializeWindowSet pageSize windowSize)).map
          Valws.getWindowSetSize] := by
  unfold windowSizes
  rw [List.length_append, List.length_singleton, List.range_succ, List.map_append,
    List.map_singleton]
  congr 1
  · refine List.map_congr_left fun i hi => ?_
    rw [List.take_append_of_le_length (List.mem_range.mp hi)]
  · rw [List.take_of_length_le (by simp)]

theorem windowsetPut_eq_forM (loop fuel : ℕ) (p : Option α) (memRef : MemRef) :
    windowsetPut loop fuel p memRef =
      (memRef.addresses.map TableOp.put).forM (callTable loop fuel p) := by
  rw [windowsetPut, forPages_eq, ← foldlM_unit]
  rfl

theorem windowsetDelete_eq_forM (loop fuel : ℕ) (p : Option α) (memRef : MemRef) :
    windowsetDelete loop fuel p memRef =
      (memRef.addresses.map TableOp.delete).forM (callTable loop fuel p) := by
  rw [windowsetDelete, forPages_eq, ← foldlM_unit]
  rfl

/-- The window set with its table at `p`. -/
def ofLinked {τ : Type} (ws : LinkedWindowSet τ) (p : Option α) : HeapWindow α :=
  ⟨ws.pageExponent, ws.windowSize, ws.machine, ws.queue, p⟩

section Insert

variable {loop fuel : ℕ} {p : Option α}

theorem runTable_concat {ops ops' : List TableOp} {t : Hashtable} :
    runTable fuel (ops ++ ops') t = (runTable fuel ops t).bind (runTable fuel ops') :=
  List.foldlM_append

/-- **One `window_set_insert` on the heap** makes the calls that it makes on a table which records
them. -/
theorem windowSetInsert_spec (hloop : 17 ≤ loop) (hfuel : 16 ≤ fuel)
    {ws ws' : LinkedWindowSet (List TableOp)} {c : Call} {t : Hashtable}
    (hins : Linked.windowSetInsert recordPut recordDelete ws c = some ws')
    (hrun : runTable fuel ws.hashtable Valws.newHashtable = some t)
    (ht : TableOk False 1 ws.hashtable.length 0 t) (hlen : ws'.hashtable.length < 2 ^ 60) :
    ∃ t', runTable fuel ws'.hashtable Valws.newHashtable = some t' ∧
      TableOk False 1 ws'.hashtable.length 0 t' ∧
      Triple (tableAt p t) (windowSetInsert loop fuel (ofLinked ws p) c) fun x =>
        fact (x = ofLinked ws' p) * tableAt p t' := by
  unfold windowSetInsert
  unfold Linked.windowSetInsert at hins
  simp only [ofLinked]
  set v := processMemRef ws.pageExponent c.reference.address c.reference.size with hv
  rw [Option.bind_eq_bind, Option.bind_eq_some_iff] at hins
  obtain ⟨⟨m, q⟩, henq, hins⟩ := hins
  simp only [henq, ofQueue, pure_bind, windowsetPut_eq_forM, windowsetDelete_eq_forM]
  simp only [recordPut_eq] at hins
  by_cases hgt : q.size > ws.windowSize
  · rw [if_pos hgt, Option.bind_eq_bind, Option.bind_eq_some_iff] at hins
    obtain ⟨⟨v', m', q'⟩, hdeq, hins⟩ := hins
    rw [Option.some.injEq] at hins
    subst hins
    simp only [recordDelete_eq, List.length_append, List.length_map] at hlen ⊢
    obtain ⟨t₁, hrun₁, hok₁, hputs⟩ := forM_callTable_spec (p := p) hloop hfuel
      (v.addresses.map TableOp.put) ht (by rw [List.length_map]; omega)
    obtain ⟨t₂, hrun₂, hok₂, hdeletes⟩ := forM_callTable_spec (p := p) hloop hfuel
      (v'.addresses.map TableOp.delete) hok₁ (by simp only [List.length_map]; omega)
    simp only [List.length_map] at hok₂
    refine ⟨t₂, ?_, hok₂, ?_⟩
    · rw [runTable_concat, runTable_concat, hrun, Option.bind_some, hrun₁, Option.bind_some, hrun₂]
    · rw [if_pos hgt, hdeq]
      refine hputs.bind fun _ => hdeletes.bind fun _ => Triple.pure ?_
      rw [fact_eq_one rfl, one_mul]
  · rw [if_neg hgt, Option.some.injEq] at hins
    subst hins
    simp only [List.length_append, List.length_map] at hlen ⊢
    obtain ⟨t₁, hrun₁, hok₁, hputs⟩ := forM_callTable_spec (p := p) hloop hfuel
      (v.addresses.map TableOp.put) ht (by rw [List.length_map]; omega)
    simp only [List.length_map] at hok₁
    refine ⟨t₁, ?_, hok₁, ?_⟩
    · rw [runTable_concat, hrun, Option.bind_some, hrun₁]
    · rw [if_neg hgt]
      refine hputs.bind fun _ => Triple.pure ?_
      rw [fact_eq_one rfl, one_mul]

end Insert

/-! ## Sessions -/

section Session

variable {loop fuel : ℕ} {p : Option α} {pageSize windowSize : Ull}

theorem getWindowSetSize_spec {ws : HeapWindow α} {t : Hashtable} (hp : ws.hashtable = p) :
    Triple (tableAt p t) (getWindowSetSize ws) fun n => fact (n = t.count) * tableAt p t := by
  unfold getWindowSetSize
  rw [hp, ← mul_one (tableAt p t)]
  refine tableAt_load fun x hx => Triple.pure ?_
  rw [hx, fact_eq_one rfl, one_mul]

/-- What the calls leave: the queue of the run over a recording table, and that run's calls made
to the table at `p`. -/
structure SessionOk (pageSize windowSize : Ull) (calls : List Call)
    (ws : LinkedWindowSet (List TableOp)) (l : List (Ptr × MemRef)) (t : Hashtable) (fuel : ℕ) :
    Prop where
  window : LinkedWindowOk pageSize windowSize calls ws l
  values : ws.values l = recordRun pageSize windowSize (calls.map Call.reference)
  run : runTable fuel ws.hashtable Valws.newHashtable = some t
  ok : TableOk False 1 ws.hashtable.length 0 t

/-- The size of the table is the size that the model over lists computes. -/
theorem SessionOk.size {calls : List Call} {ws : LinkedWindowSet (List TableOp)}
    {l : List (Ptr × MemRef)} {t : Hashtable}
    (h : SessionOk pageSize windowSize calls ws l t fuel) :
    (runWindow fuel (calls.map Call.reference)
      (Valws.initializeWindowSet pageSize windowSize)).map Valws.getWindowSetSize =
        some t.count := by
  have hrun : runTable fuel (recordRun pageSize windowSize (calls.map Call.reference)).hashtable
      Valws.newHashtable = some t := by
    rw [← h.values]
    exact h.run
  rw [runWindow_eq_replay, replay, hrun]
  rfl

/-- **One more call.** -/
theorem SessionOk.insert (hloop : 17 ≤ loop) (hfuel : 16 ≤ fuel) {calls : List Call}
    {ws : LinkedWindowSet (List TableOp)} {l : List (Ptr × MemRef)} {t : Hashtable}
    (h : SessionOk pageSize windowSize calls ws l t fuel) {c : Call}
    (hfresh : Fresh ws.machine c.node)
    (hlen : (recordedCalls pageSize windowSize
      ((calls ++ [c]).map Call.reference)).length < 2 ^ 60) :
    ∃ ws' l' t', Linked.windowSetInsert recordPut recordDelete ws c = some ws' ∧
      SessionOk pageSize windowSize (calls ++ [c]) ws' l' t' fuel ∧
      ∀ sizes : List Ull, sizes.map some =
          windowSizes fuel pageSize windowSize (calls.map Call.reference) →
        Triple (tableAt p t) (insertAndReport loop fuel (ofLinked ws p, sizes) c) fun r =>
          fact (r.1 = ofLinked ws' p ∧ r.2.map some =
            windowSizes fuel pageSize windowSize ((calls ++ [c]).map Call.reference)) *
              tableAt p t' := by
  obtain ⟨ws', l', hins, hok, hvalues⟩ := h.window.insert hfresh
  have hrecord : ws'.values l' =
      recordRun pageSize windowSize ((calls ++ [c]).map Call.reference) := by
    rw [hvalues, h.values, List.map_append, List.map_singleton, recordRun_concat]
    rfl
  have hcalls : ws'.hashtable =
      recordedCalls pageSize windowSize ((calls ++ [c]).map Call.reference) :=
    congrArg ListWindow.hashtable hrecord
  obtain ⟨t', hrun', hok', htriple⟩ := windowSetInsert_spec (p := p) hloop hfuel hins h.run h.ok
    (by rw [hcalls]; exact hlen)
  have hsession : SessionOk pageSize windowSize (calls ++ [c]) ws' l' t' fuel :=
    ⟨hok, hrecord, hrun', hok'⟩
  refine ⟨ws', l', t', hins, hsession, fun sizes hsizes => ?_⟩
  unfold insertAndReport
  refine htriple.bind fun x => Triple.fact fun hx => ?_
  subst hx
  refine Triple.bind (getWindowSetSize_spec rfl) fun n => Triple.fact fun hn => ?_
  subst hn
  have hreport : (sizes ++ [t'.count]).map some =
      windowSizes fuel pageSize windowSize ((calls ++ [c]).map Call.reference) := by
    have hsize := hsession.size
    rw [List.map_append, List.map_singleton] at hsize
    rw [List.map_append, hsizes, List.map_append, List.map_singleton, List.map_singleton,
      windowSizes_concat, hsize]
  refine Triple.pure ?_
  rw [fact_eq_one ⟨rfl, hreport⟩, one_mul]

theorem length_recordedCalls_le (pageSize windowSize : Ull) (refs : List Reference)
    (r : Reference) : (recordedCalls pageSize windowSize refs).length ≤
      (recordedCalls pageSize windowSize (refs ++ [r])).length := by
  unfold recordedCalls
  rw [recordRun_concat, recordInsert_calls, List.append_assoc, List.length_append]
  exact Nat.le_add_right _ _

/-- **Any calls.** -/
theorem sessionOk_run (hloop : 17 ≤ loop) (hfuel : 16 ≤ fuel) (calls : List Call)
    (hfresh : FreshRun recordPut recordDelete
      (Linked.initializeWindowSet pageSize windowSize []) calls)
    (hlen : (recordedCalls pageSize windowSize (calls.map Call.reference)).length < 2 ^ 60) :
    ∃ ws l t, runLinked recordPut recordDelete calls
        (Linked.initializeWindowSet pageSize windowSize []) = some ws ∧
      SessionOk pageSize windowSize calls ws l t fuel ∧
      Triple (tableAt p Valws.newHashtable) (calls.foldlM (insertAndReport loop fuel)
          (ofLinked (Linked.initializeWindowSet (τ := List TableOp) pageSize windowSize []) p, []))
        fun r => fact (r.1 = ofLinked ws p ∧
          r.2.map some = windowSizes fuel pageSize windowSize (calls.map Call.reference)) *
            tableAt p t := by
  induction calls using List.reverseRecOn with
  | nil =>
    refine ⟨_, [], Valws.newHashtable, rfl, ⟨⟨Linked.newQueue_ok, rfl, rfl,
      (SlidingWindow.last_nil _).symm, rfl⟩, rfl, rfl,
      tableOk_new False 1 0 rfl (Nat.zero_le _)⟩, Triple.pure ?_⟩
    rw [fact_eq_one ⟨rfl, rfl⟩, one_mul]
  | append_singleton calls c ih =>
    have hle := length_recordedCalls_le pageSize windowSize (calls.map Call.reference) c.reference
    rw [← List.map_singleton (f := Call.reference), ← List.map_append] at hle
    obtain ⟨ws, l, t, hrun, hok, htriple⟩ := ih
      (fun pre c' hpre => hfresh pre c' (hpre.trans (List.prefix_append _ _))) (by omega)
    obtain ⟨ws', l', t', hins, hok', hcall⟩ := hok.insert (p := p) hloop hfuel
      (hfresh calls c List.prefix_rfl ws hrun) hlen
    refine ⟨ws', l', t', (runLinked_append hrun).trans hins, hok', ?_⟩
    rw [List.foldlM_append]
    refine htriple.bind fun r => Triple.fact fun hr => ?_
    obtain ⟨x, sizes⟩ := r
    obtain ⟨rfl, hsizes⟩ := hr
    rw [List.foldlM_cons]
    simpa using hcall sizes hsizes

end Session

/-- **A session frees everything it allocated, and reports the sizes of `Windowset.lean`.** With
whatever `malloc` returns, `initialize_window_set`, any calls of `window_set_insert` with
`get_window_set_size` after each, and `destroy_window_set` either fail in a `malloc` of the hash
table or report after each call the size that `runWindow` computes and leave nothing allocated. -/
theorem session_frees_all (loop fuel queueFuel : ℕ) (hloop : 17 ≤ loop) (hfuel : 16 ≤ fuel)
    (pageSize windowSize : Ull) (calls : List Call) (hqueue : calls.length < queueFuel)
    (hfresh : FreshRun recordPut recordDelete
      (Linked.initializeWindowSet pageSize windowSize []) calls)
    (hlen : (recordedCalls pageSize windowSize (calls.map Call.reference)).length < 2 ^ 60)
    (tape : List (α × Found α)) :
    session loop fuel queueFuel pageSize windowSize calls ⟨Heap.empty, tape⟩ = .error .noMemory ∨
      ∃ sizes machine s,
        session loop fuel queueFuel pageSize windowSize calls ⟨Heap.empty, tape⟩ =
          .ok ((sizes, machine), s) ∧
        sizes.map some = windowSizes fuel pageSize windowSize (calls.map Call.reference) ∧
        s.heap = Heap.empty ∧ (∀ p, machine.node p = none) ∧ machine.perrors = 0 := by
  have hsession : Triple (1 : Assertion α (Object α))
      (session loop fuel queueFuel pageSize windowSize calls) fun r =>
        fact (r.1.map some = windowSizes fuel pageSize windowSize (calls.map Call.reference) ∧
          (∀ p, r.2.node p = none) ∧ r.2.perrors = 0) := by
    unfold session initializeWindowSet
    rw [bind_assoc]
    refine (_newHashtable_spec 0).bind fun p => ?_
    rw [pure_bind]
    obtain ⟨ws, l, t, -, hok, htriple⟩ := sessionOk_run (p := p) hloop hfuel calls hfresh hlen
    refine htriple.bind fun r => Triple.fact fun hr => ?_
    obtain ⟨x, sizes⟩ := r
    obtain ⟨rfl, hsizes⟩ := hr
    unfold destroyWindowSet
    have hlength : l.length ≤ calls.length := by
      have hfifo := congrArg List.length hok.window.fifo
      simp only [List.length_append, List.length_map, memRefs] at hfifo
      omega
    obtain ⟨m, hdestroy, -, hperrors, hnone⟩ :=
      destroyQueue_ok l hok.window.ok (lt_of_le_of_lt hlength hqueue)
    simp only [ofLinked, hdestroy, ofQueue, pure_bind, bind_assoc]
    refine (destroyHashtable_spec fuel 0 (by omega)
      (Everywhere.mono (fun _ _ => tame_of_nodeOk (by omega)) hok.ok)).bind fun _ => ?_
    exact Triple.pure (fact_eq_one ⟨hsizes, hnone, hperrors⟩).ge
  rcases Triple.run_empty hsession tape with
    h | ⟨⟨sizes, m⟩, s, hrun, ⟨hsizes, hnone, hperr⟩, hheap⟩
  · exact Or.inl h
  · exact Or.inr ⟨sizes, m, s, hrun, hsizes, hheap, hnone, hperr⟩

/-- The session of four references runs to its end. -/
theorem session_frees_all_four : ∃ sizes machine s,
    session 17 16 5 8 2 reusingCalls ⟨Heap.empty, dirtyTape⟩ = .ok ((sizes, machine), s) ∧
      sizes.map some = windowSizes 16 8 2 (reusingCalls.map Call.reference) ∧
      s.heap = Heap.empty ∧ (∀ p, machine.node p = none) ∧ machine.perrors = 0 := by
  refine (session_frees_all 17 16 5 le_rfl le_rfl 8 2 reusingCalls (by decide)
    (freshRun_of_take (by decide +kernel)) (by decide +kernel) dirtyTape).resolve_left fun h => ?_
  have hok : (session 17 16 5 8 2 reusingCalls ⟨Heap.empty, dirtyTape⟩).isOk = true := by
    decide +kernel
  rw [h] at hok
  cases hok

end C380.Valws.OnHeap
