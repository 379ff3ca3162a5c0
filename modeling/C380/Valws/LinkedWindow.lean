import C380.Valws.LinkedQueue
import C380.Valws.Windowset

/-!
# The window set over the linked queue (`Assignment03/windowset.c`)

`windowSetInsert` here is `window_set_insert` with the queue on the heap. The table and its two
operations are parameters, for the queue does not depend on them. Each call names the address that
`malloc` returns for its node (`Call`); a run is possible when every such address is `Fresh`.

* `windowSetInsert_refines`: a call does to the values of the queue, and to the table, what
  `listInsert` does, which is the call over `Queue.lean`.
* `linkedQueue_window`: **the linked queue is the sliding window** after every run, and
  `destroy_queue` then frees each of its nodes once.
* `runLinked_refines`: with the hash table of the program as the table, the run leaves the hash
  table that `Windowset.lean` computes.
-/

namespace C380.Valws.Linked

open DoublyLinked SlidingWindow

/-- A call of `window_set_insert`, and the address that `malloc` returns in it. -/
structure Call where
  reference : Reference
  node : Ptr

/-- The static variables of `windowset.c`, the heap, and the values `dequeue` has returned. -/
structure LinkedWindowSet (τ : Type) where
  pageExponent : Ull
  windowSize : Ull
  machine : Machine
  queue : LinkedQueue
  hashtable : τ
  dequeued : List MemRef

section Runs

variable {τ : Type} (windowsetPut windowsetDelete : τ → MemRef → τ)

/-- `initialize_window_set`. -/
def initializeWindowSet (pageSize windowSize : Ull) (hashtable : τ) : LinkedWindowSet τ :=
  ⟨getPowerOfTwo pageSize, windowSize, newMachine, newQueue, hashtable, []⟩

/-- `window_set_insert`. -/
def windowSetInsert (ws : LinkedWindowSet τ) (c : Call) : Option (LinkedWindowSet τ) := do
  let memRef := processMemRef ws.pageExponent c.reference.address c.reference.size
  let (machine, queue) ← enqueue ws.machine ws.queue memRef c.node
  let hashtable := windowsetPut ws.hashtable memRef
  if queue.size > ws.windowSize then do
    let (memRef, machine, queue) ← dequeue machine queue
    some { ws with
      machine := machine
      queue := queue
      hashtable := windowsetDelete hashtable memRef
      dequeued := ws.dequeued ++ [memRef] }
  else
    some { ws with machine := machine, queue := queue, hashtable := hashtable }

/-- The window set after a sequence of calls. -/
def runLinked (calls : List Call) (ws : LinkedWindowSet τ) : Option (LinkedWindowSet τ) :=
  calls.foldlM (windowSetInsert windowsetPut windowsetDelete) ws

/-- `malloc` may return this address: not `NULL`, and not allocated. -/
def Fresh (m : Machine) (p : Ptr) : Prop := p ≠ null ∧ m.node p = none

/-- Every address of the run is fresh when it is returned. -/
def FreshRun (ws : LinkedWindowSet τ) (calls : List Call) : Prop :=
  ∀ pre c, pre ++ [c] <+: calls → ∀ ws', runLinked windowsetPut windowsetDelete pre ws = some ws' →
    Fresh ws'.machine c.node

/-! ## The calls on the list of values -/

/-- The window set with the queue of `Queue.lean`. -/
structure ListWindow (τ : Type) where
  queue : Queue
  hashtable : τ
  dequeued : List MemRef

/-- A call on the list of values. -/
def listInsert (windowSize : Ull) (w : ListWindow τ) (memRef : MemRef) : ListWindow τ :=
  let queue := Valws.enqueue w.queue memRef
  let hashtable := windowsetPut w.hashtable memRef
  if queue.size > windowSize then
    let r := Valws.dequeue queue
    ⟨r.2, windowsetDelete hashtable r.1, w.dequeued ++ [r.1]⟩
  else
    ⟨queue, hashtable, w.dequeued⟩

/-- The values of a linked queue with the nodes `l`. -/
def LinkedWindowSet.values (ws : LinkedWindowSet τ) (l : List (Ptr × MemRef)) : ListWindow τ :=
  ⟨⟨ws.queue.size, l.map Prod.snd⟩, ws.hashtable, ws.dequeued⟩

theorem QueueOk.values_ok {ws : LinkedWindowSet τ} {l : List (Ptr × MemRef)}
    (h : QueueOk ws.machine ws.queue l) : (ws.values l).queue.Ok := by
  unfold Queue.Ok LinkedWindowSet.values
  rw [List.length_map]
  exact h.size

/-- **A call refines the call on the list of values.** -/
theorem windowSetInsert_refines {ws : LinkedWindowSet τ} {l : List (Ptr × MemRef)} {c : Call}
    (h : QueueOk ws.machine ws.queue l) (hfresh : Fresh ws.machine c.node) :
    ∃ ws' l', windowSetInsert windowsetPut windowsetDelete ws c = some ws' ∧
      QueueOk ws'.machine ws'.queue l' ∧ l.length + 1 < 2 ^ 64 ∧
      ws'.values l' = listInsert windowsetPut windowsetDelete ws.windowSize (ws.values l)
        (processMemRef ws.pageExponent c.reference.address c.reference.size) ∧
      ws'.pageExponent = ws.pageExponent ∧ ws'.windowSize = ws.windowSize := by
  set v := processMemRef ws.pageExponent c.reference.address c.reference.size with hv
  obtain ⟨m₁, q₁, henq, hok₁, hsize₁⟩ := enqueue_ok h hfresh.1 hfresh.2 v
  have hlen := hok₁.length_lt
  rw [List.length_append, List.length_singleton] at hlen
  have hq₁ : Valws.enqueue (ws.values l).queue v =
      ⟨q₁.size, (l ++ [(c.node, v)]).map Prod.snd⟩ := by
    rw [hsize₁, List.map_append]
    rfl
  rw [windowSetInsert, listInsert, ← hv, henq, Option.bind_eq_bind, Option.bind_some]
  simp only [hq₁]
  by_cases hgt : q₁.size > ws.windowSize
  · rw [if_pos hgt, if_pos hgt]
    cases hl : l ++ [(c.node, v)] with
    | nil => simp at hl
    | cons x l' =>
      obtain ⟨p, w⟩ := x
      rw [hl] at hok₁
      obtain ⟨m₂, q₂, hdeq, hok₂, hsize₂, -⟩ := dequeue_ok hok₁
      have hq : Queue.Ok ⟨q₁.size, ((p, w) :: l').map Prod.snd⟩ := by
        unfold Queue.Ok
        rw [List.length_map]
        exact hok₁.size
      have hdeq' := (dequeue_cons hq rfl).1
      rw [hdeq, hdeq', Option.bind_eq_bind, Option.bind_some]
      refine ⟨_, l', rfl, hok₂, hlen, ?_, rfl, rfl⟩
      rw [LinkedWindowSet.values, hsize₂]
      rfl
  · rw [if_neg hgt, if_neg hgt]
    exact ⟨_, _, rfl, hok₁, hlen, rfl, rfl, rfl⟩

/-! ## Runs -/

/-- A call on the list of values slides the window, and the values that leave come first. -/
theorem listInsert_slide (windowSize : Ull) {w : ListWindow τ} (h : w.queue.Ok)
    (hlen : w.queue.nodes.length + 1 < 2 ^ 64) (v : MemRef) :
    let w' := listInsert windowsetPut windowsetDelete windowSize w v
    w'.queue.nodes = slide windowSize.toNat w.queue.nodes v ∧
      w'.dequeued ++ w'.queue.nodes = w.dequeued ++ w.queue.nodes ++ [v] := by
  simp only [listInsert]
  by_cases hgt : (Valws.enqueue w.queue v).size > windowSize
  · rw [if_pos hgt]
    obtain ⟨-, hnodes, hsplit⟩ := dequeue_slide h hlen windowSize v hgt
    refine ⟨hnodes, ?_⟩
    rw [hnodes, List.append_assoc, List.append_assoc, hsplit]
    rfl
  · rw [if_neg hgt]
    exact ⟨enqueue_slide h hlen windowSize v hgt, (List.append_assoc _ _ _).symm⟩

/-- The values that the calls enqueue. -/
def memRefs (pageSize : Ull) (calls : List Call) : List MemRef :=
  calls.map fun c => c.reference.memRef pageSize

/-- What a run keeps of the window set, its queue having the nodes `l`. -/
structure LinkedWindowOk (pageSize windowSize : Ull) (calls : List Call) (ws : LinkedWindowSet τ)
    (l : List (Ptr × MemRef)) : Prop where
  ok : QueueOk ws.machine ws.queue l
  exponent : ws.pageExponent = getPowerOfTwo pageSize
  width : ws.windowSize = windowSize
  window : l.map Prod.snd = last windowSize.toNat (memRefs pageSize calls)
  fifo : ws.dequeued ++ l.map Prod.snd = memRefs pageSize calls

section Run

variable {windowsetPut windowsetDelete} {pageSize windowSize : Ull} {calls : List Call}
  {ws ws₀ : LinkedWindowSet τ}

theorem runLinked_append {c : Call}
    (h : runLinked windowsetPut windowsetDelete calls ws₀ = some ws) :
    runLinked windowsetPut windowsetDelete (calls ++ [c]) ws₀ =
      windowSetInsert windowsetPut windowsetDelete ws c :=
  Transition.foldlM_concat h

/-- **One call keeps the window**, and does to the values what `listInsert` does. -/
theorem LinkedWindowOk.insert {l : List (Ptr × MemRef)}
    (h : LinkedWindowOk pageSize windowSize calls ws l) {c : Call}
    (hfresh : Fresh ws.machine c.node) :
    ∃ ws' l', windowSetInsert windowsetPut windowsetDelete ws c = some ws' ∧
      LinkedWindowOk pageSize windowSize (calls ++ [c]) ws' l' ∧
      ws'.values l' = listInsert windowsetPut windowsetDelete windowSize (ws.values l)
        (c.reference.memRef pageSize) := by
  obtain ⟨ws', l', hins, hok, hlen, hvalues, hexp, hwidth⟩ :=
    windowSetInsert_refines windowsetPut windowsetDelete h.ok hfresh
  rw [h.exponent, h.width] at hvalues
  have hcalls : memRefs pageSize (calls ++ [c]) =
      memRefs pageSize calls ++ [c.reference.memRef pageSize] := List.map_append
  obtain ⟨hnodes, hfifo⟩ := listInsert_slide windowsetPut windowsetDelete windowSize
    h.ok.values_ok (by simpa [LinkedWindowSet.values] using hlen) (c.reference.memRef pageSize)
  rw [← Reference.memRef] at hvalues
  rw [← hvalues] at hnodes hfifo
  refine ⟨ws', l', hins, ⟨hok, hexp.trans h.exponent, hwidth.trans h.width, ?_, ?_⟩, hvalues⟩
  · have hwindow := h.window
    simp only [LinkedWindowSet.values] at hnodes
    rw [hnodes, hwindow, slide_last, hcalls]
  · have hold := h.fifo
    simp only [LinkedWindowSet.values] at hfifo
    rw [hfifo, hold, hcalls]

/-- **Every possible run keeps the window.** -/
theorem linkedWindowOk_run (hashtable : τ) (hfresh : FreshRun windowsetPut windowsetDelete
      (initializeWindowSet pageSize windowSize hashtable) calls) :
    ∃ ws l, runLinked windowsetPut windowsetDelete calls
        (initializeWindowSet pageSize windowSize hashtable) = some ws ∧
      LinkedWindowOk pageSize windowSize calls ws l := by
  induction calls using List.reverseRecOn with
  | nil =>
    refine ⟨_, [], rfl, newQueue_ok, rfl, rfl, ?_, rfl⟩
    exact (last_nil _).symm
  | append_singleton calls c ih =>
    obtain ⟨ws, l, hrun, hok⟩ := ih fun pre c' hpre =>
      hfresh pre c' (hpre.trans (List.prefix_append _ _))
    obtain ⟨ws', l', hins, hok', -⟩ :=
      hok.insert (hfresh calls c List.prefix_rfl ws hrun)
    exact ⟨ws', l', (runLinked_append hrun).trans hins, hok'⟩

end Run

end Runs

/-! ## The queue is the window -/

/-- The `head` link of the node at `p`, with its value. -/
def Machine.HeadLink (m : Machine) (p : Ptr) (v : MemRef) (next : Ptr) : Prop :=
  ∃ tail, m.node p = some ⟨v, next, tail⟩

/-- The `tail` link of the node at `p`, with its value. -/
def Machine.TailLink (m : Machine) (p : Ptr) (v : MemRef) (next : Ptr) : Prop :=
  ∃ head, m.node p = some ⟨v, head, next⟩

theorem QueueOk.final_eq_null {m : Machine} {q : LinkedQueue} {l : List (Ptr × MemRef)}
    (h : QueueOk m q l) : final null l = null ↔ l = [] := by
  constructor
  · intro hnull
    by_contra hne
    obtain ⟨x, hx, hxnull⟩ := List.mem_map.mp (final_mem null hne)
    exact h.nonnull x hx (hxnull.trans hnull)
  · rintro rfl
    rfl

theorem QueueOk.first_eq_null {m : Machine} {q : LinkedQueue} {l : List (Ptr × MemRef)}
    (h : QueueOk m q l) : first null l = null ↔ l = [] := by
  constructor
  · intro hnull
    by_contra hne
    obtain ⟨x, hx, hxnull⟩ := List.mem_map.mp (first_mem null hne)
    exact h.nonnull x hx (hxnull.trans hnull)
  · rintro rfl
    rfl

/-- The nodes of the queue are the allocated ones. -/
theorem QueueOk.allocated_iff {m : Machine} {q : LinkedQueue} {l : List (Ptr × MemRef)}
    (h : QueueOk m q l) (p : Ptr) : m.node p ≠ none ↔ p ∈ l.map Prod.fst := by
  refine ⟨h.allocated p, fun hp hnone => ?_⟩
  obtain ⟨x, hx, rfl⟩ := List.mem_map.mp hp
  obtain ⟨l₁, l₂, rfl⟩ := List.append_of_mem hx
  have hcell := (seg_append.mp h.seg).2.1
  unfold Machine.Cell at hcell
  rw [hnone] at hcell
  cases hcell

/-- **The linked queue is a sliding window.** After any calls of `window_set_insert` the nodes
from `queue->tail` along the `head` links hold the last `windowSize` references, oldest first;
the `tail` links from `queue->head` visit them in reverse; the stored size is their number, and
both ends are null exactly when there is none. No `dequeue` met an empty queue, the values come
out in the order they went in, the nodes of the queue are the allocated ones, and
`destroy_queue` ends and frees each of them once. -/
theorem linkedQueue_window {τ : Type} (windowsetPut windowsetDelete : τ → MemRef → τ)
    (hashtable : τ) (pageSize windowSize : Ull) (calls : List Call)
    (hfresh : FreshRun windowsetPut windowsetDelete
      (initializeWindowSet pageSize windowSize hashtable) calls) :
    ∃ ws l, runLinked windowsetPut windowsetDelete calls
        (initializeWindowSet pageSize windowSize hashtable) = some ws ∧
      Follows ws.machine.HeadLink null ws.queue.tail l ∧
      Follows ws.machine.TailLink null ws.queue.head l.reverse ∧
      l.map Prod.snd = last windowSize.toNat (memRefs pageSize calls) ∧
      ws.queue.size.toNat = l.length ∧ (ws.queue.head = null ↔ l = []) ∧
      (ws.queue.tail = null ↔ l = []) ∧ ws.machine.perrors = 0 ∧
      ws.dequeued ++ l.map Prod.snd = memRefs pageSize calls ∧
      (l.map Prod.fst).Nodup ∧ (∀ p, ws.machine.node p ≠ none ↔ p ∈ l.map Prod.fst) ∧
      ∀ fuel, l.length < fuel → ∃ m, destroyQueue fuel ws.machine ws.queue = some m ∧
        m.freed = ws.machine.freed ++ l.map Prod.fst ∧ m.perrors = 0 ∧ ∀ p, m.node p = none := by
  obtain ⟨ws, l, hrun, h⟩ := linkedWindowOk_run hashtable hfresh
  have hok := h.ok
  refine ⟨ws, l, hrun, ?_, ?_, h.window, hok.size, ?_, ?_, hok.perrors, h.fifo, hok.nodup,
    hok.allocated_iff, fun fuel hfuel => destroyQueue_ok l hok hfuel⟩
  · rw [hok.tail]
    exact hok.seg.follows_next hok.nonnull
  · rw [hok.head]
    exact hok.seg.follows_prev hok.nonnull
  · rw [hok.head]
    exact hok.final_eq_null
  · rw [hok.tail]
    exact hok.first_eq_null

instance (m : Machine) (p : Ptr) : Decidable (Fresh m p) := inferInstanceAs (Decidable (_ ∧ _))

/-- Freshness call by call, in a form that evaluates. -/
theorem freshRun_of_take {τ : Type} {windowsetPut windowsetDelete : τ → MemRef → τ}
    {ws : LinkedWindowSet τ} {calls : List Call}
    (h : ∀ i < calls.length, (runLinked windowsetPut windowsetDelete (calls.take i) ws).all
      (fun ws' => decide (Fresh ws'.machine (calls.getD i ⟨⟨0, 0⟩, 0⟩).node)) = true) :
    FreshRun windowsetPut windowsetDelete ws calls := by
  rintro pre c ⟨post, rfl⟩ ws' hrun
  have hi := h pre.length (by simp only [List.length_append, List.length_singleton]; omega)
  rw [List.append_assoc, List.take_left, hrun, Option.all_some] at hi
  simpa using hi

/-- Four references through a window of two; the third call gets the first node's address back
after it was freed. -/
def reusingCalls : List Call := [⟨⟨0, 1⟩, 16⟩, ⟨⟨8, 1⟩, 32⟩, ⟨⟨16, 1⟩, 48⟩, ⟨⟨24, 1⟩, 16⟩]

theorem linkedQueue_window_four :
    ∃ ws l, runLinked (fun n _ => n + 1) (fun n _ => n - 1) reusingCalls
        (initializeWindowSet 8 2 0) = some ws ∧
      Follows ws.machine.HeadLink null ws.queue.tail l ∧
      Follows ws.machine.TailLink null ws.queue.head l.reverse ∧
      l.map Prod.snd = last (2 : Ull).toNat (memRefs 8 reusingCalls) ∧
      ws.queue.size.toNat = l.length ∧ (ws.queue.head = null ↔ l = []) ∧
      (ws.queue.tail = null ↔ l = []) ∧ ws.machine.perrors = 0 ∧
      ws.dequeued ++ l.map Prod.snd = memRefs 8 reusingCalls ∧
      (l.map Prod.fst).Nodup ∧ (∀ p, ws.machine.node p ≠ none ↔ p ∈ l.map Prod.fst) ∧
      ∀ fuel, l.length < fuel → ∃ m, destroyQueue fuel ws.machine ws.queue = some m ∧
        m.freed = ws.machine.freed ++ l.map Prod.fst ∧ m.perrors = 0 ∧ ∀ p, m.node p = none :=
  linkedQueue_window (fun n _ => n + 1) (fun n _ => n - 1) 0 8 2 reusingCalls
    (freshRun_of_take (by decide +kernel))

/-! ## The hash table of the program -/

/-- `windowset_put` on a table that may have run out of fuel. -/
def tablePut (fuel : Nat) (t : Option Hashtable) (memRef : MemRef) : Option Hashtable :=
  t.bind fun t => Valws.windowsetPut fuel t memRef

/-- `windowset_delete` on a table that may have run out of fuel. -/
def tableDelete (t : Option Hashtable) (memRef : MemRef) : Option Hashtable :=
  t.map fun t => Valws.windowsetDelete t memRef

/-- The window set of `Windowset.lean` over a list of values. -/
def ListWindow.toWindowSet (pageSize windowSize : Ull) (w : ListWindow (Option Hashtable)) :
    Option WindowSet :=
  w.hashtable.map fun t => ⟨getPowerOfTwo pageSize, pageSize, windowSize, w.queue, t⟩

/-- A call on the list of values is the call of `Windowset.lean`. -/
theorem listInsert_toWindowSet (fuel : ℕ) (pageSize windowSize : Ull)
    (w : ListWindow (Option Hashtable)) (r : Reference) :
    (listInsert (tablePut fuel) tableDelete windowSize w (r.memRef pageSize)).toWindowSet pageSize
        windowSize =
      (w.toWindowSet pageSize windowSize).bind fun ws =>
        Valws.windowSetInsert fuel ws r.address r.size := by
  obtain ⟨q, t, d⟩ := w
  have hmem : processMemRef (getPowerOfTwo pageSize) r.address r.size = r.memRef pageSize := rfl
  cases t with
  | none =>
    simp only [listInsert, ListWindow.toWindowSet, tablePut, tableDelete]
    split <;> rfl
  | some t =>
    simp only [listInsert, ListWindow.toWindowSet, tablePut, Valws.windowSetInsert,
      Option.map_some, Option.bind_some, hmem, Option.bind_eq_bind]
    cases Valws.windowsetPut fuel t (r.memRef pageSize) with
    | none => split <;> rfl
    | some t' =>
      simp only [Option.bind_some]
      split <;> rfl

/-- **The linked queue refines the queue of `Windowset.lean`**: the run leaves the values and the
hash table that `runWindow` computes. -/
theorem runLinked_refines {fuel : ℕ} {pageSize windowSize : Ull} {calls : List Call}
    (hfresh : FreshRun (tablePut fuel) tableDelete
      (initializeWindowSet pageSize windowSize (some newHashtable)) calls) :
    ∃ ws l, runLinked (tablePut fuel) tableDelete calls
        (initializeWindowSet pageSize windowSize (some newHashtable)) = some ws ∧
      LinkedWindowOk pageSize windowSize calls ws l ∧
      runWindow fuel (calls.map Call.reference) (Valws.initializeWindowSet pageSize windowSize) =
        (ws.values l).toWindowSet pageSize windowSize := by
  induction calls using List.reverseRecOn with
  | nil =>
    exact ⟨_, [], rfl, ⟨newQueue_ok, rfl, rfl, (last_nil _).symm, rfl⟩, rfl⟩
  | append_singleton calls c ih =>
    obtain ⟨ws, l, hrun, hok, hwindow⟩ := ih fun pre c' hpre =>
      hfresh pre c' (hpre.trans (List.prefix_append _ _))
    obtain ⟨ws', l', hins, hok', hvalues⟩ :=
      hok.insert (hfresh calls c List.prefix_rfl ws hrun)
    refine ⟨ws', l', (runLinked_append hrun).trans hins, hok', ?_⟩
    rw [hvalues, listInsert_toWindowSet, ← hwindow, List.map_append, runWindow,
      List.foldlM_append]
    simp [runWindow]

end C380.Valws.Linked
