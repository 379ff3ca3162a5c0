import C380.Lib.DoublyLinked
import C380.Valws.Queue

/-!
# The doubly-linked queue (`Assignment03/queue.c`)

`Queue.lean` keeps a queue as the list of its values. Here it is the nodes on the heap: `new_node`
takes the address that `malloc` returned, `destroy_node` gives an address back, and an access
through an address that is not allocated is an error (`none`). A freed address may come back from
a later `malloc`.

* `QueueOk m q l`: the allocated nodes are those of `l`, linked both ways from `tail` to `head`.
* `enqueue_ok`, `dequeue_ok`, `destroyQueue_ok`: what the operations do to such a queue.
-/

namespace C380.Valws.Linked

open DoublyLinked SlidingWindow

/-- An address. -/
abbrev Ptr := Ull

/-- `NULL`. -/
abbrev null : Ptr := 0

/-- `struct queue_node`. -/
structure QueueNode where
  value : MemRef
  head : Ptr
  tail : Ptr
  deriving DecidableEq, Repr

/-- `struct queue`. -/
structure LinkedQueue where
  size : Ull
  head : Ptr
  tail : Ptr
  deriving DecidableEq, Repr

/-- The allocated nodes, the addresses passed to `free` in order, and the number of calls of
`perror`. -/
structure Machine where
  node : Ptr → Option QueueNode
  freed : List Ptr
  perrors : ℕ

/-- A process that has allocated nothing. -/
def newMachine : Machine := ⟨fun _ => none, [], 0⟩

/-! ## Memory accesses -/

/-- `*p`. -/
def Machine.load (m : Machine) (p : Ptr) : Option QueueNode :=
  if p = null then none else m.node p

/-- A write to fields of `*p`. -/
def Machine.modify (m : Machine) (p : Ptr) (f : QueueNode → QueueNode) : Option Machine :=
  (m.load p).map fun n => { m with node := Function.update m.node p (some (f n)) }

/-- `new_node`, `malloc` having returned `p`. -/
def newNode (m : Machine) (p : Ptr) : Option Machine :=
  if p = null then none
  else some { m with node := Function.update m.node p (some ⟨newMemRef, null, null⟩) }

/-- `destroy_node`: `free` of an allocated address. -/
def destroyNode (m : Machine) (p : Ptr) : Option Machine :=
  (m.load p).map fun _ =>
    { m with node := Function.update m.node p none, freed := m.freed ++ [p] }

/-! ## The operations -/

/-- `new_queue`. -/
def newQueue : LinkedQueue := ⟨0, null, null⟩

/-- `enqueue`, `malloc` having returned `node`. -/
def enqueue (m : Machine) (queue : LinkedQueue) (value : MemRef) (node : Ptr) :
    Option (Machine × LinkedQueue) := do
  let m ← newNode m node
  let m ← m.modify node fun n => { n with value := value }
  if queue.head = null then
    some (m, ⟨queue.size + 1, node, node⟩)
  else do
    let m ← m.modify queue.head fun n => { n with head := node }
    let m ← m.modify node fun n => { n with tail := queue.head }
    some (m, ⟨queue.size + 1, node, queue.tail⟩)

/-- `dequeue`. An empty queue prints an error and gives an empty `mem_ref`. -/
def dequeue (m : Machine) (queue : LinkedQueue) : Option (MemRef × Machine × LinkedQueue) :=
  if queue.tail ≠ null then do
    let node := queue.tail
    let n ← m.load node
    if queue.size = 1 then do
      let m ← destroyNode m node
      some (n.value, m, ⟨queue.size - 1, null, null⟩)
    else do
      let m ← m.modify n.head fun n => { n with tail := null }
      let m ← destroyNode m node
      some (n.value, m, ⟨queue.size - 1, queue.head, n.head⟩)
  else some (newMemRef, { m with perrors := m.perrors + 1 }, queue)

/-- `destroy_queue` of a queue that exists, at most `fuel` tests of its loop; the `struct queue`
itself is gone afterwards. -/
def destroyQueue : ℕ → Machine → LinkedQueue → Option Machine
  | 0, _, _ => none
  | fuel + 1, m, queue =>
    if queue.size ≠ 0 then do
      let (_, m, queue) ← dequeue m queue
      destroyQueue fuel m queue
    else some m

/-! ## The representation invariant -/

/-- The node at `p` has value `v` and the two links. -/
def Machine.Cell (m : Machine) (p : Ptr) (v : MemRef) (head tail : Ptr) : Prop :=
  m.node p = some ⟨v, head, tail⟩

/-- The allocated nodes are `l`, linked both ways from `queue->tail` to `queue->head`, oldest
first. -/
structure QueueOk (m : Machine) (q : LinkedQueue) (l : List (Ptr × MemRef)) : Prop where
  seg : Seg m.Cell null l null
  head : q.head = final null l
  tail : q.tail = first null l
  nodup : (l.map Prod.fst).Nodup
  nonnull : ∀ x ∈ l, x.1 ≠ null
  allocated : ∀ p, m.node p ≠ none → p ∈ l.map Prod.fst
  size : q.size.toNat = l.length
  perrors : m.perrors = 0

theorem newQueue_ok : QueueOk newMachine newQueue [] :=
  ⟨trivial, rfl, rfl, List.nodup_nil, fun _ h => absurd h List.not_mem_nil,
    fun _ h => absurd rfl h, rfl, rfl⟩

/-- Distinct addresses that are not null are fewer than `2 ^ 64`. -/
theorem length_lt_of_nodup {ps : List Ptr} (hnd : ps.Nodup) (hne : ∀ p ∈ ps, p ≠ null) :
    ps.length < 2 ^ 64 := by
  have hnd' : ((null :: ps).map BitVec.toNat).Nodup :=
    List.Nodup.map (fun _ _ => BitVec.eq_of_toNat_eq)
      (List.nodup_cons.mpr ⟨fun h => hne null h rfl, hnd⟩)
  have hsub : ((null :: ps).map BitVec.toNat).toFinset ⊆ Finset.range (2 ^ 64) := by
    intro n hn
    obtain ⟨p, -, rfl⟩ := List.mem_map.mp (List.mem_toFinset.mp hn)
    exact Finset.mem_range.mpr p.isLt
  have hcard := Finset.card_le_card hsub
  rw [List.toFinset_card_of_nodup hnd', Finset.card_range, List.length_map,
    List.length_cons] at hcard
  omega

theorem QueueOk.length_lt {m : Machine} {q : LinkedQueue} {l : List (Ptr × MemRef)}
    (h : QueueOk m q l) : l.length < 2 ^ 64 := by
  rw [← List.length_map (f := Prod.fst)]
  refine length_lt_of_nodup h.nodup fun p hp => ?_
  obtain ⟨x, hx, rfl⟩ := List.mem_map.mp hp
  exact h.nonnull x hx

/-! ## What the operations do -/

section Operations

variable {m : Machine} {q : LinkedQueue} {l : List (Ptr × MemRef)} {p : Ptr}

theorem Machine.load_eq {n : QueueNode} (hp : p ≠ null) (h : m.node p = some n) :
    m.load p = some n := by
  unfold Machine.load
  rw [if_neg hp, h]

theorem Machine.modify_eq {n : QueueNode} (hp : p ≠ null) (h : m.node p = some n)
    (f : QueueNode → QueueNode) :
    m.modify p f = some { m with node := Function.update m.node p (some (f n)) } := by
  unfold Machine.modify
  rw [Machine.load_eq hp h, Option.map_some]

theorem destroyNode_eq {n : QueueNode} (hp : p ≠ null) (h : m.node p = some n) :
    destroyNode m p =
      some { m with node := Function.update m.node p none, freed := m.freed ++ [p] } := by
  unfold destroyNode
  rw [Machine.load_eq hp h, Option.map_some]

/-- `enqueue` once the new node has its value. -/
theorem enqueue_eq (hp : p ≠ null) (v : MemRef) {m₁ : Machine}
    (hm : m₁ = { m with node := Function.update m.node p (some ⟨v, null, null⟩) }) :
    enqueue m q v p = if q.head = null then some (m₁, ⟨q.size + 1, p, p⟩)
      else (m₁.modify q.head fun n => { n with head := p }).bind fun m =>
        (m.modify p fun n => { n with tail := q.head }).bind fun m =>
          some (m, ⟨q.size + 1, p, q.tail⟩) := by
  have hvalue : (newNode m p >>= fun m => m.modify p fun n => { n with value := v }) =
      some m₁ := by
    rw [newNode, if_neg hp, Option.bind_eq_bind, Option.bind_some,
      Machine.modify_eq (n := ⟨newMemRef, null, null⟩) hp (Function.update_self ..),
      Function.update_idem, hm]
  unfold enqueue
  rw [← bind_assoc, hvalue]
  rfl

/-- **`enqueue` adds a node at `head`.** -/
theorem enqueue_ok (h : QueueOk m q l) (hp : p ≠ null) (hfree : m.node p = none) (v : MemRef) :
    ∃ m' q', enqueue m q v p = some (m', q') ∧ QueueOk m' q' (l ++ [(p, v)]) ∧
      q'.size = q.size + 1 := by
  have hnotin : p ∉ l.map Prod.fst := by
    intro hmem
    obtain ⟨x, hx, rfl⟩ := List.mem_map.mp hmem
    obtain ⟨l₁, l₂, rfl⟩ := List.append_of_mem hx
    have hcell := (seg_append.mp h.seg).2.1
    unfold Machine.Cell at hcell
    rw [hfree] at hcell
    cases hcell
  have hnd : ((l ++ [(p, v)]).map Prod.fst).Nodup := by
    rw [List.map_append, List.nodup_append']
    exact ⟨h.nodup, List.nodup_singleton p, by simpa using hnotin⟩
  have hne : ∀ x ∈ l ++ [(p, v)], x.1 ≠ null := by
    intro x hx
    rcases List.mem_append.mp hx with hx | hx
    · exact h.nonnull x hx
    · rw [List.mem_singleton.mp hx]
      exact hp
  have hsize : (q.size + 1).toNat = (l ++ [(p, v)]).length := by
    have hlt := length_lt_of_nodup hnd fun r hr => by
      obtain ⟨x, hx, rfl⟩ := List.mem_map.mp hr
      exact hne x hx
    have hsz := h.size
    rw [List.length_map, List.length_append, List.length_singleton] at hlt
    rw [List.length_append, List.length_singleton]
    bv_omega
  rcases l.eq_nil_or_concat' with rfl | ⟨l₀, ⟨r, w⟩, rfl⟩
  · -- empty: the node is both ends
    have hhead : q.head = null := h.head
    refine ⟨{ m with node := Function.update m.node p (some ⟨v, null, null⟩) },
      ⟨q.size + 1, p, p⟩, ?_, ⟨⟨?_, trivial⟩, rfl, rfl, hnd, hne, ?_, hsize, h.perrors⟩, rfl⟩
    · rw [enqueue_eq hp v rfl, if_pos hhead]
    · exact Function.update_self ..
    · intro a ha
      by_cases hap : a = p
      · rw [hap]
        exact List.mem_cons_self
      · refine absurd (h.allocated a ?_) List.not_mem_nil
        simpa only [Function.update_of_ne hap] using ha
  · -- the node goes after the last one
    have hhead : q.head = r := by rw [h.head, final_concat]
    have hr : r ≠ null := h.nonnull (r, w) (by simp)
    obtain ⟨hl₀, hcell, -⟩ := seg_append.mp h.seg
    have hrp : r ≠ p := fun he => hnotin (by simp [he])
    have hr₀ : r ∉ l₀.map Prod.fst := by
      have := h.nodup
      rw [List.map_append, List.nodup_append'] at this
      simpa using this.2.2
    have hp₀ : p ∉ l₀.map Prod.fst := fun hmem => hnotin (by
      rw [List.map_append]
      exact List.mem_append_left _ hmem)
    set node₁ := Function.update m.node p (some ⟨v, null, null⟩) with hnode₁
    have hnode₁r : node₁ r = some ⟨w, null, final null l₀⟩ :=
      (Function.update_of_ne hrp ..).trans hcell
    set node₂ := Function.update node₁ r (some ⟨w, p, final null l₀⟩) with hnode₂
    have hnode₂p : node₂ p = some ⟨v, null, null⟩ :=
      (Function.update_of_ne hrp.symm ..).trans (Function.update_self ..)
    refine ⟨{ m with node := Function.update node₂ p (some ⟨v, null, r⟩) },
      ⟨q.size + 1, p, q.tail⟩, ?_, ⟨?_, by rw [final_concat], ?_, hnd, hne, ?_, hsize,
      h.perrors⟩, rfl⟩
    · rw [enqueue_eq hp v rfl, hhead, if_neg hr, Machine.modify_eq hr hnode₁r, Option.bind_some,
        Machine.modify_eq hp hnode₂p, Option.bind_some]
    · rw [List.append_assoc]
      refine seg_append.mpr ⟨hl₀.congr fun x hx n t hc => ?_, ?_, ?_, trivial⟩
      · have hx' : x.1 ∈ l₀.map Prod.fst := List.mem_map.mpr ⟨x, hx, rfl⟩
        have hxp : x.1 ≠ p := fun he => hp₀ (he ▸ hx')
        have hxr : x.1 ≠ r := fun he => hr₀ (he ▸ hx')
        simp only [Machine.Cell, hnode₂, hnode₁]
        rw [Function.update_of_ne hxp, Function.update_of_ne hxr, Function.update_of_ne hxp]
        exact hc
      · simp only [Machine.Cell]
        rw [Function.update_of_ne hrp, hnode₂, Function.update_self]
        rfl
      · exact Function.update_self ..
    · rw [h.tail, first_append, first_append, first_append]
      cases l₀ <;> rfl
    · intro a ha
      rw [List.map_append, List.mem_append]
      by_cases hap : a = p
      · exact Or.inr (by simp [hap])
      · by_cases har : a = r
        · exact Or.inl (by simp [har])
        · refine Or.inl (h.allocated a ?_)
          simpa only [hnode₂, hnode₁, Function.update_of_ne hap, Function.update_of_ne har]
            using ha

/-- **`dequeue` frees the `tail` node** and gives its value. -/
theorem dequeue_ok {v : MemRef} (h : QueueOk m q ((p, v) :: l)) :
    ∃ m' q', dequeue m q = some (v, m', q') ∧ QueueOk m' q' l ∧ q'.size = q.size - 1 ∧
      m'.freed = m.freed ++ [p] := by
  obtain ⟨hcell, hseg⟩ := h.seg
  have htail : q.tail = p := h.tail
  have hp : p ≠ null := h.nonnull (p, v) List.mem_cons_self
  have hsize : q.size.toNat = l.length + 1 := h.size
  have hnd := h.nodup
  rw [List.map_cons, List.nodup_cons] at hnd
  have hne : ∀ x ∈ l, x.1 ≠ null := fun x hx => h.nonnull x (List.mem_cons_of_mem _ hx)
  -- whatever else is allocated is in the rest of the queue
  have halloc : ∀ a, a ≠ p → m.node a ≠ none → a ∈ l.map Prod.fst := fun a hap ha =>
    (List.mem_cons.mp (h.allocated a ha)).resolve_left hap
  have hload := Machine.load_eq hp hcell
  cases l with
  | nil =>
    -- one node: both ends become null
    have h1 : q.size = 1 := BitVec.eq_of_toNat_eq hsize
    refine ⟨{ m with node := Function.update m.node p none, freed := m.freed ++ [p] },
      ⟨q.size - 1, null, null⟩, ?_, ⟨trivial, rfl, rfl, hnd.2, hne, fun a ha => ?_, ?_,
      h.perrors⟩, rfl, rfl⟩
    · have hfree := destroyNode_eq hp hcell
      simp only [dequeue, htail, if_pos hp, hload, Option.bind_eq_bind, Option.bind_some,
        if_pos h1, hfree, ne_eq]
    · by_cases hap : a = p
      · rw [hap] at ha
        exact absurd (Function.update_self ..) ha
      · refine halloc a hap ?_
        simpa only [Function.update_of_ne hap] using ha
    · rw [h1]
      rfl
  | cons x l =>
    obtain ⟨r, w⟩ := x
    obtain ⟨hcellr, hseg⟩ := hseg
    have hr : r ≠ null := hne (r, w) List.mem_cons_self
    have hrp : r ≠ p := fun he => hnd.1 (by simp [he])
    have hrl : r ∉ l.map Prod.fst := (List.nodup_cons.mp hnd.2).1
    have hpl : p ∉ l.map Prod.fst := fun hmem => hnd.1 (List.mem_cons_of_mem _ hmem)
    rw [List.length_cons] at hsize
    have h1 : q.size ≠ 1 := fun he => by
      rw [he] at hsize
      have : (1 : Ull).toNat = 1 := rfl
      omega
    set node₁ := Function.update m.node r (some ⟨w, first null l, null⟩) with hnode₁
    have hnode₁p : node₁ p = some ⟨v, r, null⟩ :=
      (Function.update_of_ne hrp.symm ..).trans hcell
    refine ⟨{ m with node := Function.update node₁ p none, freed := m.freed ++ [p] },
      ⟨q.size - 1, q.head, r⟩, ?_, ⟨⟨?_, ?_⟩, ?_, rfl, hnd.2, hne, fun a ha => ?_, ?_,
      h.perrors⟩, rfl, rfl⟩
    · have hmod := Machine.modify_eq hr hcellr fun n => { n with tail := null }
      have hfree := destroyNode_eq (m := { m with node := node₁ }) hp hnode₁p
      simp only [dequeue, htail, if_pos hp, hload, Option.bind_eq_bind, Option.bind_some,
        if_neg h1, first_cons, hmod, ← hnode₁, hfree, ne_eq]
    · simp only [Machine.Cell]
      rw [Function.update_of_ne hrp, hnode₁, Function.update_self]
    · refine hseg.congr fun x hx n t hc => ?_
      have hx' : x.1 ∈ l.map Prod.fst := List.mem_map.mpr ⟨x, hx, rfl⟩
      have hxp : x.1 ≠ p := fun he => hpl (he ▸ hx')
      have hxr : x.1 ≠ r := fun he => hrl (he ▸ hx')
      simp only [Machine.Cell, hnode₁]
      rw [Function.update_of_ne hxp, Function.update_of_ne hxr]
      exact hc
    · rw [h.head, final_cons, final_cons, final_cons]
    · by_cases hap : a = p
      · rw [hap] at ha
        exact absurd (Function.update_self ..) ha
      · refine halloc a hap ?_
        by_cases har : a = r
        · rw [har]
          exact fun hnone => by rw [Machine.Cell, hnone] at hcellr; cases hcellr
        · simpa only [hnode₁, Function.update_of_ne hap, Function.update_of_ne har] using ha
    · rw [List.length_cons]
      bv_omega

/-- **`destroy_queue` frees the nodes one after another**, and ends. -/
theorem destroyQueue_ok : ∀ (l : List (Ptr × MemRef)) {m : Machine} {q : LinkedQueue} {fuel : ℕ},
    QueueOk m q l → l.length < fuel →
    ∃ m', destroyQueue fuel m q = some m' ∧ m'.freed = m.freed ++ l.map Prod.fst ∧
      m'.perrors = 0 ∧ ∀ p, m'.node p = none
  | [], m, q, fuel + 1, h, _ => by
    have hsize : q.size = 0 := BitVec.eq_of_toNat_eq h.size
    refine ⟨m, ?_, (List.append_nil _).symm, h.perrors, fun p => ?_⟩
    · rw [destroyQueue, if_neg (not_not.mpr hsize)]
    · by_contra hne
      exact List.not_mem_nil (h.allocated p hne)
  | (p, v) :: l, m, q, fuel + 1, h, hfuel => by
    have hsize : q.size ≠ 0 := fun he => by
      have := h.size
      rw [he, List.length_cons] at this
      exact Nat.succ_ne_zero _ this.symm
    obtain ⟨m₁, q₁, hdeq, hok, -, hfreed⟩ := dequeue_ok h
    obtain ⟨m', hrest, hfreed', hperr, hnone⟩ :=
      destroyQueue_ok l hok (Nat.lt_of_succ_lt_succ hfuel)
    refine ⟨m', ?_, ?_, hperr, hnone⟩
    · rw [destroyQueue, if_pos hsize, hdeq]
      exact hrest
    · rw [hfreed', hfreed, List.append_assoc]
      rfl

end Operations

end C380.Valws.Linked
