import C380.Lib.SinglyLinked
import C380.Valws.LinkedList

/-!
# The singly-linked list on the heap (`Assignment03/linkedlist.c`)

`LinkedList.lean` keeps a list as its counter and its nodes in order. Here the functions of
`linkedlist.c` run on a heap, statement by statement: `malloc` finds anything in the memory it
returns, an access through `NULL` or through an address that was freed is a fault, and the loops
follow the `next` pointers, at most `fuel` tests each.

`listAt p l` says that `p` is the list `l`. For every function the lemma `_spec` says that it turns
`listAt p l` into `listAt p l'`, where `l'` is what the function of `LinkedList.lean` gives; no
node is leaked and none is freed twice.
-/

namespace C380.Valws.OnHeap

open Separation Separation.Assertion SinglyLinked

/-- `struct sll_node`. -/
structure SllNode (α : Type) where
  keyValue : KeyValue
  next : Option α

/-- `struct linked_list`. -/
structure ListHeader (α : Type) where
  count : Ull
  head : Option α

/-- `struct bucket`. -/
structure BucketCell (α : Type) where
  table : Option α
  linkedList : Option α

/-- `struct hashtable`. -/
structure TableCell (α : Type) where
  count : Ull
  level : Ull
  shifts : Ull
  bucket : Fin tableSize → BucketCell α

/-- What is allocated. -/
inductive Object (α : Type) where
  | node (n : SllNode α)
  | list (l : ListHeader α)
  | table (t : TableCell α)

/-- What `malloc` finds in the memory it returns. -/
structure Found (α : Type) where
  node : SllNode α
  list : ListHeader α
  table : TableCell α

section

variable {α : Type}

def Object.toNode : Object α → Option (SllNode α)
  | .node n => some n
  | _ => none

def Object.toList : Object α → Option (ListHeader α)
  | .list l => some l
  | _ => none

def Object.toTable : Object α → Option (TableCell α)
  | .table t => some t
  | _ => none

end

def nodeKind {α : Type} : Kind (Object α) (SllNode α) := ⟨.node, Object.toNode, fun _ => rfl⟩

def listKind {α : Type} : Kind (Object α) (ListHeader α) := ⟨.list, Object.toList, fun _ => rfl⟩

def tableKind {α : Type} : Kind (Object α) (TableCell α) := ⟨.table, Object.toTable, fun _ => rfl⟩

/-- Code of the program with a result in `τ`. -/
abbrev Code (α τ : Type) := Prog α (Object α) (Found α) τ

variable {α : Type} [DecidableEq α]

/-! ## The functions -/

/-- `new_linked_list`. -/
def newLinkedList : Code α (Option α) := do
  let new ← malloc listKind Found.list
  modify listKind new fun l => { l with count := 0 }
  modify listKind new fun l => { l with head := none }
  pure new

/-- The loop of `destroy_linked_list`. -/
def destroyNodes : ℕ → Option α → Code α Unit
  | 0, _ => fault .outOfFuel
  | fuel + 1, node =>
    if node ≠ none then do
      let n ← load nodeKind node
      free node
      destroyNodes fuel n.next
    else pure ()

/-- `destroy_linked_list`. -/
def destroyLinkedList (fuel : ℕ) (linkedList : Option α) : Code α Unit := do
  let l ← load listKind linkedList
  destroyNodes fuel l.head
  free linkedList

/-- The loop of `sll_find`. -/
def sllFindLoop : ℕ → Option α → Ull → Code α (Option α)
  | 0, _, _ => fault .outOfFuel
  | fuel + 1, node, key =>
    if node ≠ none then do
      let n ← load nodeKind node
      if n.keyValue.key = key then pure node else sllFindLoop fuel n.next key
    else pure none

/-- `sll_find`. -/
def sllFind (fuel : ℕ) (linkedList : Option α) (key : Ull) : Code α (Option α) := do
  let l ← load listKind linkedList
  sllFindLoop fuel l.head key

/-- `sll_put_key_value`. -/
def sllPutKeyValue (linkedList : Option α) (kv : KeyValue) : Code α Unit := do
  let newHead ← malloc nodeKind Found.node
  modify nodeKind newHead fun n => { n with keyValue := kv }
  let l ← load listKind linkedList
  if l.head ≠ none then
    modify nodeKind newHead fun n => { n with next := l.head }
  else
    modify nodeKind newHead fun n => { n with next := none }
  modify listKind linkedList fun l => { l with head := newHead }
  modify listKind linkedList fun l => { l with count := l.count + 1 }

/-- `sll_insert`. -/
def sllInsert (linkedList : Option α) (key : Ull) : Code α Unit :=
  sllPutKeyValue linkedList ⟨key, 1⟩

/-- `sll_add`. -/
def sllAdd (fuel : ℕ) (linkedList : Option α) (key : Ull) : Code α Unit := do
  let node ← sllFind fuel linkedList key
  if node ≠ none then
    modify nodeKind node fun n => { n with keyValue.value := n.keyValue.value + 1 }
  else
    sllInsert linkedList key

/-- `sll_delete`. -/
def sllDelete (linkedList node previous : Option α) : Code α Unit := do
  modify listKind linkedList fun l => { l with count := l.count - 1 }
  let n ← load nodeKind node
  if previous ≠ none then
    modify nodeKind previous fun m => { m with next := n.next }
  else
    modify listKind linkedList fun l => { l with head := n.next }
  free node

/-- The loop of `sll_remove`. -/
def sllRemoveLoop (linkedList : Option α) (key : Ull) : ℕ → Option α → Option α → Code α Unit
  | 0, _, _ => fault .outOfFuel
  | fuel + 1, node, previous =>
    if node ≠ none then do
      let n ← load nodeKind node
      if n.keyValue.key = key then do
        modify nodeKind node fun n => { n with keyValue.value := n.keyValue.value - 1 }
        let n ← load nodeKind node
        if n.keyValue.value = 0 then sllDelete linkedList node previous else pure ()
      else sllRemoveLoop linkedList key fuel n.next node
    else pure ()

/-- `sll_remove`. -/
def sllRemove (fuel : ℕ) (linkedList : Option α) (key : Ull) : Code α Unit := do
  let l ← load listKind linkedList
  sllRemoveLoop linkedList key fuel l.head none

/-- `sll_pop`: the popped pair, or `none` for `false`. -/
def sllPop (linkedList : Option α) : Code α (Option KeyValue) := do
  let l ← load listKind linkedList
  if l.head ≠ none then do
    let n ← load nodeKind l.head
    sllDelete linkedList l.head none
    modify listKind linkedList fun l => { l with count := l.count - 1 }
    pure (some n.keyValue)
  else pure none

/-- `while (sll_pop(list, &kv)) body`. -/
def whileSllPop (body : KeyValue → Code α Unit) : ℕ → Option α → Code α Unit
  | 0, _ => fault .outOfFuel
  | fuel + 1, linkedList => do
    match ← sllPop linkedList with
    | some kv => do
      body kv
      whileSllPop body fuel linkedList
    | none => pure ()

/-! ## What a list is on the heap -/

/-- A node with its link. -/
abbrev nodeObject (kv : KeyValue) (next : Option α) : Object α := nodeKind.obj ⟨kv, next⟩

/-- The nodes of `l` from `p` on, the last with the null link. -/
abbrev nodesAt (p : Option α) (l : List KeyValue) : Assertion α (Object α) :=
  Seg nodeObject p l none

theorem nodesAt_cons {p : Option α} {kv : KeyValue} {l : List KeyValue} :
    nodesAt p (kv :: l) = ex fun next => pointsTo p (nodeObject kv next) * nodesAt next l := rfl

/-- A node in the middle. -/
theorem middle_le_nodesAt {p q next : Option α} {kv : KeyValue} {a b : List KeyValue} :
    Seg nodeObject p a q * (pointsTo q (nodeObject kv next) * nodesAt next b) ≤
      nodesAt p (a ++ kv :: b) :=
  seg_append.ge.trans' (le_ex q (mul_le_mul' le_rfl cons_le_seg))

/-- `p` is the list `l`. -/
def listAt (p : Option α) (l : LinkedList) : Assertion α (Object α) :=
  ex fun head => pointsTo p (listKind.obj ⟨l.count, head⟩) * nodesAt head l.nodes

/-! ## What the functions do -/

variable {p : Option α} {l : LinkedList}

theorem newLinkedList_spec :
    Triple (1 : Assertion α (Object α)) newLinkedList fun p => listAt p Valws.newLinkedList := by
  unfold newLinkedList
  refine Triple.malloc fun p g => ?_
  refine Triple.modify ?_
  refine Triple.modify ?_
  refine Triple.pure ?_
  rw [mul_one]
  refine le_ex none ?_
  simp [Valws.newLinkedList]

/-- `sll_put_key_value` allocates a new head. -/
theorem sllPutKeyValue_spec (kv : KeyValue) : Triple (listAt p l) (sllPutKeyValue p kv) fun _ =>
    listAt p (Valws.sllPutKeyValue l kv) := by
  unfold sllPutKeyValue
  refine Triple.malloc fun q g => ?_
  refine Triple.modify ?_
  unfold listAt
  rw [mul_ex]
  refine Triple.ex fun head => ?_
  rw [mul_left_comm]
  refine Triple.load ?_
  rw [mul_left_comm]
  -- both branches leave the old head as the link of the new node
  have hlink : Triple (pointsTo q (nodeObject kv head) *
      (pointsTo p (listKind.obj ⟨l.count, head⟩) * nodesAt head l.nodes))
      (do
        modify listKind p fun l => { l with head := q }
        modify listKind p fun l => { l with count := l.count + 1 } : Code α Unit)
      fun _ => listAt p (Valws.sllPutKeyValue l kv) := by
    rw [mul_left_comm]
    refine Triple.modify ?_
    refine ((Triple.modify_only _).frame _).post fun _ => le_ex q ?_
    exact mul_le_mul' le_rfl cons_le_seg
  by_cases hhead : head = none
  · rw [if_neg (not_not.mpr hhead)]
    refine Triple.modify ?_
    rwa [hhead] at hlink ⊢
  · rw [if_pos hhead]
    exact Triple.modify hlink

/-- The nodes that a walk from `head` has left behind, latest first: `previous` is the latest of
them, and `node` comes next. -/
def walked (head : Option α) : List KeyValue → Option α → Option α → Assertion α (Object α)
  | [], previous, node => fact (previous = none) * fact (head = node)
  | kv :: done, previous, node =>
    Seg nodeObject head done.reverse previous * pointsTo previous (nodeObject kv node)

theorem walked_start (head : Option α) : walked head [] none head = 1 := by
  rw [walked, fact_eq_one rfl, fact_eq_one rfl, one_mul]

theorem walked_le {head previous node : Option α} : ∀ {done : List KeyValue},
    walked head done previous node ≤ Seg nodeObject head done.reverse node
  | [] => fun _ h => (fact_mul.mp h).2
  | kv :: done => by
    rw [List.reverse_cons, seg_concat]
    exact le_ex previous le_rfl

theorem walked_step {head previous node next : Option α} {kv : KeyValue} {done : List KeyValue} :
    walked head done previous node * pointsTo node (nodeObject kv next) ≤
      walked head (kv :: done) node next :=
  mul_le_mul' walked_le le_rfl

/-- `sll_delete` unlinks the node after those walked past. -/
theorem sllDelete_spec {c : Ull} {head previous node next : Option α} {kv : KeyValue}
    {done todo : List KeyValue} :
    Triple (pointsTo p (listKind.obj ⟨c, head⟩) * (walked head done previous node *
        (pointsTo node (nodeObject kv next) * nodesAt next todo)))
      (sllDelete p node previous) fun _ => listAt p ⟨c - 1, done.reverse ++ todo⟩ := by
  unfold sllDelete
  refine Triple.modify ?_
  refine Triple.rearrange (pointsTo node (nodeObject kv next) *
    (pointsTo p (listKind.obj ⟨c - 1, head⟩) * (walked head done previous node *
      nodesAt next todo))) ?_
  refine Triple.load ?_
  have hfree : Triple (pointsTo node (nodeObject kv next) * listAt p ⟨c - 1, done.reverse ++ todo⟩)
      (free node : Code α Unit) fun _ => listAt p ⟨c - 1, done.reverse ++ todo⟩ :=
    (Triple.free_only.frame _).post fun _ => (one_mul _).le
  cases done with
  | nil =>
    rw [walked, mul_assoc]
    refine Triple.rearrange (fact (previous = none) * (pointsTo p (listKind.obj ⟨c - 1, head⟩) *
      (pointsTo node (nodeObject kv next) * (fact (head = node) * nodesAt next todo)))) ?_
    refine Triple.fact fun hprev => ?_
    rw [if_neg (not_not.mpr hprev)]
    refine Triple.modify ?_
    rw [mul_left_comm]
    refine hfree.pre (mul_le_mul' le_rfl (le_ex next (mul_le_mul' le_rfl fun _ h => ?_)))
    exact (fact_mul.mp h).2
  | cons kv' done =>
    refine Triple.rearrange (pointsTo previous (nodeObject kv' node) *
      (pointsTo node (nodeObject kv next) * (pointsTo p (listKind.obj ⟨c - 1, head⟩) *
        (Seg nodeObject head done.reverse previous * nodesAt next todo)))) ?_ (by
          rw [walked]; ac_rfl)
    refine Triple.not_null fun hprev => ?_
    rw [if_pos hprev]
    refine Triple.modify ?_
    refine Triple.rearrange (pointsTo node (nodeObject kv next) *
      (pointsTo p (listKind.obj ⟨c - 1, head⟩) * (Seg nodeObject head done.reverse previous *
        (pointsTo previous (nodeObject kv' next) * nodesAt next todo)))) ?_
    refine hfree.pre (mul_le_mul' le_rfl (le_ex head (mul_le_mul' le_rfl ?_)))
    rw [List.reverse_cons, List.append_assoc, List.singleton_append]
    exact middle_le_nodesAt

theorem sllPop_nil {c : Ull} : Triple (listAt p ⟨c, []⟩) (sllPop p : Code α (Option KeyValue))
    fun x => fact (x = none) * listAt p ⟨c, []⟩ := by
  unfold sllPop
  refine Triple.ex fun head => ?_
  refine Triple.load ?_
  rw [mul_comm]
  refine Triple.fact fun hhead => ?_
  rw [if_neg (not_not.mpr hhead)]
  refine Triple.pure ?_
  rw [fact_eq_one rfl, one_mul]
  subst hhead
  refine le_ex none ?_
  show _ ≤ _ * Seg nodeObject none [] none
  rw [seg_refl, mul_one]

theorem sllPop_cons {c : Ull} {kv : KeyValue} {ns : List KeyValue} :
    Triple (listAt p ⟨c, kv :: ns⟩) (sllPop p : Code α (Option KeyValue))
      fun x => fact (x = some kv) * listAt p ⟨c - 1 - 1, ns⟩ := by
  unfold sllPop
  refine Triple.ex fun head => ?_
  refine Triple.load ?_
  show Triple (_ * Seg nodeObject head (kv :: ns) none) _ _
  rw [seg_cons, mul_ex]
  refine Triple.ex fun next => ?_
  rw [mul_left_comm]
  refine Triple.not_null fun hhead => ?_
  rw [if_pos hhead]
  refine Triple.load ?_
  refine Triple.rearrange (pointsTo p (listKind.obj ⟨c, head⟩) * (walked head [] none head *
    (pointsTo head (nodeObject kv next) * nodesAt next ns))) ?_ (by
      rw [walked_start, one_mul, mul_left_comm])
  refine sllDelete_spec.bind fun _ => ?_
  refine Triple.ex fun head' => ?_
  refine Triple.modify (Triple.pure ?_)
  rw [fact_eq_one rfl, one_mul]
  exact le_ex head' le_rfl

section Loop

variable {τ : Type} (T : τ → Assertion α (Object α)) (step : τ → KeyValue → Option τ)
  (J : List KeyValue → τ → Prop) {body : KeyValue → Code α Unit}

/-- **The pop loop** gives the nodes to its body from the head on, and takes two off the counter
for each. `J` holds of what is left of the list and what the body has made so far. -/
theorem whileSllPop_spec (hbody : ∀ kv ns t t', J (kv :: ns) t →
      step t kv = some t' → J ns t' ∧ Triple (T t) (body kv) fun _ => T t') :
    ∀ (ns : List KeyValue) {c : Ull} {t t' : τ} {fuel : ℕ}, ns.length < fuel → J ns t →
      ns.foldlM step t = some t' → Triple (listAt p ⟨c, ns⟩ * T t) (whileSllPop body fuel p)
        fun _ => listAt p ⟨c - BitVec.ofNat 64 (2 * ns.length), []⟩ * T t'
  | [], c, t, t', fuel + 1, _, _, ht => by
    unfold whileSllPop
    refine sllPop_nil.call fun x => ?_
    rw [mul_assoc]
    refine Triple.fact fun hx => ?_
    subst hx
    refine Triple.pure ?_
    obtain rfl : t = t' := Option.some.inj ht
    simp
  | kv :: ns, c, t, t', fuel + 1, hfuel, hJ, ht => by
    obtain ⟨t₁, hstep, hrest⟩ := Option.bind_eq_some_iff.mp ht
    obtain ⟨hJ₁, hkv⟩ := hbody kv ns t t₁ hJ hstep
    unfold whileSllPop
    refine sllPop_cons.call fun x => ?_
    rw [mul_assoc]
    refine Triple.fact fun hx => ?_
    subst hx
    rw [mul_comm]
    refine hkv.call fun _ => ?_
    rw [mul_comm]
    refine (whileSllPop_spec hbody ns (Nat.lt_of_succ_lt_succ hfuel) hJ₁ hrest).post fun _ => ?_
    have hc : c - 1 - 1 - BitVec.ofNat 64 (2 * ns.length) =
        c - BitVec.ofNat 64 (2 * (kv :: ns).length) := by
      rw [List.length_cons, Nat.mul_succ]
      bv_omega
    rw [hc]

end Loop

theorem destroyNodes_spec : ∀ (ns : List KeyValue) {node : Option α} {fuel : ℕ},
    ns.length < fuel → Triple (nodesAt node ns) (destroyNodes fuel node) fun _ => 1
  | [], node, fuel + 1, _ => by
    unfold destroyNodes
    rw [← mul_one (nodesAt node [])]
    refine Triple.fact fun hnode => ?_
    rw [if_neg (not_not.mpr hnode)]
    exact Triple.pure le_rfl
  | kv :: ns, node, fuel + 1, hfuel => by
    unfold destroyNodes
    refine Triple.ex fun next => ?_
    refine Triple.not_null fun hnode => ?_
    rw [if_pos hnode]
    refine Triple.load ?_
    refine Triple.free ?_
    exact destroyNodes_spec ns (Nat.lt_of_succ_lt_succ hfuel)

/-- **`destroy_linked_list` frees the nodes and the list**. -/
theorem destroyLinkedList_spec {fuel : ℕ} (hfuel : l.nodes.length < fuel) :
    Triple (listAt p l) (destroyLinkedList fuel p) fun _ => 1 := by
  unfold destroyLinkedList
  refine Triple.ex fun head => ?_
  refine Triple.load ?_
  rw [mul_comm]
  refine (destroyNodes_spec l.nodes hfuel).call fun _ => ?_
  rw [one_mul]
  exact Triple.free_only

/-! ## The keyed operations -/

section Keyed

variable {key v : Ull} {a b : List KeyValue}

/-- `sll_find` of an absent key walks the whole list. -/
theorem sllFindLoop_absent : ∀ (ns : List KeyValue) {node : Option α} {fuel : ℕ},
    ns.length < fuel → key ∉ keysOf ns → Triple (nodesAt node ns) (sllFindLoop fuel node key)
      fun q => fact (q = none) * nodesAt node ns
  | [], node, fuel + 1, _, _ => by
    unfold sllFindLoop
    rw [← mul_one (nodesAt node [])]
    refine Triple.fact fun hnode => ?_
    subst hnode
    rw [if_neg (not_not.mpr rfl)]
    refine Triple.pure ?_
    rw [fact_eq_one rfl, one_mul, mul_one, nodesAt, seg_refl]
  | kv :: ns, node, fuel + 1, hfuel, hkey => by
    rw [keysOf_cons, List.mem_cons, not_or] at hkey
    unfold sllFindLoop
    refine Triple.ex fun next => ?_
    refine Triple.not_null fun hnode => ?_
    rw [if_pos hnode]
    refine Triple.load ?_
    rw [if_neg (Ne.symm hkey.1), mul_comm]
    refine ((sllFindLoop_absent ns (Nat.lt_of_succ_lt_succ hfuel) hkey.2).frame _).post
      fun q => ?_
    rw [mul_assoc]
    refine mul_le_mul' le_rfl ?_
    rw [mul_comm]
    exact le_ex next le_rfl

/-- `sll_find` of a stored key stops at its node. -/
theorem sllFindLoop_present : ∀ (a : List KeyValue) {node : Option α} {fuel : ℕ},
    a.length < fuel → key ∉ keysOf a →
    Triple (nodesAt node (a ++ ⟨key, v⟩ :: b)) (sllFindLoop fuel node key) fun q => ex fun next =>
      pointsTo q (nodeObject ⟨key, v⟩ next) * (Seg nodeObject node a q * nodesAt next b)
  | [], node, fuel + 1, _, _ => by
    unfold sllFindLoop
    refine Triple.ex fun next => ?_
    refine Triple.not_null fun hnode => ?_
    rw [if_pos hnode]
    refine Triple.load ?_
    rw [if_pos rfl]
    refine Triple.pure (le_ex next ?_)
    rw [seg_refl, one_mul]
  | kv :: a, node, fuel + 1, hfuel, hkey => by
    rw [keysOf_cons, List.mem_cons, not_or] at hkey
    unfold sllFindLoop
    refine Triple.ex fun next => ?_
    refine Triple.not_null fun hnode => ?_
    rw [if_pos hnode]
    refine Triple.load ?_
    rw [if_neg (Ne.symm hkey.1), mul_comm]
    refine ((sllFindLoop_present a (Nat.lt_of_succ_lt_succ hfuel) hkey.2).frame _).post fun q => ?_
    rw [ex_mul]
    refine ex_mono fun next' => ?_
    calc pointsTo q (nodeObject ⟨key, v⟩ next') * (Seg nodeObject next a q * nodesAt next' b) *
          pointsTo node (nodeObject kv next)
        = pointsTo q (nodeObject ⟨key, v⟩ next') * ((pointsTo node (nodeObject kv next) *
            Seg nodeObject next a q) * nodesAt next' b) := by ac_rfl
      _ ≤ _ := mul_le_mul' le_rfl (mul_le_mul' cons_le_seg le_rfl)

/-- **`sll_add`** increments the value of a stored key in place, and puts an absent one in front. -/
theorem sllAdd_spec {fuel : ℕ} (hfuel : l.nodes.length < fuel) (key : Ull) :
    Triple (listAt p l) (sllAdd fuel p key) fun _ => listAt p (Valws.sllAdd l key) := by
  obtain ⟨c, ns⟩ := l
  unfold sllAdd sllFind
  rw [bind_assoc]
  refine Triple.ex fun head => ?_
  refine Triple.load ?_
  rw [mul_comm]
  by_cases hkey : key ∈ keysOf ns
  · obtain ⟨a, v, b, hns, ha, hadd⟩ := Valws.sllAdd_old (l := ⟨c, ns⟩) hkey
    simp only at hns
    subst hns
    rw [List.length_append] at hfuel
    refine (sllFindLoop_present a (by omega) ha).call fun q => ?_
    rw [ex_mul]
    refine Triple.ex fun next => ?_
    rw [mul_assoc]
    refine Triple.not_null fun hq => ?_
    rw [if_pos hq]
    refine ((Triple.modify_only _).frame _).post fun _ => ?_
    rw [hadd]
    calc pointsTo q (nodeObject ⟨key, v + 1⟩ next) * (Seg nodeObject head a q * nodesAt next b *
          pointsTo p (listKind.obj ⟨c, head⟩))
        = pointsTo p (listKind.obj ⟨c, head⟩) * (Seg nodeObject head a q *
            (pointsTo q (nodeObject ⟨key, v + 1⟩ next) * nodesAt next b)) := by ac_rfl
      _ ≤ pointsTo p (listKind.obj ⟨c, head⟩) * nodesAt head (a ++ ⟨key, v + 1⟩ :: b) :=
        mul_le_mul' le_rfl middle_le_nodesAt
      _ ≤ _ := le_ex head le_rfl
  · refine (sllFindLoop_absent ns hfuel hkey).call fun q => ?_
    rw [mul_assoc]
    refine Triple.fact fun hq => ?_
    rw [if_neg (not_not.mpr hq), Valws.sllAdd_new hkey, mul_comm]
    exact (sllPutKeyValue_spec ⟨key, 1⟩).pre (le_ex head le_rfl)

/-- `sll_remove` of a stored key, its node reached. -/
theorem sllRemove_split (ha : key ∉ keysOf a) {c : Ull} :
    Valws.sllRemove ⟨c, a ++ ⟨key, v⟩ :: b⟩ key =
      if v - 1 = 0 then ⟨c - 1, a ++ b⟩ else ⟨c, a ++ ⟨key, v - 1⟩ :: b⟩ := by
  have hfind : Valws.sllFind ⟨c, a ++ ⟨key, v⟩ :: b⟩ key = some a.length := by
    unfold Valws.sllFind
    rw [List.findIdx?_append, List.findIdx?_eq_none_iff.mpr fun e he => ?_]
    · simp [List.findIdx?_cons]
    · rw [beq_eq_false_iff_ne]
      rintro rfl
      exact ha (mem_keysOf.mpr ⟨e, he, rfl⟩)
  unfold Valws.sllRemove
  rw [hfind]
  simp [modify_length_append, Valws.sllDelete, List.eraseIdx_append_of_length_le]

/-- The loop of `sll_remove`, after it has walked past `done`. -/
theorem sllRemoveLoop_spec {c : Ull} {head : Option α} : ∀ (todo : List KeyValue)
    {done : List KeyValue} {node previous : Option α} {fuel : ℕ}, todo.length < fuel →
    key ∉ keysOf done.reverse →
    Triple (pointsTo p (listKind.obj ⟨c, head⟩) * (walked head done previous node *
        nodesAt node todo)) (sllRemoveLoop p key fuel node previous)
      fun _ => listAt p (Valws.sllRemove ⟨c, done.reverse ++ todo⟩ key)
  | [], done, node, previous, fuel + 1, _, hdone => by
    unfold sllRemoveLoop
    refine Triple.rearrange (fact (node = none) * (pointsTo p (listKind.obj ⟨c, head⟩) *
      walked head done previous node)) ?_
    refine Triple.fact fun hnode => ?_
    subst hnode
    rw [if_neg (not_not.mpr rfl), List.append_nil, sllRemove_absent hdone]
    exact Triple.pure (le_ex head (mul_le_mul' le_rfl walked_le))
  | kv :: todo, done, node, previous, fuel + 1, hfuel, hdone => by
    unfold sllRemoveLoop
    rw [nodesAt_cons]
    simp only [mul_ex]
    refine Triple.ex fun next => ?_
    refine Triple.rearrange (pointsTo node (nodeObject kv next) *
      (pointsTo p (listKind.obj ⟨c, head⟩) * (walked head done previous node *
        nodesAt next todo))) ?_
    refine Triple.not_null fun hnode => ?_
    rw [if_pos hnode]
    refine Triple.load ?_
    by_cases hkey : kv.key = key
    · obtain ⟨k, v⟩ := kv
      simp only at hkey
      subst hkey
      rw [if_pos rfl, sllRemove_split hdone]
      refine Triple.modify ?_
      refine Triple.load ?_
      dsimp only
      refine Triple.rearrange (pointsTo p (listKind.obj ⟨c, head⟩) *
        (walked head done previous node *
          (pointsTo node (nodeObject ⟨k, v - 1⟩ next) * nodesAt next todo))) ?_
      by_cases hv : v - 1 = 0
      · rw [if_pos hv, if_pos hv]
        exact sllDelete_spec
      · rw [if_neg hv, if_neg hv]
        refine Triple.pure (le_ex head (mul_le_mul' le_rfl ?_))
        exact (mul_le_mul' walked_le le_rfl).trans middle_le_nodesAt
    · rw [if_neg hkey]
      refine Triple.rearrange (pointsTo p (listKind.obj ⟨c, head⟩) *
        ((walked head done previous node * pointsTo node (nodeObject kv next)) *
          nodesAt next todo)) ?_
      have hdone' : key ∉ keysOf (kv :: done).reverse := by
        simp only [keysOf, List.reverse_cons, List.map_append, List.mem_append] at hdone ⊢
        exact not_or.mpr ⟨hdone, by simpa using Ne.symm hkey⟩
      refine Triple.pre ?_ (mul_le_mul' le_rfl (mul_le_mul' walked_step le_rfl))
      have happend : done.reverse ++ kv :: todo = (kv :: done).reverse ++ todo := by
        rw [List.reverse_cons, List.append_assoc, List.singleton_append]
      rw [happend]
      exact sllRemoveLoop_spec todo (Nat.lt_of_succ_lt_succ hfuel) hdone'

/-- **`sll_remove`** decrements the value of a stored key, and frees its node at zero. -/
theorem sllRemove_spec {fuel : ℕ} (hfuel : l.nodes.length < fuel) (key : Ull) :
    Triple (listAt p l) (sllRemove fuel p key) fun _ => listAt p (Valws.sllRemove l key) := by
  unfold sllRemove
  refine Triple.ex fun head => ?_
  refine Triple.load ?_
  refine Triple.rearrange (pointsTo p (listKind.obj ⟨l.count, head⟩) *
    (walked head [] none head * nodesAt head l.nodes)) ?_ (by rw [walked_start, one_mul])
  exact sllRemoveLoop_spec l.nodes hfuel List.not_mem_nil

end Keyed

end C380.Valws.OnHeap
