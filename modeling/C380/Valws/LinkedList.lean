import C380.Valws.Base

/-!
# The bucket's singly-linked list (`Assignment03/linkedlist.c`)

A `struct linked_list` is its `count` field and the nodes reached from `head`, in that order; a
node pointer is the position of the node. `count` is stored, not computed: `sll_delete` lowers it
once for every node it unlinks, and `sll_pop` (`linkedlist.c:173-183`) lowers it once more after
calling `sll_delete`, so a popped list ends with `count` two lower per node (`whilePop_eq`).

* `sllAdd_new`, `sllAdd_old`, `sllRemove_absent`, `sllRemove_present`: what the two keyed
  operations do to the node they find.
* `whilePop`: the loop `while (sll_pop(list, &key_value)) body`, used by the splits and the merges
  of the hash table.
-/

namespace C380.Valws

/-- `struct linked_list`: the stored counter and the nodes from `head`. -/
structure LinkedList where
  count : Ull
  nodes : List KeyValue
  deriving DecidableEq, Repr

/-- `new_linked_list`. -/
def newLinkedList : LinkedList := ⟨0, []⟩

/-- `sll_find`: the position of the first node with the key. -/
def sllFind (l : LinkedList) (key : Ull) : Option Nat :=
  l.nodes.findIdx? fun n => n.key == key

/-- `sll_put_key_value`: a new head. -/
def sllPutKeyValue (l : LinkedList) (kv : KeyValue) : LinkedList :=
  ⟨l.count + 1, kv :: l.nodes⟩

/-- `sll_insert`. -/
def sllInsert (l : LinkedList) (key : Ull) : LinkedList :=
  sllPutKeyValue l ⟨key, 1⟩

/-- `sll_add`. -/
def sllAdd (l : LinkedList) (key : Ull) : LinkedList :=
  match sllFind l key with
  | some i => { l with nodes := l.nodes.modify i fun n => { n with value := n.value + 1 } }
  | none => sllInsert l key

/-- `sll_delete` of the node at position `i` (its predecessor is at `i - 1`). -/
def sllDelete (l : LinkedList) (i : Nat) : LinkedList :=
  ⟨l.count - 1, l.nodes.eraseIdx i⟩

/-- `sll_remove`: the walk stops at the first node with the key. -/
def sllRemove (l : LinkedList) (key : Ull) : LinkedList :=
  match sllFind l key with
  | none => l
  | some i =>
    let l' := { l with nodes := l.nodes.modify i fun n => { n with value := n.value - 1 } }
    if l'.nodes[i]?.map KeyValue.value = some 0 then sllDelete l' i else l'

/-- `sll_pop`: the head and the remaining list. `count` is lowered by `sll_delete` and again
here. -/
def sllPop (l : LinkedList) : Option (KeyValue × LinkedList) :=
  match l.nodes with
  | [] => none
  | kv :: _ =>
    let l' := sllDelete l 0
    some (kv, { l' with count := l'.count - 1 })

/-- `while (sll_pop(l, &kv)) body`, at most `n` iterations. -/
def whilePop {m : Type → Type} [Monad m] {τ : Type} (body : τ → KeyValue → m τ) :
    Nat → LinkedList → τ → m (LinkedList × τ)
  | 0, l, t => pure (l, t)
  | n + 1, l, t =>
    match sllPop l with
    | none => pure (l, t)
    | some (kv, l') => body t kv >>= fun t' => whilePop body n l' t'

/-- The keys of a list of nodes. -/
def keysOf (es : List KeyValue) : List Ull := es.map KeyValue.key

@[simp] theorem keysOf_nil : keysOf [] = [] := rfl

@[simp] theorem keysOf_cons (e : KeyValue) (es : List KeyValue) :
    keysOf (e :: es) = e.key :: keysOf es := rfl

@[simp] theorem length_keysOf (es : List KeyValue) : (keysOf es).length = es.length :=
  List.length_map _

theorem mem_keysOf {es : List KeyValue} {k : Ull} : k ∈ keysOf es ↔ ∃ e ∈ es, e.key = k :=
  List.mem_map

/-! ## The node a keyed operation finds -/

theorem sllFind_none {l : LinkedList} {key : Ull} :
    sllFind l key = none ↔ key ∉ keysOf l.nodes := by
  simp [sllFind, mem_keysOf, List.findIdx?_eq_none_iff]

/-- The node found is the first with the key. -/
theorem sllFind_some {l : LinkedList} {key : Ull} (h : key ∈ keysOf l.nodes) :
    ∃ a v b, l.nodes = a ++ ⟨key, v⟩ :: b ∧ key ∉ keysOf a ∧ sllFind l key = some a.length := by
  obtain ⟨c, nodes⟩ := l
  unfold sllFind
  simp only at h ⊢
  induction nodes with
  | nil => simp at h
  | cons n ns ih =>
    by_cases hn : n.key = key
    · refine ⟨[], n.value, ns, ?_, by simp, ?_⟩
      · rw [← hn]; rfl
      · simp [List.findIdx?_cons, hn]
    · have hmem : key ∈ keysOf ns := by
        rcases List.mem_cons.mp h with h | h
        · exact absurd h.symm hn
        · exact h
      obtain ⟨a, v, b, hns, ha, hf⟩ := ih hmem
      refine ⟨n :: a, v, b, by rw [hns]; rfl, ?_, ?_⟩
      · simp only [keysOf_cons, List.mem_cons, not_or]
        exact ⟨fun e => hn e.symm, ha⟩
      · simp [List.findIdx?_cons, hn, hf]

theorem modify_length_append {α : Type} (f : α → α) (x : α) (b : List α) :
    ∀ a : List α, (a ++ x :: b).modify a.length f = a ++ f x :: b
  | [] => rfl
  | y :: a => by
    simp only [List.cons_append, List.length_cons, List.modify_succ_cons]
    rw [modify_length_append f x b a]

/-- `sll_add` of an absent key is a new head with value 1. -/
theorem sllAdd_new {l : LinkedList} {key : Ull} (h : key ∉ keysOf l.nodes) :
    sllAdd l key = ⟨l.count + 1, ⟨key, 1⟩ :: l.nodes⟩ := by
  unfold sllAdd
  rw [sllFind_none.mpr h]
  rfl

/-- `sll_add` of a stored key increments its value in place. -/
theorem sllAdd_old {l : LinkedList} {key : Ull} (h : key ∈ keysOf l.nodes) :
    ∃ a v b, l.nodes = a ++ ⟨key, v⟩ :: b ∧ key ∉ keysOf a ∧
      sllAdd l key = ⟨l.count, a ++ ⟨key, v + 1⟩ :: b⟩ := by
  obtain ⟨a, v, b, hn, ha, hf⟩ := sllFind_some h
  refine ⟨a, v, b, hn, ha, ?_⟩
  unfold sllAdd
  rw [hf]
  simp only [hn, modify_length_append]

/-- `sll_remove` of an absent key does nothing. -/
theorem sllRemove_absent {l : LinkedList} {key : Ull} (h : key ∉ keysOf l.nodes) :
    sllRemove l key = l := by
  unfold sllRemove
  rw [sllFind_none.mpr h]

/-- `sll_remove` of a stored key decrements its value, and unlinks the node at zero. -/
theorem sllRemove_present {l : LinkedList} {key : Ull} (h : key ∈ keysOf l.nodes) :
    ∃ a v b, l.nodes = a ++ ⟨key, v⟩ :: b ∧ key ∉ keysOf a ∧
      sllRemove l key =
        if v - 1 = 0 then ⟨l.count - 1, a ++ b⟩ else ⟨l.count, a ++ ⟨key, v - 1⟩ :: b⟩ := by
  obtain ⟨a, v, b, hn, ha, hf⟩ := sllFind_some h
  refine ⟨a, v, b, hn, ha, ?_⟩
  unfold sllRemove
  rw [hf]
  simp [hn, modify_length_append, sllDelete, List.eraseIdx_append_of_length_le]

/-! ## The pop loop -/

@[simp] theorem sllPop_cons (c : Ull) (kv : KeyValue) (ns : List KeyValue) :
    sllPop ⟨c, kv :: ns⟩ = some (kv, ⟨c - 1 - 1, ns⟩) := rfl

/-- **The pop loop empties the list from the head**, and takes two off its counter per node. -/
theorem whilePop_eq {m : Type → Type} [Monad m] [LawfulMonad m] {τ : Type}
    (body : τ → KeyValue → m τ) : ∀ (ns : List KeyValue) (c : Ull) (t : τ),
    whilePop body ns.length ⟨c, ns⟩ t =
      ns.foldlM body t >>= fun t' => pure (⟨c - BitVec.ofNat 64 (2 * ns.length), []⟩, t')
  | [], c, t => by simp [whilePop]
  | kv :: ns, c, t => by
    have hc : c - 1 - 1 - BitVec.ofNat 64 (2 * ns.length) =
        c - BitVec.ofNat 64 (2 * (kv :: ns).length) := by
      rw [List.length_cons, Nat.mul_succ]
      bv_omega
    simp only [List.length_cons, whilePop, sllPop_cons, List.foldlM_cons, bind_assoc]
    congr 1
    funext t'
    rw [whilePop_eq body ns, hc]
    simp

end C380.Valws
