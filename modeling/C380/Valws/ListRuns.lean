import C380.Valws.Runs

/-!
# The counter and the length of a list (`Assignment03/linkedlist.c`)

`put` and `hashtable_put_key_value` split a bucket when the `count` of its list exceeds
`SPLIT_SIZE`. `runList` is a list after any calls of the four operations, `runTable` a table after
any calls of `put` and `delete`.

* `count_eq_length_iff`: **`count` is the number of nodes after every call iff no `sll_pop` finds a
  node**. `sll_pop` lowers `count` in `sll_delete` and once more itself; the other three keep the
  difference of the two.
* `count_pop`: one `sll_pop` leaves an empty list with the largest counter there is.
* `runTable_short`: **every list of a reachable table has at most `SPLIT_SIZE` nodes**, although the
  counter of a list that was split is no longer their number.
-/

namespace C380.Valws

/-! ## The four operations -/

/-- A call on a list. -/
inductive ListOp where
  | add (key : Ull)
  | remove (key : Ull)
  | putKeyValue (keyValue : KeyValue)
  | pop
  deriving DecidableEq, Repr

/-- The list after one call. -/
def ListOp.apply (l : LinkedList) : ListOp → LinkedList
  | .add key => sllAdd l key
  | .remove key => sllRemove l key
  | .putKeyValue keyValue => sllPutKeyValue l keyValue
  | .pop =>
    match sllPop l with
    | some (_, l') => l'
    | none => l

/-- The list after a sequence of calls. -/
def runList (ops : List ListOp) (l : LinkedList) : LinkedList := ops.foldl ListOp.apply l

/-- `count` is the number of nodes. -/
def LinkedList.Counted (l : LinkedList) : Prop := l.count.toNat = l.nodes.length

/-- The call is a `sll_pop` that finds a node. -/
def ListOp.PopsNode (op : ListOp) (l : LinkedList) : Prop := op = .pop ∧ l.nodes ≠ []

/-- **What a call does**: it keeps, links or frees a node and `count` follows, unless it is a
`sll_pop` that finds a node, which lowers `count` twice. -/
theorem ListOp.apply_cases (op : ListOp) (l : LinkedList) :
    (¬ op.PopsNode l ∧
      ((op.apply l).nodes.length = l.nodes.length ∧ (op.apply l).count = l.count ∨
        (op.apply l).nodes.length = l.nodes.length + 1 ∧ (op.apply l).count = l.count + 1 ∨
        (op.apply l).nodes.length + 1 = l.nodes.length ∧ (op.apply l).count = l.count - 1)) ∨
    (op.PopsNode l ∧ (op.apply l).nodes.length + 1 = l.nodes.length ∧
      (op.apply l).count = l.count - 2) := by
  unfold PopsNode
  cases op with
  | add key =>
    refine Or.inl ⟨fun hpop => ListOp.noConfusion hpop.1, ?_⟩
    by_cases hk : key ∈ keysOf l.nodes
    · obtain ⟨a, v, b, hn, -, heq⟩ := sllAdd_old hk
      left
      simp only [apply, heq, hn, List.length_append, List.length_cons, and_self]
    · right; left
      simp only [apply, sllAdd_new hk, List.length_cons, and_self]
  | remove key =>
    refine Or.inl ⟨fun hpop => ListOp.noConfusion hpop.1, ?_⟩
    by_cases hk : key ∈ keysOf l.nodes
    · obtain ⟨a, v, b, hn, -, heq⟩ := sllRemove_present hk
      simp only [apply, heq, hn]
      split
      · right; right
        simp only [List.length_append, List.length_cons, and_true]
        omega
      · left
        simp only [List.length_append, List.length_cons, and_self]
    · left
      simp only [apply, sllRemove_absent hk, and_self]
  | putKeyValue keyValue =>
    refine Or.inl ⟨fun hpop => ListOp.noConfusion hpop.1, ?_⟩
    right; left
    simp only [apply, sllPutKeyValue, List.length_cons, and_self]
  | pop =>
    obtain ⟨c, ns⟩ := l
    cases ns with
    | nil => exact Or.inl ⟨fun hpop => hpop.2 rfl, Or.inl ⟨rfl, rfl⟩⟩
    | cons kv ns =>
      refine Or.inr ⟨⟨rfl, List.cons_ne_nil _ _⟩, ?_⟩
      simp only [apply, sllPop_cons, List.length_cons, true_and]
      bv_omega

/-- A call links at most one node. -/
theorem ListOp.length_apply_le (op : ListOp) (l : LinkedList) :
    (op.apply l).nodes.length ≤ l.nodes.length + 1 := by
  rcases op.apply_cases l with ⟨-, ⟨hlen, -⟩ | ⟨hlen, -⟩ | ⟨hlen, -⟩⟩ | ⟨-, hlen, -⟩ <;> omega

/-- **What a call does to the counter of a list that counts its nodes**: it still does, unless the
call is a `sll_pop` that finds a node. -/
theorem ListOp.counted_apply_iff {l : LinkedList} (h : l.Counted)
    (hlen : l.nodes.length + 1 < 2 ^ 64) (op : ListOp) :
    (op.apply l).Counted ↔ ¬ op.PopsNode l := by
  unfold LinkedList.Counted at h ⊢
  rcases op.apply_cases l with ⟨hkeeps, hcases⟩ | ⟨hpops, hlength, hcount⟩
  · refine iff_of_true ?_ hkeeps
    rcases hcases with ⟨hlength, hcount⟩ | ⟨hlength, hcount⟩ | ⟨hlength, hcount⟩
    · rw [hlength, hcount, h]
    · rw [hlength, hcount]
      bv_omega
    · rw [hcount]
      bv_omega
  · refine iff_of_false ?_ (not_not.mpr hpops)
    rw [hcount]
    bv_omega

/-! ## Runs on a list -/

theorem runList_concat (ops : List ListOp) (op : ListOp) (l : LinkedList) :
    runList (ops ++ [op]) l = op.apply (runList ops l) := by
  unfold runList
  rw [List.foldl_append, List.foldl_cons, List.foldl_nil]

theorem length_runList_le (ops : List ListOp) :
    (runList ops newLinkedList).nodes.length ≤ ops.length := by
  induction ops using List.reverseRecOn with
  | nil => exact le_rfl
  | append_singleton ops op ih =>
    rw [runList_concat, List.length_append, List.length_singleton]
    exact (op.length_apply_le _).trans (Nat.add_le_add_right ih 1)

/-- **The counter is the length after every call of a run iff no `sll_pop` finds a node.** -/
theorem count_eq_length_iff (ops : List ListOp) (hlen : ops.length < 2 ^ 64) :
    (∀ pre, pre <+: ops →
      (runList pre newLinkedList).count.toNat = (runList pre newLinkedList).nodes.length) ↔
    ∀ pre, pre ++ [.pop] <+: ops → (runList pre newLinkedList).nodes = [] := by
  have hroom : ∀ pre op, pre ++ [op] <+: ops →
      (runList pre newLinkedList).nodes.length + 1 < 2 ^ 64 := fun pre op hpre => by
    have hle := length_runList_le pre
    have := hpre.length_le
    rw [List.length_append, List.length_singleton] at this
    omega
  constructor
  · intro h pre hpre
    have hbefore := h pre ((List.prefix_append _ _).trans hpre)
    have hafter := h _ hpre
    rw [runList_concat] at hafter
    by_contra hne
    exact (ListOp.counted_apply_iff hbefore (hroom pre _ hpre) .pop).mp hafter ⟨rfl, hne⟩
  · intro h pre
    induction pre using List.reverseRecOn with
    | nil => exact fun _ => rfl
    | append_singleton pre op ih =>
      intro hpre
      have hbefore := ih ((List.prefix_append _ _).trans hpre)
      rw [runList_concat]
      refine (ListOp.counted_apply_iff hbefore (hroom pre op hpre) op).mpr ?_
      rintro ⟨rfl, hne⟩
      exact hne (h pre hpre)

/-- Two additions, a removal and a `sll_pop` that finds nothing. -/
theorem count_eq_length_iff_four :
    (∀ pre, pre <+: [ListOp.pop, .add 3, .add 5, .remove 3] →
      (runList pre newLinkedList).count.toNat = (runList pre newLinkedList).nodes.length) ↔
    ∀ pre, pre ++ [.pop] <+: [ListOp.pop, .add 3, .add 5, .remove 3] →
      (runList pre newLinkedList).nodes = [] :=
  count_eq_length_iff _ (by decide)

/-- **A counter that has wrapped**: a key added and popped again. -/
theorem count_pop : (runList [.add 0, .pop] newLinkedList).nodes = [] ∧
    (runList [.add 0, .pop] newLinkedList).count.toNat = 2 ^ 64 - 1 ∧
    ¬ ∀ pre, pre <+: [ListOp.add 0, .pop] →
      (runList pre newLinkedList).count.toNat = (runList pre newLinkedList).nodes.length := by
  refine ⟨by decide, by decide, fun h => ?_⟩
  have hlast := h _ List.prefix_rfl
  revert hlast
  decide

/-! ## Runs on a table -/

/-- Every list of the table has at most `SPLIT_SIZE` nodes. -/
def Hashtable.Short (t : Hashtable) : Prop :=
  ∀ i, (t.bucket i).linkedList.nodes.length ≤ splitSize.toNat

theorem short_of_nodeOk {x : Prop} {lo D L : ℕ} {t : Hashtable} (h : NodeOk x lo D L t) :
    t.Short := by
  have h15 : splitSize.toNat = 15 := rfl
  intro i
  have hok := h.bucket i
  rw [h15]
  cases hb : t.bucket i with
  | list l =>
    rw [hb] at hok
    cases hok with
    | fresh _ _ short => exact short
    | spent _ _ short _ => exact short.trans (by omega)
  | expanded c l =>
    rw [Bucket.linkedList, h.expanded_empty hb]
    exact Nat.zero_le _

/-- **The lists stay short**, at every depth and after every call. -/
theorem runTable_short (fuel : ℕ) (hfuel : 16 ≤ fuel) (ops : List TableOp)
    (hlen : ops.length < 2 ^ 56) :
    ∃ t, runTable fuel ops newHashtable = some t ∧ Everywhere (fun _ t => t.Short) 0 t := by
  obtain ⟨t, hrun, ht⟩ := tableOk_reachable hfuel (show ops.length < 2 ^ 60 by omega)
  exact ⟨t, hrun, Everywhere.mono (fun _ _ h => short_of_nodeOk h) ht⟩

/-- The run that splits a list of five. -/
theorem runTable_short_shortSplit :
    ∃ t, runTable 16 shortSplitRun newHashtable = some t ∧
      Everywhere (fun _ t => t.Short) 0 t :=
  runTable_short 16 le_rfl shortSplitRun (by decide)

end C380.Valws
