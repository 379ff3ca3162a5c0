import C380.Valws.HeapList
import C380.Valws.Runs

/-!
# The hash table on the heap (`Assignment03/hashtable.c`)

The functions of `hashtable.c` on the heap of `HeapList.lean`, statement by statement. A shift by
64 or more is a fault, as it is undefined in C; `fuel` bounds the depth of the calls and `loop` the
tests of a loop over a list.

`tableAt p t` says that `p` is the table `t`: the `struct hashtable`, its sixteen lists, and the
tables below it, each allocated once.

* `_newHashtable_spec`, `put_spec`, `delete_spec`, `destroyHashtable_spec`: each function turns a
  table into the one that `Hashtable.lean` computes, and faults only where `malloc` fails.
* `runTable_onHeap`: **a new table and any calls of `put` and `delete` on it**, from the empty heap.
-/

namespace C380.Valws.OnHeap

open Separation Separation.Assertion SinglyLinked

variable {α : Type} [DecidableEq α]

/-! ## The functions -/

/-- A write to fields of `hashtable->bucket[i]`. -/
def TableCell.setBucket (t : TableCell α) (i : Fin tableSize)
    (f : BucketCell α → BucketCell α) : TableCell α :=
  { t with bucket := Function.update t.bucket i (f (t.bucket i)) }

/-- `hashtable->bucket[i]`. -/
def loadBucket (hashtable : Option α) (i : Fin tableSize) : Code α (BucketCell α) := do
  let t ← load tableKind hashtable
  pure (t.bucket i)

/-- "Change detected!": a write to `hashtable->count` if the count below has changed. -/
def changeCount (hashtable : Option α) (oldCount newCount : Ull) (f : Ull → Ull) : Code α Unit :=
  if oldCount ≠ newCount then
    modify tableKind hashtable fun t => { t with count := f t.count }
  else pure ()

/-- `_new_hashtable`. -/
def _newHashtable (level : Ull) : Code α (Option α) := do
  let hashtable ← malloc tableKind Found.table
  modify tableKind hashtable fun t => { t with count := 0 }
  modify tableKind hashtable fun t => { t with level := level }
  modify tableKind hashtable fun t => { t with shifts := getPowerOfTwo tableSize * level }
  forM (List.finRange tableSize) fun i => do
    modify tableKind hashtable fun t => t.setBucket i fun b => { b with table := none }
    let linkedList ← newLinkedList
    modify tableKind hashtable fun t => t.setBucket i fun b => { b with linkedList := linkedList }
  pure hashtable

/-- `new_hashtable`. -/
def newHashtable : Code α (Option α) := _newHashtable 0

/-- `destroy_hashtable`. -/
def destroyHashtable (loop : ℕ) : ℕ → Option α → Code α Unit
  | 0, _ => fault .outOfFuel
  | fuel + 1, hashtable =>
    if hashtable ≠ none then do
      forM (List.finRange tableSize) fun i => do
        let bucket ← loadBucket hashtable i
        if bucket.table ≠ none then
          destroyHashtable loop fuel bucket.table
        let bucket ← loadBucket hashtable i
        destroyLinkedList loop bucket.linkedList
      free hashtable
    else pure ()

/-- The common body of `put` and `hashtable_put_key_value`, with the parts in which they differ as
in `Hashtable.lean`. -/
def insertWith (loop : ℕ) (sllOp recur : Option α → Code α Unit)
    (spill : Option α → KeyValue → Code α Unit) (key : Ull) (hashtable : Option α) :
    Code α Unit := do
  let t ← load tableKind hashtable
  if 64 ≤ t.shifts.toNat then fault .undefined
  else do
    let index := bucketIndex key t.shifts
    let bucket ← loadBucket hashtable index
    if bucket.table ≠ none then do
      let inner ← load tableKind bucket.table
      let oldCount := inner.count
      recur bucket.table
      let bucket ← loadBucket hashtable index
      let inner ← load tableKind bucket.table
      changeCount hashtable oldCount inner.count (· + 1)
    else do
      let l ← load listKind bucket.linkedList
      let oldCount := l.count
      sllOp bucket.linkedList
      let l ← load listKind bucket.linkedList
      changeCount hashtable oldCount l.count (· + 1)
      let l ← load listKind bucket.linkedList
      if l.count > splitSize then do
        let t ← load tableKind hashtable
        let table ← _newHashtable (t.level + 1)
        modify tableKind hashtable fun t => t.setBucket index fun b => { b with table := table }
        whileSllPop (spill table) loop bucket.linkedList

/-- `hashtable_put_key_value`. -/
def hashtablePutKeyValue (loop : ℕ) : ℕ → Option α → KeyValue → Code α Unit
  | 0, _, _ => fault .outOfFuel
  | fuel + 1, hashtable, kv =>
    insertWith loop (fun l => sllPutKeyValue l kv)
      (fun t => hashtablePutKeyValue loop fuel t kv) (hashtablePutKeyValue loop fuel) kv.key
      hashtable

/-- `put`. -/
def put (loop : ℕ) : ℕ → Option α → Ull → Code α Unit
  | 0, _, _ => fault .outOfFuel
  | fuel + 1, hashtable, address =>
    insertWith loop (fun l => sllAdd loop l address) (fun t => put loop fuel t address)
      (hashtablePutKeyValue loop fuel) address hashtable

/-- The merge loop of `delete`. -/
def mergeLists (loop : ℕ) (innerTable linkedList : Option α) : Code α Unit :=
  forM (List.finRange tableSize) fun i => do
    let inner ← loadBucket innerTable i
    whileSllPop (sllPutKeyValue linkedList) loop inner.linkedList

/-- `delete`. -/
def delete (loop : ℕ) : ℕ → Option α → Ull → Code α Unit
  | 0, _, _ => fault .outOfFuel
  | fuel + 1, hashtable, address => do
    let t ← load tableKind hashtable
    if 64 ≤ t.shifts.toNat then fault .undefined
    else do
      let index := bucketIndex address t.shifts
      let bucket ← loadBucket hashtable index
      if bucket.table ≠ none then do
        let inner ← load tableKind bucket.table
        let oldCount := inner.count
        delete loop fuel bucket.table address
        let bucket ← loadBucket hashtable index
        let inner ← load tableKind bucket.table
        changeCount hashtable oldCount inner.count (· - 1)
        let inner ← load tableKind bucket.table
        if inner.count < mergeSize then do
          mergeLists loop bucket.table bucket.linkedList
          destroyHashtable loop fuel bucket.table
          modify tableKind hashtable fun t => t.setBucket index fun b => { b with table := none }
      else do
        let l ← load listKind bucket.linkedList
        let oldCount := l.count
        sllRemove loop bucket.linkedList address
        let l ← load listKind bucket.linkedList
        changeCount hashtable oldCount l.count (· - 1)

/-! ## What a table is on the heap -/

mutual

/-- `p` is the table `t`. -/
def tableAt (p : Option α) : Hashtable → Assertion α (Object α)
  | .mk count level shifts bucket => ex fun cells : Fin tableSize → BucketCell α =>
    pointsTo p (tableKind.obj ⟨count, level, shifts, cells⟩) * ∏ i, bucketAt (cells i) (bucket i)

/-- The pointers `cell` are those of the bucket `b`. -/
def bucketAt (cell : BucketCell α) : Bucket → Assertion α (Object α)
  | .list linkedList => fact (cell.table = none) * listAt cell.linkedList linkedList
  | .expanded table linkedList => tableAt cell.table table * listAt cell.linkedList linkedList

end

/-! ## One bucket of a table against the others -/

section Open

variable {υ : Type} {p : Option α} {c c' l s : Ull} {cells cells' : Fin tableSize → BucketCell α}
  {b b' : Fin tableSize → Bucket} {j : Fin tableSize} {R : Assertion α (Object α)}
  {Q : υ → Assertion α (Object α)}

/-- The buckets other than `j`. -/
def others (cells : Fin tableSize → BucketCell α) (b : Fin tableSize → Bucket)
    (j : Fin tableSize) : Assertion α (Object α) :=
  ∏ i ∈ Finset.univ.erase j, bucketAt (cells i) (b i)

theorem others_congr (hc : ∀ i ≠ j, cells' i = cells i) (hb : ∀ i ≠ j, b' i = b i) :
    others cells' b' j = others cells b j :=
  Finset.prod_congr rfl fun i hi => by
    rw [hc i (Finset.ne_of_mem_erase hi), hb i (Finset.ne_of_mem_erase hi)]

theorem prod_buckets (cells : Fin tableSize → BucketCell α) (b : Fin tableSize → Bucket)
    (j : Fin tableSize) :
    ∏ i, bucketAt (cells i) (b i) = bucketAt (cells j) (b j) * others cells b j :=
  (Finset.mul_prod_erase _ (fun i => bucketAt (cells i) (b i)) (Finset.mem_univ j)).symm

/-- A table without bucket `j`. -/
def opened (p : Option α) (c l s : Ull) (cells : Fin tableSize → BucketCell α)
    (b : Fin tableSize → Bucket) (j : Fin tableSize) : Assertion α (Object α) :=
  pointsTo p (tableKind.obj ⟨c, l, s, cells⟩) * others cells b j

theorem tableAt_open (j : Fin tableSize) : tableAt p (.mk c l s b) =
    ex fun cells => opened p c l s cells b j * bucketAt (cells j) (b j) := by
  rw [tableAt]
  congr 1
  funext cells
  rw [prod_buckets cells b j, opened]
  ac_rfl

/-- **Bucket `j` put back**, with another content. -/
theorem opened_close (cells : Fin tableSize → BucketCell α) (cell : BucketCell α) (B : Bucket) :
    opened p c l s (Function.update cells j cell) b j * bucketAt cell B ≤
      tableAt p (.mk c l s (Function.update b j B)) := by
  rw [tableAt_open j]
  refine le_ex (Function.update cells j cell) ?_
  rw [Function.update_self, Function.update_self, opened, opened]
  refine mul_le_mul' (mul_le_mul' le_rfl (le_of_eq ?_)) le_rfl
  exact others_congr (fun _ _ => rfl) fun i hi => (Function.update_of_ne hi ..).symm

/-- Bucket `j` put back where it was. -/
theorem opened_close_same (p : Option α) (c l s : Ull) (cells : Fin tableSize → BucketCell α)
    (b : Fin tableSize → Bucket) (j : Fin tableSize) (B : Bucket) :
    opened p c l s cells b j * bucketAt (cells j) B ≤
      tableAt p (.mk c l s (Function.update b j B)) := by
  refine le_trans (le_of_eq ?_) (opened_close cells (cells j) B)
  rw [Function.update_eq_self]

theorem opened_load {k : TableCell α → Code α υ}
    (h : Triple (opened p c l s cells b j * R) (k ⟨c, l, s, cells⟩) Q) :
    Triple (opened p c l s cells b j * R) (load tableKind p >>= k) Q := by
  rw [opened, mul_assoc] at h ⊢
  exact Triple.load h

theorem opened_loadBucket {k : BucketCell α → Code α υ} {i : Fin tableSize}
    (h : Triple (opened p c l s cells b j * R) (k (cells i)) Q) :
    Triple (opened p c l s cells b j * R) (loadBucket p i >>= k) Q := by
  rw [loadBucket, bind_assoc]
  exact opened_load h

theorem opened_setTable {k : Unit → Code α υ} {q : Option α}
    (h : Triple (opened p c l s (Function.update cells j { cells j with table := q }) b j * R)
      (k ()) Q) :
    Triple (opened p c l s cells b j * R)
      (modify tableKind p (fun t => t.setBucket j fun b => { b with table := q }) >>= k) Q := by
  have hothers : others (Function.update cells j { cells j with table := q }) b j =
      others cells b j :=
    others_congr (fun i hi => Function.update_of_ne hi ..) fun _ _ => rfl
  rw [opened, hothers, mul_assoc] at h
  rw [opened, mul_assoc]
  exact Triple.modify h

theorem changeCount_spec (oldCount newCount : Ull) (f : Ull → Ull) :
    Triple (opened p c l s cells b j) (changeCount p oldCount newCount f) fun _ =>
      opened p (if oldCount ≠ newCount then f c else c) l s cells b j := by
  unfold changeCount
  by_cases hne : oldCount ≠ newCount
  · rw [if_pos hne, if_pos hne]
    exact (Triple.modify_only _).frame _
  · rw [if_neg hne, if_neg hne]
    exact Triple.pure le_rfl

theorem tableAt_load {t : Hashtable} {k : TableCell α → Code α υ}
    (h : ∀ x : TableCell α, x.count = t.count → Triple (tableAt p t * R) (k x) Q) :
    Triple (tableAt p t * R) (load tableKind p >>= k) Q := by
  obtain ⟨c, l, s, b⟩ := t
  rw [tableAt, ex_mul]
  refine Triple.ex fun cells => ?_
  rw [mul_assoc]
  refine Triple.load ((h ⟨c, l, s, cells⟩ rfl).pre ?_)
  rw [tableAt, ex_mul]
  exact le_ex cells (mul_assoc ..).ge

theorem tableAt_not_null {t : Hashtable} {x : Code α υ}
    (h : p ≠ none → Triple (tableAt p t * R) x Q) : Triple (tableAt p t * R) x Q := by
  obtain ⟨c, l, s, b⟩ := t
  rw [tableAt, ex_mul]
  refine Triple.ex fun cells => ?_
  rw [mul_assoc]
  refine Triple.not_null fun hp => (h hp).pre ?_
  rw [tableAt, ex_mul]
  exact le_ex cells (mul_assoc ..).ge

theorem listAt_load {ll : LinkedList} {k : ListHeader α → Code α υ}
    (h : ∀ x : ListHeader α, x.count = ll.count → Triple (listAt p ll * R) (k x) Q) :
    Triple (listAt p ll * R) (load listKind p >>= k) Q := by
  unfold listAt
  rw [ex_mul]
  refine Triple.ex fun head => ?_
  rw [mul_assoc]
  refine Triple.load ((h ⟨ll.count, head⟩ rfl).pre ?_)
  rw [listAt, ex_mul]
  exact le_ex head (mul_assoc ..).ge

end Open

/-! ## Making and destroying a table -/

/-- The buckets `done` of an array, all of them empty lists. -/
def emptyBuckets (cells : Fin tableSize → BucketCell α) (done : List (Fin tableSize)) :
    Assertion α (Object α) :=
  (done.map fun i => bucketAt (cells i) (.list Valws.newLinkedList)).prod

/-- One more empty bucket, its two pointers written. -/
theorem emptyBuckets_concat {cells : Fin tableSize → BucketCell α} {done : List (Fin tableSize)}
    {i : Fin tableSize} (hi : i ∉ done) (q : Option α) :
    listAt q Valws.newLinkedList * emptyBuckets cells done =
      emptyBuckets (Function.update cells i ⟨none, q⟩) (done ++ [i]) := by
  have hdone : done.map (fun j => bucketAt (Function.update cells i ⟨none, q⟩ j)
      (.list Valws.newLinkedList)) =
      done.map fun j => bucketAt (cells j) (.list Valws.newLinkedList) :=
    List.map_congr_left fun j hj => by
      have hji : j ≠ i := fun he => hi (he ▸ hj)
      rw [Function.update_of_ne hji]
  unfold emptyBuckets
  rw [List.map_append, List.prod_append, hdone, List.map_singleton, List.prod_singleton,
    Function.update_self, bucketAt, fact_eq_one rfl, one_mul, mul_comm]

/-- **`_new_hashtable`** allocates a table and its sixteen empty lists. -/
theorem _newHashtable_spec (level : Ull) : Triple (1 : Assertion α (Object α))
    (_newHashtable level) fun p => tableAt p (Valws._newHashtable level) := by
  unfold _newHashtable
  refine Triple.malloc fun p g => ?_
  refine Triple.modify ?_
  refine Triple.modify ?_
  refine Triple.modify ?_
  rw [mul_one]
  set shifts := getPowerOfTwo tableSize * level with hshifts
  -- the loop has filled the buckets `done`
  let I : List (Fin tableSize) → Assertion α (Object α) := fun done => ex fun cells =>
    pointsTo p (tableKind.obj ⟨0, level, shifts, cells⟩) * emptyBuckets cells done
  refine Triple.bind (Triple.pre (Triple.forM I fun done i todo hl => ?_)
    (le_ex g.table.bucket ?_)) fun _ => Triple.pure ?_
  · have hi : i ∉ done := fun hmem => by
      have hnd := List.nodup_finRange tableSize
      rw [hl, List.nodup_append] at hnd
      exact hnd.2.2 i hmem i List.mem_cons_self rfl
    refine Triple.ex fun cells => ?_
    refine Triple.modify ?_
    refine (newLinkedList_spec.call fun q => ?_).pre (one_mul _).ge
    rw [mul_left_comm]
    refine ((Triple.modify_only _).frame _).post fun _ => ?_
    rw [emptyBuckets_concat hi]
    refine le_ex (Function.update cells i ⟨none, q⟩) (le_of_eq ?_)
    congr 3
    simp [TableCell.setBucket]
  · exact (mul_one _).ge
  · refine ex_mono fun cells => mul_le_mul' le_rfl (le_of_eq ?_)
    rw [emptyBuckets, Fin.prod_univ_def]
/-- What the functions need of one table at depth `L`: a shift that C defines, and lists that a
loop of `loop` tests can walk. -/
structure Tame (loop L : ℕ) (t : Hashtable) : Prop where
  depth : L ≤ 15
  shifts : t.shifts.toNat < 64
  short : ∀ i, (t.bucket i).linkedList.nodes.length < loop

/-- **`destroy_hashtable`** frees everything that belongs to the table, once. -/
theorem destroyHashtable_spec {loop : ℕ} : ∀ (fuel L : ℕ) {p : Option α} {t : Hashtable},
    16 ≤ fuel + L → Everywhere (Tame loop) L t →
    Triple (tableAt p t) (destroyHashtable loop fuel p) fun _ => 1
  | 0, L, p, t, hfuel, ht => by
    have := ht.here.depth
    omega
  | fuel + 1, L, p, .mk c l s b, hfuel, ht => by
    unfold destroyHashtable
    rw [← mul_one (tableAt p _)]
    refine tableAt_not_null fun hp => ?_
    rw [if_pos hp, mul_one]
    refine Triple.ex fun cells => ?_
    -- the loop has the buckets after `done` before it
    let I : List (Fin tableSize) → Assertion α (Object α) := fun done =>
      pointsTo p (tableKind.obj ⟨c, l, s, cells⟩) *
        (((List.finRange tableSize).drop done.length).map fun i => bucketAt (cells i) (b i)).prod
    refine Triple.bind (Triple.pre (Triple.forM I fun done i todo hl => ?_) ?_) fun _ => ?_
    · have hdrop : (List.finRange tableSize).drop done.length = i :: todo := by
        rw [hl, List.drop_left]
      have hdrop' : (List.finRange tableSize).drop (done ++ [i]).length = todo := by
        rw [hl, List.length_append, List.length_singleton, ← List.drop_drop, List.drop_left]
        rfl
      have hshort := ht.here.short i
      simp only [I, hdrop, hdrop', List.map_cons, List.prod_cons, loadBucket, bind_assoc,
        pure_bind]
      generalize (List.map (fun i => bucketAt (cells i) (b i)) todo).prod = rest
      -- what both cases end with
      have hlist : ∀ ll : LinkedList, ll.nodes.length < loop →
          Triple (pointsTo p (tableKind.obj ⟨c, l, s, cells⟩) *
            (listAt (cells i).linkedList ll * rest))
          (do
            let t ← load tableKind p
            destroyLinkedList loop (t.bucket i).linkedList : Code α Unit)
          fun _ => pointsTo p (tableKind.obj ⟨c, l, s, cells⟩) * rest := by
        intro ll hll
        refine Triple.load ?_
        rw [mul_left_comm]
        exact ((destroyLinkedList_spec hll).frame _).post fun _ => (one_mul _).le
      refine Triple.load ?_
      cases hb : b i with
      | list ll =>
        rw [bucketAt]
        refine Triple.rearrange (fact ((cells i).table = none) *
          (pointsTo p (tableKind.obj ⟨c, l, s, cells⟩) *
            (listAt (cells i).linkedList ll * rest))) ?_
        refine Triple.fact fun hnull => ?_
        rw [if_neg (not_not.mpr hnull)]
        refine hlist ll ?_
        rwa [Hashtable.bucket_mk, hb] at hshort
      | expanded t ll =>
        rw [bucketAt]
        refine Triple.rearrange (tableAt (cells i).table t *
          (pointsTo p (tableKind.obj ⟨c, l, s, cells⟩) *
            (listAt (cells i).linkedList ll * rest))) ?_
        refine tableAt_not_null fun hnull => ?_
        rw [if_pos hnull]
        refine (destroyHashtable_spec fuel (L + 1) (by omega) (ht.child hb)).call fun _ => ?_
        rw [one_mul]
        refine hlist ll ?_
        rwa [Hashtable.bucket_mk, hb] at hshort
    · simp only [I, List.length_nil, List.drop_zero, ← Fin.prod_univ_def]
      exact le_rfl
    · have hdrop : (List.finRange tableSize).drop (List.finRange tableSize).length = [] :=
        List.drop_length
      simp only [I, hdrop, List.map_nil, List.prod_nil, mul_one]
      exact Triple.free_only

/-! ## Insertion -/

section InsertWith

variable {loop : ℕ} {sllOp : LinkedList → LinkedList} {sllOp' recur' : Option α → Code α Unit}
  {recur : Hashtable → Option Hashtable} {spill : Hashtable → KeyValue → Option Hashtable}
  {spill' : Option α → KeyValue → Code α Unit} {key : Ull} {p : Option α} {t t' : Hashtable}

/-- The code `spill'` does what `spill` does, to tables small enough for its loops. -/
def SpillsLike (loop : ℕ) (spill : Hashtable → KeyValue → Option Hashtable)
    (spill' : Option α → KeyValue → Code α Unit) : Prop :=
  ∀ q c kv c', c.entries.length + 1 < loop → spill c kv = some c' →
    c'.entries.length ≤ c.entries.length + 1 ∧
      Triple (tableAt q c) (spill' q kv) fun _ => tableAt q c'

/-- **The common body of `put` and `hashtable_put_key_value`**, given that its parts do on the heap
what they do in `Hashtable.lean`. -/
theorem insertWith_spec
    (hop : ∀ q ll, t.bucket (bucketIndex key t.shifts) = .list ll →
      (sllOp ll).nodes.length < loop ∧
        Triple (listAt q ll) (sllOp' q) fun _ => listAt q (sllOp ll))
    (hrecur : ∀ q c ll c', t.bucket (bucketIndex key t.shifts) = .expanded c ll →
      recur c = some c' → Triple (tableAt q c) (recur' q) fun _ => tableAt q c')
    (hspill : SpillsLike loop spill spill')
    (h : Valws.insertWith sllOp recur spill key t = some t') :
    Triple (tableAt p t) (insertWith loop sllOp' recur' spill' key p) fun _ => tableAt p t' := by
  obtain ⟨c, l, s, b⟩ := t
  rw [Valws.insertWith] at h
  unfold insertWith
  by_cases hs : 64 ≤ s.toNat
  · rw [if_pos hs] at h
    cases h
  rw [if_neg hs] at h
  simp only [Hashtable.bucket_mk, Hashtable.shifts_mk] at hop hrecur
  set j := bucketIndex key s with hj
  rw [tableAt_open j]
  refine Triple.ex fun cells => ?_
  refine opened_load ?_
  rw [if_neg hs]
  refine opened_loadBucket ?_
  cases hb : b j with
  | expanded table ll =>
    rw [hb, Option.bind_eq_bind, Option.bind_eq_some_iff] at h
    obtain ⟨table', hrec, ht'⟩ := h
    rw [bucketAt]
    refine Triple.rearrange (tableAt (cells j).table table * (opened p c l s cells b j *
      listAt (cells j).linkedList ll)) ?_
    refine tableAt_not_null fun hnull => ?_
    rw [if_pos hnull]
    refine tableAt_load fun x hx => ?_
    refine (hrecur _ table ll table' hb hrec).call fun _ => ?_
    rw [mul_left_comm]
    refine opened_loadBucket ?_
    rw [mul_left_comm]
    refine tableAt_load fun y hy => ?_
    rw [hx, hy, mul_left_comm]
    refine ((changeCount_spec _ _ _).frame _).post fun _ => ?_
    rw [Option.some.injEq] at ht'
    rw [← ht']
    have hclose := opened_close_same p (if table.count ≠ table'.count then c + 1 else c) l s cells
      b j (.expanded table' ll)
    rwa [bucketAt] at hclose
  | list ll =>
    obtain ⟨hlen, hsll⟩ := hop (cells j).linkedList ll hb
    rw [hb] at h
    rw [bucketAt]
    refine Triple.rearrange (fact ((cells j).table = none) * (listAt (cells j).linkedList ll *
      opened p c l s cells b j)) ?_
    refine Triple.fact fun hnull => ?_
    rw [if_neg (not_not.mpr hnull)]
    refine listAt_load fun x hx => ?_
    refine hsll.call fun _ => ?_
    refine listAt_load fun y hy => ?_
    rw [hx, hy, mul_comm]
    refine (changeCount_spec _ _ _).call fun _ => ?_
    rw [mul_comm]
    refine listAt_load fun z hz => ?_
    rw [hz]
    dsimp only at h
    by_cases hgt : (sllOp ll).count > splitSize
    · rw [if_pos hgt, Option.bind_eq_bind, Option.bind_eq_some_iff] at h
      obtain ⟨⟨popped, table⟩, hpop, ht'⟩ := h
      rw [if_pos hgt, mul_comm]
      refine opened_load ?_
      refine ((_newHashtable_spec (l + 1)).call fun q => ?_).pre (one_mul _).ge
      rw [mul_left_comm]
      refine opened_setTable ?_
      have hpop := (whilePop_eq spill (sllOp ll).nodes (sllOp ll).count _).symm.trans hpop
      rw [Option.bind_eq_bind, Option.bind_eq_some_iff] at hpop
      obtain ⟨table₁, hfold, heq⟩ := hpop
      cases heq
      refine Triple.rearrange (listAt (cells j).linkedList ⟨(sllOp ll).count, (sllOp ll).nodes⟩ *
        tableAt q (Valws._newHashtable (l + 1)) * opened p _ l s
          (Function.update cells j { cells j with table := q }) b j) ?_
      refine ((whileSllPop_spec (tableAt q) spill
        (fun ns c => c.entries.length + ns.length < loop) (fun kv ns c c' hJ hstep => ?_)
        _ hlen ?_ hfold).frame _).post fun _ => ?_
      · rw [List.length_cons] at hJ
        obtain ⟨hle, htriple⟩ := hspill q c kv c' (by omega) hstep
        exact ⟨by omega, htriple⟩
      · rwa [entries_newHashtable, List.length_nil, Nat.zero_add]
      · rw [Option.some.injEq] at ht'
        rw [← ht', mul_comm]
        refine le_trans (mul_le_mul' le_rfl (le_of_eq ?_)) (opened_close _ _ _)
        rw [bucketAt, mul_comm]
    · rw [if_neg hgt, Option.some.injEq] at h
      rw [if_neg hgt, ← h]
      refine Triple.pure ?_
      have hclose := opened_close_same p (if ll.count ≠ (sllOp ll).count then c + 1 else c) l s
        cells b j (.list (sllOp ll))
      rw [bucketAt, fact_eq_one hnull, one_mul, mul_comm] at hclose
      exact hclose

end InsertWith

/-! ## The size of a table -/

theorem length_entries (t : Hashtable) (i : Fin tableSize) :
    t.entries.length = (t.bucket i).entries.length + (t.rest i).card := by
  have h := Hashtable.length_keys t i
  rwa [Hashtable.keys, length_keysOf] at h

theorem length_bucket_le (t : Hashtable) (i : Fin tableSize) :
    (t.bucket i).entries.length ≤ t.entries.length := by
  rw [length_entries t i]
  exact Nat.le_add_right _ _

theorem foldlM_length_le {spill : Hashtable → KeyValue → Option Hashtable}
    (hspill : ∀ c kv c', spill c kv = some c' → c'.entries.length ≤ c.entries.length + 1) :
    ∀ (ns : List KeyValue) {c c' : Hashtable}, ns.foldlM spill c = some c' →
      c'.entries.length ≤ c.entries.length + ns.length
  | [], c, c', h => by
    obtain rfl : c = c' := Option.some.inj h
    exact le_rfl
  | kv :: ns, c, c', h => by
    obtain ⟨c₁, hstep, hrest⟩ := Option.bind_eq_some_iff.mp h
    have h1 := hspill c kv c₁ hstep
    have h2 := foldlM_length_le hspill ns hrest
    rw [List.length_cons]
    omega

/-- An insertion adds at most one node. -/
theorem insertWith_length_le {sllOp : LinkedList → LinkedList}
    {recur : Hashtable → Option Hashtable} {spill : Hashtable → KeyValue → Option Hashtable}
    {key : Ull} {t t' : Hashtable}
    (hop : ∀ ll, (sllOp ll).nodes.length ≤ ll.nodes.length + 1)
    (hrecur : ∀ c c', recur c = some c' → c'.entries.length ≤ c.entries.length + 1)
    (hspill : ∀ c kv c', spill c kv = some c' → c'.entries.length ≤ c.entries.length + 1)
    (h : Valws.insertWith sllOp recur spill key t = some t') :
    t'.entries.length ≤ t.entries.length + 1 := by
  obtain ⟨c, l, s, b⟩ := t
  -- the bucket of the key has at most one node more
  suffices hB : ∃ c' B, t' = .mk c' l s (Function.update b (bucketIndex key s) B) ∧
      B.entries.length ≤ (b (bucketIndex key s)).entries.length + 1 by
    obtain ⟨c', B, rfl, hB⟩ := hB
    rw [length_entries _ (bucketIndex key s), length_entries (.mk c l s b) (bucketIndex key s),
      Hashtable.rest_update c, Hashtable.bucket_mk, Function.update_self, Hashtable.bucket_mk]
    omega
  rw [Valws.insertWith] at h
  by_cases hs : 64 ≤ s.toNat
  · rw [if_pos hs] at h
    cases h
  rw [if_neg hs] at h
  cases hb : b (bucketIndex key s) with
  | expanded table ll =>
    rw [hb, Option.bind_eq_bind, Option.bind_eq_some_iff] at h
    obtain ⟨table', hrec, ht'⟩ := h
    refine ⟨_, _, (Option.some.inj ht').symm, ?_⟩
    have := hrecur table table' hrec
    simp only [Bucket.entries, List.length_append]
    omega
  | list ll =>
    rw [hb] at h
    dsimp only at h
    have hle := hop ll
    by_cases hgt : (sllOp ll).count > splitSize
    · rw [if_pos hgt, Option.bind_eq_bind, Option.bind_eq_some_iff] at h
      obtain ⟨⟨popped, table⟩, hpop, ht'⟩ := h
      have hpop := (whilePop_eq spill (sllOp ll).nodes (sllOp ll).count _).symm.trans hpop
      rw [Option.bind_eq_bind, Option.bind_eq_some_iff] at hpop
      obtain ⟨table₁, hfold, heq⟩ := hpop
      cases heq
      refine ⟨_, _, (Option.some.inj ht').symm, ?_⟩
      have hfill := foldlM_length_le hspill _ hfold
      rw [entries_newHashtable, List.length_nil] at hfill
      simp only [Bucket.entries, List.nil_append]
      omega
    · rw [if_neg hgt] at h
      exact ⟨_, _, (Option.some.inj h).symm, hle⟩

theorem hashtablePutKeyValue_length_le : ∀ (fuel : ℕ) (t : Hashtable) (kv : KeyValue)
    (t' : Hashtable), Valws.hashtablePutKeyValue fuel t kv = some t' →
      t'.entries.length ≤ t.entries.length + 1
  | 0, t, kv, t', h => by cases h
  | fuel + 1, t, kv, t', h => by
    rw [Valws.hashtablePutKeyValue] at h
    exact insertWith_length_le (fun ll => (List.length_cons).le)
      (fun c c' => hashtablePutKeyValue_length_le fuel c kv c')
      (hashtablePutKeyValue_length_le fuel) h

/-- **`hashtable_put_key_value` on the heap.** -/
theorem hashtablePutKeyValue_spec {loop : ℕ} : ∀ fuel : ℕ,
    SpillsLike (α := α) loop (Valws.hashtablePutKeyValue fuel) (hashtablePutKeyValue loop fuel)
  | 0 => by
    intro q c kv c' hlen h
    cases h
  | fuel + 1 => by
    intro q t kv t' hlen h
    refine ⟨hashtablePutKeyValue_length_le _ _ _ _ h, ?_⟩
    rw [Valws.hashtablePutKeyValue] at h
    have hle := length_bucket_le t (bucketIndex kv.key t.shifts)
    refine insertWith_spec (fun q ll hb => ⟨?_, sllPutKeyValue_spec kv⟩)
      (fun q c ll c' hb hrec => ?_) (hashtablePutKeyValue_spec fuel) h
    · rw [hb] at hle
      simp only [Bucket.entries] at hle
      show ll.nodes.length + 1 < loop
      omega
    · rw [hb] at hle
      simp only [Bucket.entries, List.length_append] at hle
      exact (hashtablePutKeyValue_spec fuel q c kv c' (by omega) hrec).2

theorem sllAdd_length_le (ll : LinkedList) (key : Ull) :
    (Valws.sllAdd ll key).nodes.length ≤ ll.nodes.length + 1 := by
  by_cases hkey : key ∈ keysOf ll.nodes
  · obtain ⟨a, v, b, hn, -, hadd⟩ := Valws.sllAdd_old hkey
    rw [hadd, hn]
    simp
  · rw [Valws.sllAdd_new hkey]
    simp

/-- **`put` on the heap**, when the list it ends at is short enough for the loops. -/
theorem put_spec {loop : ℕ} : ∀ (fuel : ℕ) {p : Option α} {t t' : Hashtable} {address : Ull},
    (t.listOf address).nodes.length + 1 < loop → Valws.put fuel t address = some t' →
    Triple (tableAt p t) (put loop fuel p address) fun _ => tableAt p t'
  | 0, p, t, t', address, _, h => by cases h
  | fuel + 1, p, t, t', address, hlen, h => by
    rw [Valws.put] at h
    have hlist : t.listOf address = (t.bucket (bucketIndex address t.shifts)).listOf address := by
      obtain ⟨c, l, s, b⟩ := t
      rw [Hashtable.listOf, Hashtable.bucket_mk, Hashtable.shifts_mk]
    rw [hlist] at hlen
    refine insertWith_spec (fun q ll hb => ?_) (fun q c ll c' hb hrec => ?_)
      (hashtablePutKeyValue_spec fuel) h
    · rw [hb, Bucket.listOf] at hlen
      have := sllAdd_length_le ll address
      exact ⟨by omega, sllAdd_spec (by omega) address⟩
    · rw [hb, Bucket.listOf] at hlen
      exact put_spec fuel hlen hrec

/-! ## Merging -/

/-- The bucket with another list. -/
def withList (B : Bucket) (ll : LinkedList) : Bucket :=
  match B with
  | .list _ => .list ll
  | .expanded table _ => .expanded table ll

/-- What a bucket is on the heap besides its list. -/
def bucketTable (cell : BucketCell α) : Bucket → Assertion α (Object α)
  | .list _ => fact (cell.table = none)
  | .expanded table _ => tableAt cell.table table

theorem bucketAt_withList (cell : BucketCell α) (B : Bucket) (ll : LinkedList) :
    bucketAt cell (withList B ll) = bucketTable cell B * listAt cell.linkedList ll := by
  cases B <;> rw [withList, bucketAt, bucketTable]

theorem withList_self (B : Bucket) : withList B B.linkedList = B := by
  cases B <;> rfl

/-- The bucket after the pop loop has emptied its list. -/
def popped (B : Bucket) : Bucket :=
  withList B ⟨B.linkedList.count - BitVec.ofNat 64 (2 * B.linkedList.nodes.length), []⟩

section Merge

variable {loop : ℕ} {q r : Option α} {c l s : Ull} {b : Fin tableSize → Bucket} {ll : LinkedList}

/-- The pop loop with `sll_put_key_value` moves the nodes of one list to another. -/
theorem movePopped_spec {p : Option α} {ns : List KeyValue} {c : Ull} (hlen : ns.length < loop) :
    Triple (listAt p ⟨c, ns⟩ * listAt r ll) (whileSllPop (sllPutKeyValue r) loop p) fun _ =>
      listAt p ⟨c - BitVec.ofNat 64 (2 * ns.length), []⟩ *
        listAt r (ns.foldl Valws.sllPutKeyValue ll) :=
  whileSllPop_spec (listAt r) (fun l kv => some (Valws.sllPutKeyValue l kv)) (fun _ _ => True)
    (fun kv _ _ _ _ h => ⟨trivial, Option.some.inj h ▸ sllPutKeyValue_spec kv⟩) ns hlen trivial
    List.foldlM_pure

/-- **The merge loop on the heap** empties the lists of the inner table into the bucket's list. -/
theorem mergeLists_spec (hshort : ∀ i, (b i).linkedList.nodes.length < loop) :
    Triple (tableAt q (.mk c l s b) * listAt r ll) (mergeLists loop q r) fun _ =>
      tableAt q (.mk c l s fun i => popped (b i)) *
        listAt r (Valws.mergeLists (.mk c l s b) ll) := by
  have hpop : ∀ (inner l : LinkedList),
      (whilePop (m := Id) Valws.sllPutKeyValue inner.nodes.length inner l).2 =
        inner.nodes.foldl Valws.sllPutKeyValue l := by
    intro inner l
    have h := whilePop_eq (m := Id) Valws.sllPutKeyValue inner.nodes inner.count l
    exact (congrArg Prod.snd h).trans List.idRun_foldlM
  unfold mergeLists Valws.mergeLists
  simp only [hpop, Hashtable.bucket_mk]
  -- the loop has emptied the lists of the buckets `done`
  let I : List (Fin tableSize) → Assertion α (Object α) := fun done =>
    tableAt q (.mk c l s fun i => if i ∈ done then popped (b i) else b i) *
      listAt r (done.foldl (fun l i => (b i).linkedList.nodes.foldl Valws.sllPutKeyValue l) ll)
  refine Triple.conseq (Triple.forM I fun done i todo hl => ?_) ?_ fun _ => ?_
  · have hi : i ∉ done := fun hmem => by
      have hnd := List.nodup_finRange tableSize
      rw [hl, List.nodup_append] at hnd
      exact hnd.2.2 i hmem i List.mem_cons_self rfl
    have hupdate : (fun k => if k ∈ done ++ [i] then popped (b k) else b k) =
        Function.update (fun k => if k ∈ done then popped (b k) else b k) i (popped (b i)) := by
      funext k
      by_cases hk : k = i
      · subst hk
        simp
      · simp [hk]
    simp only [I, hupdate, List.foldl_append, List.foldl_cons, List.foldl_nil]
    generalize done.foldl _ ll = acc
    rw [tableAt_open i, ex_mul]
    refine Triple.ex fun cells => ?_
    rw [mul_assoc]
    refine opened_loadBucket ?_
    have hself : bucketAt (cells i) (if i ∈ done then popped (b i) else b i) =
        bucketTable (cells i) (b i) * listAt (cells i).linkedList (b i).linkedList := by
      rw [if_neg hi, ← bucketAt_withList, withList_self]
    rw [hself]
    refine Triple.rearrange (listAt (cells i).linkedList (b i).linkedList * listAt r acc *
      (opened q c l s cells (fun k => if k ∈ done then popped (b k) else b k) i *
        bucketTable (cells i) (b i))) ?_
    refine ((movePopped_spec (hshort i)).frame _).post fun _ => ?_
    have hclose := opened_close_same q c l s cells
      (fun k => if k ∈ done then popped (b k) else b k) i (popped (b i))
    rw [popped, bucketAt_withList] at hclose
    refine le_trans (le_of_eq ?_) (mul_le_mul' hclose le_rfl)
    ac_rfl
  · simp [I]
  · simp [I, List.mem_finRange]

end Merge

/-! ## `delete` -/

/-- The lists of a reachable table are short. -/
theorem tame_of_nodeOk {x : Prop} {lo D L loop : ℕ} (hloop : 16 ≤ loop) {t : Hashtable}
    (h : NodeOk x lo D L t) : Tame loop L t := by
  refine ⟨h.depth, h.shifts_lt, fun i => ?_⟩
  have hok := h.bucket i
  cases hb : t.bucket i with
  | list ll =>
    rw [hb] at hok
    cases hok with
    | fresh _ _ short =>
      show ll.nodes.length < loop
      omega
    | spent _ _ short _ =>
      show ll.nodes.length < loop
      omega
  | expanded c ll =>
    show ll.nodes.length < loop
    rw [h.expanded_empty hb, List.length_nil]
    omega

/-- Emptying the lists of one table leaves those below it as they are. -/
theorem tame_popped {L loop : ℕ} {c l s : Ull} {b : Fin tableSize → Bucket}
    (h : Everywhere (Tame loop) L (.mk c l s b)) :
    Everywhere (Tame loop) L (.mk c l s fun i => popped (b i)) := by
  have hhere := h.here
  refine .node ⟨hhere.depth, hhere.shifts, fun i => ?_⟩ fun i t ll hb => ?_
  · have hshort := hhere.short i
    have hempty : (popped (b i)).linkedList.nodes = [] := by
      unfold popped withList
      cases b i <;> rfl
    rw [Hashtable.bucket_mk, hempty, List.length_nil]
    omega
  · cases hbi : b i with
    | list l' =>
      rw [Hashtable.bucket_mk, hbi] at hb
      cases hb
    | expanded t' l' =>
      rw [Hashtable.bucket_mk, hbi] at hb
      cases hb
      exact h.child hbi

/-- The branch of `delete` that takes a small table back into the list of its bucket. -/
theorem merge_spec {loop fuel L : ℕ} {q r : Option α} {ll : LinkedList} (hfuel : 16 ≤ fuel + L) :
    ∀ {t : Hashtable}, Everywhere (Tame loop) L t →
    Triple (tableAt q t * listAt r ll)
      (do
        mergeLists loop q r
        destroyHashtable loop fuel q)
      fun _ => listAt r (Valws.mergeLists t ll)
  | .mk _ _ _ _, ht =>
    (mergeLists_spec ht.here.short).bind fun _ =>
      ((destroyHashtable_spec fuel L hfuel (tame_popped ht)).frame _).post fun _ => (one_mul _).le

/-- **`delete` on the heap**, of a well-formed table. -/
theorem delete_spec {loop lo D : ℕ} (hloop : 16 ≤ loop) (hlo : lo ≤ 6) (hD : D < 2 ^ 61)
    (address : Ull) : ∀ (fuel L : ℕ) {p : Option α} {t : Hashtable}, 16 ≤ fuel + L →
    TableOk False lo D L t →
    Triple (tableAt p t) (delete loop fuel p address) fun _ => tableAt p (Valws.delete t address)
  | 0, L, p, t, hfuel, ht => by
    have := ht.here.depth
    omega
  | fuel + 1, L, p, .mk c l s b, hfuel, ht => by
    have hs : s.toNat < 64 := ht.here.shifts_lt
    rw [delete_mk]
    unfold delete
    set j := bucketIndex address s with hj
    rw [tableAt_open j]
    refine Triple.ex fun cells => ?_
    refine opened_load ?_
    rw [if_neg (Nat.not_le.mpr hs)]
    refine opened_loadBucket ?_
    cases hb : b j with
    | list ll =>
      rw [bucketAt]
      refine Triple.rearrange (fact ((cells j).table = none) * (listAt (cells j).linkedList ll *
        opened p c l s cells b j)) ?_
      refine Triple.fact fun hnull => ?_
      rw [if_neg (not_not.mpr hnull)]
      have hlen : ll.nodes.length < loop := by
        have := (tame_of_nodeOk hloop ht.here).short j
        rwa [Hashtable.bucket_mk, hb] at this
      refine listAt_load fun x hx => ?_
      refine (sllRemove_spec hlen address).call fun _ => ?_
      refine listAt_load fun y hy => ?_
      rw [hx, hy, mul_comm]
      refine ((changeCount_spec _ _ _).frame _).post fun _ => ?_
      have hclose := opened_close_same p
        (if ll.count ≠ (Valws.sllRemove ll address).count then c - 1 else c) l s cells b j
        (.list (Valws.sllRemove ll address))
      rw [bucketAt, fact_eq_one hnull, one_mul] at hclose
      rw [deleteBucket]
      simpa only [decide_eq_true_eq] using hclose
    | expanded t ll =>
      have hdel : TableOk False lo D (L + 1) (Valws.delete t address) :=
        (Valws.delete_spec hlo hD (ht.child hb) False.elim).ok
      rw [bucketAt]
      refine Triple.rearrange (tableAt (cells j).table t * (opened p c l s cells b j *
        listAt (cells j).linkedList ll)) ?_
      refine tableAt_not_null fun hnull => ?_
      rw [if_pos hnull]
      refine tableAt_load fun x hx => ?_
      refine (delete_spec hloop hlo hD address fuel (L + 1) (by omega) (ht.child hb)).call
        fun _ => ?_
      rw [mul_left_comm]
      refine opened_loadBucket ?_
      rw [mul_left_comm]
      refine tableAt_load fun y hy => ?_
      rw [hx, hy, mul_left_comm]
      refine (changeCount_spec _ _ _).call fun _ => ?_
      rw [mul_left_comm]
      refine tableAt_load fun z hz => ?_
      rw [hz]
      set c' := if t.count ≠ (Valws.delete t address).count then c - 1 else c with hc'
      by_cases hmerge : (Valws.delete t address).count < mergeSize
      · rw [if_pos hmerge]
        have htame : Everywhere (Tame loop) (L + 1) (Valws.delete t address) :=
          Everywhere.mono (fun _ _ => tame_of_nodeOk hloop) hdel
        refine Triple.rearrange (tableAt (cells j).table (Valws.delete t address) *
          listAt (cells j).linkedList ll * opened p c' l s cells b j) ?_
        rw [← bind_assoc]
        refine (merge_spec (by omega) htame).call fun _ => ?_
        have hset : Triple (opened p c' l s cells b j *
              listAt (cells j).linkedList (Valws.mergeLists (Valws.delete t address) ll))
            (modify tableKind p (fun t => t.setBucket j fun b => { b with table := none }) >>=
              (Pure.pure : Unit → Code α Unit))
            fun _ => tableAt p (.mk c' l s (Function.update b j
              (.list (Valws.mergeLists (Valws.delete t address) ll)))) := by
          refine opened_setTable (Triple.pure ?_)
          refine le_trans (mul_le_mul' le_rfl (le_of_eq ?_)) (opened_close cells ⟨none, _⟩ _)
          rw [bucketAt, fact_eq_one rfl, one_mul]
        rw [bind_pure, mul_comm] at hset
        simpa only [deleteBucket, if_pos hmerge, decide_eq_true_eq, ← hc'] using hset
      · rw [if_neg hmerge]
        refine Triple.pure ?_
        have hclose := opened_close_same p c' l s cells b j
          (.expanded (Valws.delete t address) ll)
        rw [bucketAt, mul_left_comm] at hclose
        simpa only [deleteBucket, if_neg hmerge, decide_eq_true_eq, ← hc'] using hclose

/-! ## Runs -/

/-- The list that `put` ends at is short. -/
theorem length_listOf_le {x : Prop} {lo D L : ℕ} {t : Hashtable} (ht : TableOk x lo D L t)
    (key : Ull) : (t.listOf key).nodes.length ≤ 15 := by
  induction ht with
  | @node L t here _ ih =>
    obtain ⟨c, l, s, b⟩ := t
    rw [Hashtable.listOf]
    cases hb : b (bucketIndex key s) with
    | list ll =>
      have hshort := (tame_of_nodeOk le_rfl here).short (bucketIndex key s)
      rw [Hashtable.bucket_mk, hb] at hshort
      exact Nat.le_of_lt_succ hshort
    | expanded t ll => exact ih _ t ll hb

/-- A call of `put` or `delete` on the table at `hashtable`. -/
def callTable (loop fuel : ℕ) (hashtable : Option α) : TableOp → Code α Unit
  | .put key => put loop fuel hashtable key
  | .delete key => delete loop fuel hashtable key

/-- **One call on the heap.** -/
theorem callTable_spec {loop fuel D : ℕ} (hloop : 17 ≤ loop) (hfuel : 16 ≤ fuel)
    (hD : D + 1 < 2 ^ 61) {p : Option α} {t : Hashtable} (ht : TableOk False 1 D 0 t)
    (op : TableOp) : ∃ t', op.apply fuel t = some t' ∧ TableOk False 1 (D + 1) 0 t' ∧
      Triple (tableAt p t) (callTable loop fuel p op) fun _ => tableAt p t' := by
  obtain ⟨t', happly, hok⟩ := tableOk_apply (by omega) hD hfuel ht op
    (fun k _ => splitsAtLeast_one t k) fun _ _ => False.elim
  refine ⟨t', happly, hok, ?_⟩
  cases op with
  | put key =>
    have hshort := length_listOf_le ht key
    exact put_spec fuel (by omega) happly
  | delete key =>
    obtain rfl : Valws.delete t key = t' := Option.some.inj happly
    exact delete_spec (by omega) (by omega) (by omega) key fuel 0 (by omega) ht

/-- **Any calls on the heap**, one after another. -/
theorem forM_callTable_spec {loop fuel : ℕ} (hloop : 17 ≤ loop) (hfuel : 16 ≤ fuel)
    {p : Option α} : ∀ (ops : List TableOp) {D : ℕ} {t : Hashtable}, TableOk False 1 D 0 t →
    D + ops.length < 2 ^ 60 → ∃ t', runTable fuel ops t = some t' ∧
      TableOk False 1 (D + ops.length) 0 t' ∧
      Triple (tableAt p t) (ops.forM (callTable loop fuel p)) fun _ => tableAt p t'
  | [], D, t, ht, _ => ⟨t, rfl, ht, Triple.pure le_rfl⟩
  | op :: ops, D, t, ht, hD => by
    rw [List.length_cons] at hD
    obtain ⟨t₁, happly, hok, hcall⟩ := callTable_spec (p := p) hloop hfuel (by omega) ht op
    obtain ⟨t', hrun, hok', hrest⟩ := forM_callTable_spec hloop hfuel ops hok (by omega)
    refine ⟨t', ?_, ?_, hcall.bind fun _ => hrest⟩
    · rw [runTable, List.foldlM_cons, happly]
      exact hrun
    · rwa [List.length_cons, Nat.add_comm ops.length, ← Nat.add_assoc]

/-- **The hash table on the heap is the table of `Hashtable.lean`.** A new table and any calls of
`put` and `delete` on it, with whatever addresses and contents `malloc` returns, either fail in
`malloc` or leave exactly the objects of the table that `runTable` computes. No null or freed
address is accessed, no shift is undefined, and no loop tests more than 17 times. -/
theorem runTable_onHeap (loop fuel : ℕ) (hloop : 17 ≤ loop) (hfuel : 16 ≤ fuel)
    (ops : List TableOp) (hlen : ops.length < 2 ^ 60) (tape : List (α × Found α)) :
    ∃ t, runTable fuel ops Valws.newHashtable = some t ∧
      let run : Code α (Option α) := do
        let hashtable ← newHashtable
        ops.forM (callTable loop fuel hashtable)
        pure hashtable
      run ⟨Heap.empty, tape⟩ = .error .noMemory ∨
        ∃ p s, run ⟨Heap.empty, tape⟩ = .ok (p, s) ∧ tableAt p t s.heap := by
  have hnew := tableOk_new False 1 0 (show (0 : Ull).toNat = 0 from rfl) (Nat.zero_le 15)
  obtain ⟨t, hrun, -, -⟩ := forM_callTable_spec (α := α) (p := none) hloop hfuel ops hnew (by omega)
  refine ⟨t, hrun, Triple.run_empty ?_ tape⟩
  refine (_newHashtable_spec 0).bind fun p => ?_
  obtain ⟨t', hrun', -, hcalls⟩ := forM_callTable_spec (p := p) hloop hfuel ops hnew (by omega)
  obtain rfl : t = t' := Option.some.inj (hrun.symm.trans hrun')
  exact hcalls.bind fun _ => Triple.pure le_rfl

/-- A `malloc` that returns 100 addresses in turn, each with the same old contents. -/
def dirtyTape : List (ℕ × Found ℕ) :=
  (List.range 100).map fun i =>
    (i, ⟨⟨⟨7, 7⟩, some 3⟩, ⟨9, some 3⟩, ⟨5, 5, 5, fun _ => ⟨some 3, some 4⟩⟩⟩)

/-- Sixteen keys of one bucket: the run that splits it reaches its end. -/
theorem runTable_onHeap_split :
    let ops := (List.range 16).map fun i => TableOp.put (BitVec.ofNat 64 (16 * i))
    ∃ t, runTable 16 ops Valws.newHashtable = some t ∧
      let run : Code ℕ (Option ℕ) := do
        let hashtable ← newHashtable
        ops.forM (callTable 17 16 hashtable)
        pure hashtable
      ∃ p s, run ⟨Heap.empty, dirtyTape⟩ = .ok (p, s) ∧ tableAt p t s.heap := by
  intro ops
  obtain ⟨t, hrun, hends⟩ := runTable_onHeap (α := ℕ) 17 16 le_rfl le_rfl ops (by decide) dirtyTape
  refine ⟨t, hrun, hends.resolve_left fun h => ?_⟩
  have hok : ((do
      let hashtable ← newHashtable
      ops.forM (callTable 17 16 hashtable)
      pure hashtable : Code ℕ (Option ℕ)) ⟨Heap.empty, dirtyTape⟩).isOk = true := by
    decide +kernel
  rw [h] at hok
  cases hok

end C380.Valws.OnHeap
