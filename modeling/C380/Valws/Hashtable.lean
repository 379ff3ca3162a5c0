import Mathlib.Data.List.FinRange
import Mathlib.Logic.Function.Basic
import C380.Valws.LinkedList

/-!
# The radix hash table (`Assignment03/hashtable.c`)

A `struct bucket` "acts as either a hashtable or linked list": its `table` pointer is `NULL`
(`Bucket.list`) or a table (`Bucket.expanded`), and it has a linked list in both cases. A
`struct hashtable` is its three counters and the array of `TABLE_SIZE` buckets.

* `put` and `hashtable_put_key_value` differ only in the list operation of an unexpanded bucket;
  both are `insertWith` applied to their own. The recursion into a freshly split table is not
  structural, so both take a bound `fuel` on the depth of the calls; `none` is a call that went
  deeper. `Runs.lean` shows that 16 levels are always enough.
* `delete` recurses into the tables that exist, so it needs no bound.
* A shift by 64 or more is undefined in C: `put` and `hashtable_put_key_value` give `none` there
  too, and `delete`, which shifts only by the amounts of tables that exist, index 0. `Runs.lean`
  shows that no table of a run shifts by more than 60.
* `entries` lists everything stored below a table, `keys` the keys of it.
-/

namespace C380.Valws

mutual

/-- `struct hashtable`. -/
inductive Hashtable where
  | mk (count level shifts : Ull) (bucket : Fin tableSize → Bucket)

/-- `struct bucket`: `table == NULL`, or a table; with the linked list beside it. -/
inductive Bucket where
  | list (linkedList : LinkedList)
  | expanded (table : Hashtable) (linkedList : LinkedList)

end

namespace Hashtable

/-- `hashtable->count`. -/
def count : Hashtable → Ull
  | .mk count _ _ _ => count

/-- `hashtable->level`. -/
def level : Hashtable → Ull
  | .mk _ level _ _ => level

/-- `hashtable->shifts`. -/
def shifts : Hashtable → Ull
  | .mk _ _ shifts _ => shifts

/-- `hashtable->bucket[i]`. -/
def bucket : Hashtable → Fin tableSize → Bucket
  | .mk _ _ _ bucket => bucket

@[simp] theorem count_mk (c l s : Ull) (b : Fin tableSize → Bucket) : (mk c l s b).count = c := rfl
@[simp] theorem level_mk (c l s : Ull) (b : Fin tableSize → Bucket) : (mk c l s b).level = l := rfl
@[simp] theorem shifts_mk (c l s : Ull) (b : Fin tableSize → Bucket) :
    (mk c l s b).shifts = s := rfl
@[simp] theorem bucket_mk (c l s : Ull) (b : Fin tableSize → Bucket) :
    (mk c l s b).bucket = b := rfl

end Hashtable

/-- `bucket->linked_list`. -/
def Bucket.linkedList : Bucket → LinkedList
  | .list l => l
  | .expanded _ l => l

/-- `_new_hashtable`: sixteen unexpanded buckets with empty lists. -/
def _newHashtable (level : Ull) : Hashtable :=
  .mk 0 level (getPowerOfTwo tableSize * level) fun _ => .list newLinkedList

/-- `new_hashtable`. -/
def newHashtable : Hashtable := _newHashtable 0

theorem bucketIndex_lt (key shifts : Ull) :
    ((key >>> shifts) &&& hashMask).toNat < tableSize := by
  rw [BitVec.toNat_and]
  exact Nat.lt_of_le_of_lt Nat.and_le_right (by decide)

/-- `(key >> hashtable->shifts) & HASH_MASK`. -/
def bucketIndex (key shifts : Ull) : Fin tableSize :=
  ⟨((key >>> shifts) &&& hashMask).toNat, bucketIndex_lt key shifts⟩

/-- The common body of `put` and `hashtable_put_key_value`. `sllOp` is the list operation of an
unexpanded bucket, `recur` the recursive call into an existing table, `spill` the
`hashtable_put_key_value` that moves the popped nodes of a split bucket into its new table. -/
def insertWith (sllOp : LinkedList → LinkedList) (recur : Hashtable → Option Hashtable)
    (spill : Hashtable → KeyValue → Option Hashtable) (key : Ull) :
    Hashtable → Option Hashtable
  | .mk count level shifts bucket =>
    let index := bucketIndex key shifts
    if 64 ≤ shifts.toNat then none
    else match bucket index with
    | .expanded table linkedList => do
      let table' ← recur table
      let count' := if table.count ≠ table'.count then count + 1 else count
      some (.mk count' level shifts (Function.update bucket index (.expanded table' linkedList)))
    | .list linkedList =>
      let linkedList' := sllOp linkedList
      let count' := if linkedList.count ≠ linkedList'.count then count + 1 else count
      if linkedList'.count > splitSize then do
        let (popped, table) ←
          whilePop spill linkedList'.nodes.length linkedList' (_newHashtable (level + 1))
        some (.mk count' level shifts (Function.update bucket index (.expanded table popped)))
      else
        some (.mk count' level shifts (Function.update bucket index (.list linkedList')))

/-- `hashtable_put_key_value`. -/
def hashtablePutKeyValue : Nat → Hashtable → KeyValue → Option Hashtable
  | 0, _, _ => none
  | fuel + 1, hashtable, kv =>
    insertWith (fun l => sllPutKeyValue l kv) (fun t => hashtablePutKeyValue fuel t kv)
      (hashtablePutKeyValue fuel) kv.key hashtable

/-- `put`. -/
def put : Nat → Hashtable → Ull → Option Hashtable
  | 0, _, _ => none
  | fuel + 1, hashtable, address =>
    insertWith (fun l => sllAdd l address) (fun t => put fuel t address)
      (hashtablePutKeyValue fuel) address hashtable

/-- The merge loop of `delete`: the nodes of each bucket's own list of `inner_table`, popped in
bucket order and put on the parent's list. -/
def mergeLists (innerTable : Hashtable) (linkedList : LinkedList) : LinkedList :=
  (List.finRange tableSize).foldl
    (fun l i =>
      let inner := (innerTable.bucket i).linkedList
      (whilePop (m := Id) sllPutKeyValue inner.nodes.length inner l).2)
    linkedList

mutual

/-- `delete`. -/
def delete : Hashtable → Ull → Hashtable
  | .mk count level shifts bucket, address =>
    let index := bucketIndex address shifts
    let r := deleteBucket (bucket index) address
    .mk (if r.2 then count - 1 else count) level shifts (Function.update bucket index r.1)

/-- The two branches of `delete` on the bucket of the address, and whether `old_count` differs
after them. A child left with fewer than `MERGE_SIZE` keys is merged into the bucket's list and
destroyed. -/
def deleteBucket : Bucket → Ull → Bucket × Bool
  | .expanded table linkedList, address =>
    let table' := delete table address
    let changed := decide (table.count ≠ table'.count)
    if table'.count < mergeSize then (.list (mergeLists table' linkedList), changed)
    else (.expanded table' linkedList, changed)
  | .list linkedList, address =>
    let linkedList' := sllRemove linkedList address
    (.list linkedList', decide (linkedList.count ≠ linkedList'.count))

end

/-! ## What a table stores -/

mutual

/-- The nodes of every list at or below a table. -/
def Hashtable.entries : Hashtable → List KeyValue
  | .mk _ _ _ bucket => (List.finRange tableSize).flatMap fun i => (bucket i).entries

/-- The nodes of every list at or below a bucket. -/
def Bucket.entries : Bucket → List KeyValue
  | .list linkedList => linkedList.nodes
  | .expanded table linkedList => linkedList.nodes ++ table.entries

end

/-- The keys stored at or below a table, one for every node. -/
def Hashtable.keys (t : Hashtable) : List Ull := keysOf t.entries

/-- The keys stored at or below a bucket, one for every node. -/
def Bucket.keys (b : Bucket) : List Ull := keysOf b.entries

/-- The stored multiplicity of a key: the sum of the values of its nodes. -/
def Hashtable.multiplicity (t : Hashtable) (key : Ull) : Nat :=
  ((t.entries.filter fun e => e.key == key).map fun e => e.value.toNat).sum

end C380.Valws
