import C380.Lib.SlidingWindow
import C380.Valws.Base

/-!
# The queue of references (`Assignment03/queue.c`)

A `struct queue` is its `size` field and the values reached from `tail` along the `head` pointers,
oldest first. `enqueue` adds at `head`, `dequeue` takes from `tail`.

* `enqueue_slide`, `dequeue_slide`: `enqueue`, and `dequeue` when the size is above the window,
  slide the window of the values.
-/

namespace C380.Valws

open SlidingWindow

/-- `struct queue`: the stored size and the values from `tail` to `head`. -/
structure Queue where
  size : Ull
  nodes : List MemRef
  deriving DecidableEq, Repr

/-- `new_queue`. -/
def newQueue : Queue := ⟨0, []⟩

/-- `enqueue`: a new node at `head`. -/
def enqueue (q : Queue) (value : MemRef) : Queue :=
  ⟨q.size + 1, q.nodes ++ [value]⟩

/-- `dequeue`: the value of the `tail` node. An empty queue prints an error and gives an empty
`mem_ref`. -/
def dequeue (q : Queue) : MemRef × Queue :=
  match q.nodes with
  | value :: rest => (value, ⟨q.size - 1, if q.size = 1 then [] else rest⟩)
  | [] => (newMemRef, q)

/-- The stored size is the number of nodes. -/
def Queue.Ok (q : Queue) : Prop := q.size.toNat = q.nodes.length

theorem newQueue_ok : newQueue.Ok := rfl

theorem Queue.Ok.enqueue {q : Queue} (h : q.Ok) (hlen : q.nodes.length + 1 < 2 ^ 64)
    (value : MemRef) : (enqueue q value).Ok := by
  unfold Queue.Ok at h ⊢
  rw [Valws.enqueue, List.length_append, List.length_singleton]
  bv_omega

/-- A non-empty queue gives its oldest value and keeps the others. -/
theorem dequeue_cons {q : Queue} (h : q.Ok) {value : MemRef} {rest : List MemRef}
    (hq : q.nodes = value :: rest) : dequeue q = (value, ⟨q.size - 1, rest⟩) ∧
      (Queue.mk (q.size - 1) rest).Ok := by
  unfold Queue.Ok at h ⊢
  rw [hq, List.length_cons] at h
  refine ⟨?_, by simp only; bv_omega⟩
  simp only [dequeue, hq]
  by_cases h1 : q.size = 1
  · have : rest = [] := by
      rw [h1] at h
      exact List.length_eq_zero_iff.mp (Nat.succ.inj h).symm
    rw [this, ite_self]
  · rw [if_neg h1]

section Slide

variable {q : Queue} (h : q.Ok) (hlen : q.nodes.length + 1 < 2 ^ 64) (windowSize : Ull)
  (value : MemRef)
include h hlen

/-- The size test compares the number of values with the window. -/
theorem size_gt_iff : (enqueue q value).size > windowSize ↔
    windowSize.toNat < (q.nodes ++ [value]).length := by
  have hok := h.enqueue hlen value
  unfold Queue.Ok at hok
  rw [gt_iff_lt, BitVec.lt_def, hok]
  rfl

/-- A queue that stays within the window keeps its values. -/
theorem enqueue_slide (hle : ¬ (enqueue q value).size > windowSize) :
    (enqueue q value).nodes = slide windowSize.toNat q.nodes value := by
  rw [size_gt_iff h hlen] at hle
  unfold slide
  rw [if_neg hle]
  rfl

/-- **Above the window the oldest value leaves**, and the others stay. -/
theorem dequeue_slide (hgt : (enqueue q value).size > windowSize) :
    (dequeue (enqueue q value)).2.Ok ∧
      (dequeue (enqueue q value)).2.nodes = slide windowSize.toNat q.nodes value ∧
      q.nodes ++ [value] =
        (dequeue (enqueue q value)).1 :: slide windowSize.toNat q.nodes value := by
  rw [size_gt_iff h hlen] at hgt
  unfold slide
  rw [if_pos hgt]
  cases hq : q.nodes ++ [value] with
  | nil => simp at hq
  | cons oldest rest =>
    obtain ⟨hdeq, hok⟩ := dequeue_cons (h.enqueue hlen value) hq
    rw [hdeq]
    exact ⟨hok, rfl, rfl⟩

end Slide

end C380.Valws
