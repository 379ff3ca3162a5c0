import Mathlib.Algebra.BigOperators.Fin
import Mathlib.Algebra.Order.Monoid.Defs
import Mathlib.Logic.Function.Basic

/-!
# Separation logic for programs that allocate and free

A heap is a partial function from addresses to objects, and an assertion a predicate on heaps.
`P * Q` holds of a heap that splits into two parts, one for each: assertions are a commutative
monoid (`1` is the empty heap) ordered by implication, so a family of parts is a product.

A program is a function on stores that may fault. `malloc` takes its address, and the contents it
finds there, from a tape, so a program is run against every behaviour of an allocator; when the
tape ends, or names an address in use, it faults with `noMemory`. An access through a null pointer,
through an address that is not allocated or to an object of another kind, and a `free` of such an
address, fault with `invalidAddress`.

* `Triple P c Q`: from a heap part of which satisfies `P`, the program `c` faults with `noMemory`
  or ends with that part satisfying `Q` and the rest unchanged. No other fault is possible.
* `Triple.bind`, `Triple.frame`, `Triple.conseq`, `Triple.ex`, `Triple.fact`: the rules of the
  logic; `Triple.call` is a call in the middle of a program.
* `Triple.load`, `Triple.modify`, `Triple.malloc`, `Triple.free`: the memory operations.
* `Triple.forM`: a counted loop, by its invariant.
-/

namespace Separation

variable {α β γ δ τ υ ι : Type}

/-! ## Heaps -/

/-- The object at each allocated address. -/
abbrev Heap (α β : Type) := α → Option β

namespace Heap

/-- Nothing is allocated. -/
def empty : Heap α β := fun _ => none

/-- No address is allocated in both. -/
def Apart (h h' : Heap α β) : Prop := ∀ a, h a = none ∨ h' a = none

/-- Two heaps side by side. -/
def join (h h' : Heap α β) : Heap α β := fun a => (h a).or (h' a)

/-- One object. -/
def single [DecidableEq α] (a : α) (b : β) : Heap α β := Function.update empty a (some b)

@[simp] theorem empty_apply (a : α) : (empty : Heap α β) a = none := rfl

@[simp] theorem join_apply (h h' : Heap α β) (a : α) : h.join h' a = (h a).or (h' a) := rfl

@[simp] theorem join_empty (h : Heap α β) : h.join empty = h := by
  funext a
  simp

@[simp] theorem empty_join (h : Heap α β) : empty.join h = h := by
  funext a
  simp

theorem join_assoc (h₁ h₂ h₃ : Heap α β) : (h₁.join h₂).join h₃ = h₁.join (h₂.join h₃) := by
  funext a
  simp [Option.or_assoc]

theorem apart_empty (h : Heap α β) : h.Apart empty := fun _ => Or.inr rfl

theorem Apart.symm {h h' : Heap α β} (hd : h.Apart h') : h'.Apart h := fun a => (hd a).symm

theorem Apart.join_comm {h h' : Heap α β} (hd : h.Apart h') : h.join h' = h'.join h := by
  funext a
  rcases hd a with ha | ha <;> simp [ha]

theorem apart_join {h h₁ h₂ : Heap α β} : h.Apart (h₁.join h₂) ↔ h.Apart h₁ ∧ h.Apart h₂ := by
  constructor
  · intro hd
    refine ⟨fun a => ?_, fun a => ?_⟩ <;>
    · have := hd a
      simp only [join_apply, Option.or_eq_none_iff] at this
      tauto
  · rintro ⟨hd₁, hd₂⟩ a
    have h₁a := hd₁ a
    have h₂a := hd₂ a
    simp only [join_apply, Option.or_eq_none_iff]
    tauto

theorem join_apart {h h₁ h₂ : Heap α β} : (h₁.join h₂).Apart h ↔ h₁.Apart h ∧ h₂.Apart h := by
  constructor
  · intro hd
    obtain ⟨hd₁, hd₂⟩ := apart_join.mp hd.symm
    exact ⟨hd₁.symm, hd₂.symm⟩
  · rintro ⟨hd₁, hd₂⟩
    exact (apart_join.mpr ⟨hd₁.symm, hd₂.symm⟩).symm

variable [DecidableEq α]

@[simp] theorem single_self (a : α) (b : β) : single a b a = some b := Function.update_self ..

theorem single_of_ne {a x : α} (hx : x ≠ a) (b : β) : single a b x = none :=
  Function.update_of_ne hx ..

/-- An address that the rest of the heap does not have. -/
theorem single_apart {a : α} {b : β} {h : Heap α β} : (single a b).Apart h ↔ h a = none := by
  constructor
  · intro hd
    simpa using hd a
  · intro ha x
    by_cases hx : x = a
    · exact Or.inr (hx ▸ ha)
    · exact Or.inl (single_of_ne hx b)

theorem update_join (a : α) (o : Option β) (h h' : Heap α β) (ha : h' a = none) :
    Function.update (h.join h') a o = join (Function.update h a o) h' := by
  funext x
  by_cases hx : x = a
  · subst hx
    simp [ha]
  · simp [Function.update_of_ne hx]

end Heap

/-! ## Assertions -/

/-- A predicate on heaps. -/
def Assertion (α β : Type) := Heap α β → Prop

namespace Assertion

@[ext] theorem ext {P Q : Assertion α β} (h : ∀ x, P x ↔ Q x) : P = Q :=
  funext fun x => propext (h x)

/-- A part for each. -/
instance : Mul (Assertion α β) :=
  ⟨fun P Q h => ∃ h₁ h₂, h₁.Apart h₂ ∧ h = h₁.join h₂ ∧ P h₁ ∧ Q h₂⟩

/-- The empty heap. -/
instance : One (Assertion α β) := ⟨fun h => h = Heap.empty⟩

/-- A fact, of the empty heap. -/
def fact (φ : Prop) : Assertion α β := fun h => φ ∧ h = Heap.empty

/-- For some `i`. -/
def ex (P : ι → Assertion α β) : Assertion α β := fun h => ∃ i, P i h

theorem one_apply {h : Heap α β} : (1 : Assertion α β) h ↔ h = Heap.empty := Iff.rfl

theorem star_comm (P Q : Assertion α β) : P * Q = Q * P := by
  ext h
  constructor <;>
  · rintro ⟨h₁, h₂, hd, rfl, hp, hq⟩
    exact ⟨h₂, h₁, hd.symm, hd.join_comm, hq, hp⟩

theorem star_assoc (P Q R : Assertion α β) : P * Q * R = P * (Q * R) := by
  ext h
  constructor
  · rintro ⟨_, h₃, hd, rfl, ⟨h₁, h₂, hd', rfl, hp, hq⟩, hr⟩
    obtain ⟨hd₁, hd₂⟩ := Heap.join_apart.mp hd
    exact ⟨h₁, h₂.join h₃, Heap.apart_join.mpr ⟨hd', hd₁⟩, Heap.join_assoc .., hp,
      h₂, h₃, hd₂, rfl, hq, hr⟩
  · rintro ⟨h₁, _, hd, rfl, hp, h₂, h₃, hd', rfl, hq, hr⟩
    obtain ⟨hd₂, hd₃⟩ := Heap.apart_join.mp hd
    exact ⟨h₁.join h₂, h₃, Heap.join_apart.mpr ⟨hd₃, hd'⟩, (Heap.join_assoc ..).symm,
      ⟨h₁, h₂, hd₂, rfl, hp, hq⟩, hr⟩

theorem fact_mul {φ : Prop} {P : Assertion α β} {h : Heap α β} :
    (fact φ * P : Assertion α β) h ↔ φ ∧ P h := by
  constructor
  · rintro ⟨h₁, h₂, -, rfl, ⟨hφ, rfl⟩, hp⟩
    exact ⟨hφ, by rwa [Heap.empty_join]⟩
  · rintro ⟨hφ, hp⟩
    exact ⟨Heap.empty, h, (Heap.apart_empty h).symm, (Heap.empty_join h).symm, ⟨hφ, rfl⟩, hp⟩

theorem star_one (P : Assertion α β) : P * 1 = P := by
  ext h
  have hone : (1 : Assertion α β) = fact True := by
    ext h
    simp [one_apply, fact]
  rw [star_comm, hone, fact_mul, true_and]

instance : CommMonoid (Assertion α β) where
  mul_assoc := star_assoc
  one_mul P := by rw [star_comm, star_one]
  mul_one := star_one
  mul_comm := star_comm

/-- Implication. -/
instance : PartialOrder (Assertion α β) where
  le P Q := ∀ h, P h → Q h
  le_refl _ _ := id
  le_trans _ _ _ hpq hqr h hp := hqr h (hpq h hp)
  le_antisymm _ _ hpq hqp := ext fun h => ⟨hpq h, hqp h⟩

instance : IsOrderedMonoid (Assertion α β) where
  mul_le_mul_left _ _ hpq _ h := by
    rintro ⟨h₁, h₂, hd, rfl, hp, hr⟩
    exact ⟨h₁, h₂, hd, rfl, hpq _ hp, hr⟩

@[simp] theorem fact_true : (fact True : Assertion α β) = 1 := by
  ext h
  simp [one_apply, fact]

/-- A fact that holds takes no room. -/
theorem fact_eq_one {φ : Prop} (hφ : φ) : (fact φ : Assertion α β) = 1 := by
  rw [eq_true hφ, fact_true]

theorem ex_mul (P : ι → Assertion α β) (Q : Assertion α β) : ex P * Q = ex fun i => P i * Q := by
  ext h
  constructor
  · rintro ⟨h₁, h₂, hd, rfl, ⟨i, hp⟩, hq⟩
    exact ⟨i, h₁, h₂, hd, rfl, hp, hq⟩
  · rintro ⟨i, h₁, h₂, hd, rfl, hp, hq⟩
    exact ⟨h₁, h₂, hd, rfl, ⟨i, hp⟩, hq⟩

theorem mul_ex (P : Assertion α β) (Q : ι → Assertion α β) : P * ex Q = ex fun i => P * Q i := by
  simp only [mul_comm P, ex_mul]

theorem ex_apply {P : ι → Assertion α β} {h : Heap α β} : ex P h ↔ ∃ i, P i h := Iff.rfl

/-- A fact that says which one. -/
theorem ex_fact_mul {P : ι → Assertion α β} {i : ι} :
    (ex fun j => fact (j = i) * P j) = P i := by
  ext h
  rw [ex_apply]
  constructor
  · rintro ⟨j, hj⟩
    obtain ⟨rfl, hp⟩ := fact_mul.mp hj
    exact hp
  · exact fun hp => ⟨i, fact_mul.mpr ⟨rfl, hp⟩⟩

theorem le_ex {P : Assertion α β} {Q : ι → Assertion α β} (i : ι) (h : P ≤ Q i) : P ≤ ex Q :=
  fun x hp => ⟨i, h x hp⟩

theorem ex_mono {P Q : ι → Assertion α β} (h : ∀ i, P i ≤ Q i) : ex P ≤ ex Q :=
  fun x ⟨i, hp⟩ => ⟨i, h i x hp⟩

variable [DecidableEq α]

/-- The pointer `p` is the address of the object `b`. -/
def pointsTo (p : Option α) (b : β) : Assertion α β :=
  fun h => ∃ a, p = some a ∧ h = Heap.single a b

end Assertion

open Assertion

/-! ## Programs -/

/-- What ends a run before its end. -/
inductive Fault where
  | noMemory
  | invalidAddress
  | undefined
  | outOfFuel
  deriving DecidableEq, Repr

/-- A heap, and the addresses that `malloc` is going to return with what it finds there. -/
structure Store (α β γ : Type) where
  heap : Heap α β
  tape : List (α × γ)

/-- Programs with a result in `τ`. -/
abbrev Prog (α β γ τ : Type) := StateT (Store α β γ) (Except Fault) τ

/-- A kind of object, with its fields in `δ`. -/
structure Kind (β δ : Type) where
  obj : δ → β
  view : β → Option δ
  view_obj : ∀ d, view (obj d) = some d

/-- A run that goes wrong. -/
def fault (e : Fault) : Prog α β γ τ := fun _ => .error e

section Operations

variable [DecidableEq α]

/-- `*p`, an object of kind `K`. -/
def load (K : Kind β δ) (p : Option α) : Prog α β γ δ := fun s =>
  match p.bind fun a => (s.heap a).bind K.view with
  | some d => .ok (d, s)
  | none => .error .invalidAddress

/-- A write to fields of `*p`, an object of kind `K`. -/
def modify (K : Kind β δ) (p : Option α) (f : δ → δ) : Prog α β γ Unit := fun s =>
  match p.bind fun a => ((s.heap a).bind K.view).map fun d => (a, d) with
  | some (a, d) => .ok ((), { s with heap := Function.update s.heap a (some (K.obj (f d))) })
  | none => .error .invalidAddress

/-- `malloc` of an object of kind `K`, with the contents it finds. -/
def malloc (K : Kind β δ) (found : γ → δ) : Prog α β γ (Option α) := fun s =>
  match s.tape with
  | [] => .error .noMemory
  | (a, g) :: tape =>
    if (s.heap a).isNone then
      .ok (some a, ⟨Function.update s.heap a (some (K.obj (found g))), tape⟩)
    else .error .noMemory

/-- `free`. -/
def free (p : Option α) : Prog α β γ Unit := fun s =>
  match p with
  | none => .ok ((), s)
  | some a =>
    if (s.heap a).isSome then .ok ((), { s with heap := Function.update s.heap a none })
    else .error .invalidAddress

end Operations

/-! ## Triples -/

/-- How a run may end: `malloc` failed, or the heap is a part that satisfies `Q` beside `frame`. -/
inductive Ends (Q : τ → Assertion α β) (frame : Heap α β) :
    Except Fault (τ × Store α β γ) → Prop
  | noMemory : Ends Q frame (.error .noMemory)
  | ok {x : τ} {s : Store α β γ} {h : Heap α β} (post : Q x h) (apart : h.Apart frame)
      (heap : s.heap = h.join frame) : Ends Q frame (.ok (x, s))

section Ends

variable {Q : τ → Assertion α β} {f : Heap α β} {r : Except Fault (τ × Store α β γ)}

theorem Ends.bind {Q' : υ → Assertion α β} {k : τ × Store α β γ → Except Fault (υ × Store α β γ)}
    (hr : Ends Q f r)
    (hk : ∀ x s h, Q x h → h.Apart f → s.heap = h.join f → Ends Q' f (k (x, s))) :
    Ends Q' f (r >>= k) := by
  cases hr with
  | noMemory => exact .noMemory
  | ok post apart heap => exact hk _ _ _ post apart heap

theorem Ends.mono {Q' : τ → Assertion α β} (hr : Ends Q f r) (hq : ∀ x, Q x ≤ Q' x) :
    Ends Q' f r := by
  cases hr with
  | noMemory => exact .noMemory
  | ok post apart heap => exact .ok (hq _ _ post) apart heap

/-- A part of the frame taken into the assertion. -/
theorem Ends.frame {R : Assertion α β} {h : Heap α β} (hr : Ends Q (h.join f) r) (hR : R h)
    (hd : h.Apart f) : Ends (fun x => Q x * R) f r := by
  cases hr with
  | noMemory => exact .noMemory
  | ok post apart heap =>
    obtain ⟨ha₁, ha₂⟩ := Heap.apart_join.mp apart
    rw [← Heap.join_assoc] at heap
    exact .ok ⟨_, h, ha₁, rfl, post, hR⟩ (Heap.join_apart.mpr ⟨ha₂, hd⟩) heap

end Ends

/-- From a heap part of which satisfies `P`, the program ends with that part satisfying `Q`, the
rest unchanged, unless `malloc` fails. -/
def Triple (P : Assertion α β) (c : Prog α β γ τ) (Q : τ → Assertion α β) : Prop :=
  ∀ (s : Store α β γ) (h frame : Heap α β), P h → h.Apart frame → s.heap = h.join frame →
    Ends Q frame (c s)

namespace Triple

variable {P P' R : Assertion α β} {Q Q' : τ → Assertion α β} {c : Prog α β γ τ}

theorem pure {x : τ} (h : P ≤ Q x) : Triple P (pure x : Prog α β γ τ) Q :=
  fun _ _ _ hp hd hs => .ok (h _ hp) hd hs

theorem bind {k : τ → Prog α β γ υ} {Q' : υ → Assertion α β} (hc : Triple P c Q)
    (hk : ∀ x, Triple (Q x) (k x) Q') : Triple P (c >>= k) Q' :=
  fun s h frame hp hd hs => (hc s h frame hp hd hs).bind fun x s' h' post apart heap =>
    hk x s' h' frame post apart heap

/-- **The frame rule.** -/
theorem frame (R : Assertion α β) (hc : Triple P c Q) : Triple (P * R) c fun x => Q x * R := by
  rintro s _ f ⟨h₁, h₂, hd', rfl, hp, hr⟩ hd hs
  obtain ⟨hd₁, hd₂⟩ := Heap.join_apart.mp hd
  rw [Heap.join_assoc] at hs
  exact (hc s h₁ (h₂.join f) hp (Heap.apart_join.mpr ⟨hd', hd₁⟩) hs).frame hr hd₂

theorem conseq (hc : Triple P c Q) (hp : P' ≤ P) (hq : ∀ x, Q x ≤ Q' x) : Triple P' c Q' :=
  fun s h f hp' hd hs => (hc s h f (hp h hp') hd hs).mono hq

theorem pre (hc : Triple P c Q) (hp : P' ≤ P) : Triple P' c Q := hc.conseq hp fun _ => le_rfl

theorem post (hc : Triple P c Q) (hq : ∀ x, Q x ≤ Q' x) : Triple P c Q' := hc.conseq le_rfl hq

/-- The parts in another order. -/
theorem rearrange (P' : Assertion α β) (h : Triple P' c Q) (hp : P = P' := by ac_rfl) :
    Triple P c Q := hp ▸ h

/-- A call with a frame, in the middle of a program. -/
theorem call {k : τ → Prog α β γ υ} {Q' : υ → Assertion α β} (hc : Triple P c Q)
    (hk : ∀ x, Triple (Q x * R) (k x) Q') : Triple (P * R) (c >>= k) Q' :=
  (hc.frame R).bind hk

theorem ex {P : ι → Assertion α β} (h : ∀ i, Triple (P i) c Q) : Triple (ex P) c Q :=
  fun s x f ⟨i, hp⟩ hd hs => h i s x f hp hd hs

theorem fact {φ : Prop} (h : φ → Triple P c Q) : Triple (fact φ * P) c Q := by
  intro s x f hp hd hs
  obtain ⟨hφ, hp⟩ := fact_mul.mp hp
  exact h hφ s x f hp hd hs

/-- A run on the empty heap. -/
theorem run_empty (h : Triple 1 c Q) (tape : List (α × γ)) :
    c ⟨Heap.empty, tape⟩ = .error .noMemory ∨
      ∃ x s, c ⟨Heap.empty, tape⟩ = .ok (x, s) ∧ Q x s.heap := by
  have hrun := h ⟨Heap.empty, tape⟩ Heap.empty Heap.empty rfl (Heap.apart_empty _)
    (Heap.join_empty _).symm
  cases hc : c ⟨Heap.empty, tape⟩ with
  | error e =>
    rw [hc] at hrun
    cases hrun
    exact Or.inl rfl
  | ok r =>
    rw [hc] at hrun
    cases hrun with
    | ok post apart heap =>
      rw [Heap.join_empty] at heap
      exact Or.inr ⟨_, _, rfl, heap ▸ post⟩

/-- A loop over a list, by what holds after the iterations so far. -/
theorem forM {l : List ι} {body : ι → Prog α β γ PUnit} (I : List ι → Assertion α β)
    (step : ∀ done i todo, l = done ++ i :: todo →
      Triple (I done) (body i) fun _ => I (done ++ [i])) :
    Triple (I []) (ForM.forM l body) fun _ => I l := by
  suffices h : ∀ todo done, l = done ++ todo →
      Triple (I done) (ForM.forM todo body) fun _ => I l from h l [] rfl
  intro todo
  induction todo with
  | nil =>
    intro done hl
    rw [List.append_nil] at hl
    exact Triple.pure (hl ▸ le_rfl)
  | cons i todo ih =>
    intro done hl
    rw [List.forM_cons]
    exact (step done i todo hl).bind fun _ => ih _ (by rw [hl, List.append_assoc]; rfl)

section Operations

variable [DecidableEq α] {K : Kind β δ} {p : Option α} {d : δ}

/-- The one object of a points-to assertion in a store. -/
theorem pointsTo_store {b : β} {s : Store α β γ} {h f : Heap α β} (hp : pointsTo p b h)
    (hd : h.Apart f) (hs : s.heap = h.join f) :
    ∃ a, p = some a ∧ s.heap a = some b ∧ f a = none ∧ s.heap = (Heap.single a b).join f := by
  obtain ⟨a, rfl, rfl⟩ := hp
  refine ⟨a, rfl, ?_, Heap.single_apart.mp hd, hs⟩
  rw [hs]
  simp

theorem load_only : Triple (pointsTo p (K.obj d)) (load K p : Prog α β γ δ)
    fun x => Assertion.fact (x = d) * pointsTo p (K.obj d) := by
  intro s h f hp hd hs
  obtain ⟨a, rfl, ha, -⟩ := pointsTo_store hp hd hs
  simp only [load, Option.bind_some, ha, K.view_obj]
  exact .ok (fact_mul.mpr ⟨rfl, hp⟩) hd hs

theorem modify_only (f : δ → δ) : Triple (pointsTo p (K.obj d)) (modify K p f : Prog α β γ Unit)
    fun _ => pointsTo p (K.obj (f d)) := by
  intro s h frame hp hd hs
  obtain ⟨a, rfl, ha, hfree, hs'⟩ := pointsTo_store hp hd hs
  simp only [modify, Option.bind_some, ha, K.view_obj, Option.map_some]
  refine .ok (h := Heap.single a (K.obj (f d))) ⟨a, rfl, rfl⟩ (Heap.single_apart.mpr hfree) ?_
  show Function.update s.heap a _ = _
  rw [hs', Heap.update_join a _ _ frame hfree, Heap.single, Function.update_idem]
  rfl

theorem malloc_only (found : γ → δ) : Triple 1 (malloc K found : Prog α β γ (Option α))
    fun p => Assertion.ex fun g => pointsTo p (K.obj (found g)) := by
  rintro s h frame rfl - hs
  rw [Heap.empty_join] at hs
  unfold malloc
  cases s.tape with
  | nil => exact .noMemory
  | cons x tape =>
    obtain ⟨a, g⟩ := x
    by_cases ha : s.heap a = none
    · simp only [ha, Option.isNone_none, if_true]
      have hfree : frame a = none := hs ▸ ha
      refine .ok (h := Heap.single a (K.obj (found g))) ⟨g, a, rfl, rfl⟩
        (Heap.single_apart.mpr hfree) ?_
      rw [Heap.single, ← Heap.update_join a _ _ frame hfree, Heap.empty_join, hs]
    · rw [← Option.isNone_iff_eq_none] at ha
      simp only [ha]
      exact .noMemory

theorem free_only {b : β} : Triple (pointsTo p b) (free p : Prog α β γ Unit) fun _ => 1 := by
  intro s h frame hp hd hs
  obtain ⟨a, rfl, ha, hfree, hs'⟩ := pointsTo_store hp hd hs
  simp only [free, ha, Option.isSome_some, if_true]
  refine .ok (h := Heap.empty) rfl (Heap.apart_empty _).symm ?_
  show Function.update s.heap a none = _
  rw [hs', Heap.update_join a _ _ frame hfree, Heap.single, Function.update_idem]
  congr 1
  exact Function.update_eq_self a Heap.empty

variable {k : δ → Prog α β γ υ} {k' : Unit → Prog α β γ υ} {Q : υ → Assertion α β}

theorem load (h : Triple (pointsTo p (K.obj d) * R) (k d) Q) :
    Triple (pointsTo p (K.obj d) * R) (Separation.load K p >>= k) Q := by
  refine load_only.call fun x => ?_
  rw [mul_assoc]
  exact Triple.fact fun hx => hx ▸ h

theorem modify {f : δ → δ} (h : Triple (pointsTo p (K.obj (f d)) * R) (k' ()) Q) :
    Triple (pointsTo p (K.obj d) * R) (Separation.modify K p f >>= k') Q :=
  (modify_only f).call fun _ => h

theorem malloc {found : γ → δ} {k : Option α → Prog α β γ υ}
    (h : ∀ p g, Triple (pointsTo p (K.obj (found g)) * R) (k p) Q) :
    Triple R (Separation.malloc K found >>= k) Q := by
  refine (Triple.call (R := R) (malloc_only found) fun p => ?_).pre (one_mul R).ge
  rw [ex_mul]
  exact Triple.ex fun g => h p g

theorem free {b : β} (h : Triple R (k' ()) Q) :
    Triple (pointsTo p b * R) (Separation.free p >>= k') Q :=
  free_only.call fun _ => by rwa [one_mul]

/-- A pointer to an object is not null. -/
theorem not_null {b : β} {c : Prog α β γ υ} (h : p ≠ none → Triple (pointsTo p b * R) c Q) :
    Triple (pointsTo p b * R) c Q := by
  rintro s x f hp hd hs
  obtain ⟨_, _, _, _, ⟨a, rfl, _⟩, _⟩ := id hp
  exact h (Option.some_ne_none a) s x f hp hd hs

end Operations

end Triple

end Separation
