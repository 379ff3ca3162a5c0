import Mathlib.Data.BitVec
import Mathlib.Data.Nat.Log

/-!
# Shared definitions of the window-set program (`Assignment03/valws379_base.h`, `.c`)

`ull` is `unsigned long long`, 64 bits wide: `Ull` is `BitVec 64`, so every `+`, `-` and `*` wraps
as in C. The macros `TABLE_SIZE`, `HASH_MASK`, `SPLIT_SIZE` and `MERGE_SIZE` and the structs
`mem_ref` and `key_value` keep their names.

* `getPowerOfTwo` (`valws379_base.c:22-32`) starts from the wrapped exponent `-1` and shifts the
  value right until it is zero. A 64-bit value is zero after at most 64 shifts, which is the
  iteration bound of the loop; `getPowerOfTwo_toNat` shows that the result is `⌊log₂ value⌋` for
  every positive value.
-/

namespace C380.Valws

/-- `typedef unsigned long long ull`. -/
abbrev Ull := BitVec 64

/-- `TABLE_SIZE`. -/
abbrev tableSize : Nat := 16

/-- `HASH_MASK`, `TABLE_SIZE - 1`. -/
abbrev hashMask : Ull := 15

/-- `SPLIT_SIZE`. -/
abbrev splitSize : Ull := 15

/-- `MERGE_SIZE`. -/
abbrev mergeSize : Ull := 6

/-- `struct mem_ref`: a processed memory reference, a first page and a number of pages. -/
structure MemRef where
  address : Ull
  pageCount : Ull
  deriving DecidableEq, Repr

/-- `new_mem_ref`. -/
def newMemRef : MemRef := ⟨0, 0⟩

/-- `struct key_value`. -/
structure KeyValue where
  key : Ull
  value : Ull
  deriving DecidableEq, Repr

/-- The `while` loop of `get_power_of_two`, at most `n` iterations. -/
def getPowerOfTwoLoop : Nat → Ull → Ull → Ull
  | 0, exponent, _ => exponent
  | n + 1, exponent, newValue =>
    if newValue ≠ 0 then getPowerOfTwoLoop n (exponent + 1) (newValue >>> 1) else exponent

/-- `get_power_of_two`. The loop ends within 64 iterations (`getPowerOfTwoLoop_fuel`). -/
def getPowerOfTwo (value : Ull) : Ull := getPowerOfTwoLoop 64 (-1) value

theorem toNat_shiftRight_one (v : Ull) : (v >>> 1).toNat = v.toNat / 2 := by
  rw [BitVec.toNat_ushiftRight, Nat.shiftRight_eq_div_pow]

/-- More iterations than the value has bits change nothing: the loop has ended. -/
theorem getPowerOfTwoLoop_fuel : ∀ {n m : Nat} {x v : Ull}, v.toNat < 2 ^ n → n ≤ m →
    getPowerOfTwoLoop m x v = getPowerOfTwoLoop n x v
  | 0, m, x, v, hv, _ => by
    have h0 : v = 0 := by
      apply BitVec.eq_of_toNat_eq
      simpa using hv
    cases m <;> simp [getPowerOfTwoLoop, h0]
  | n + 1, m + 1, x, v, hv, hm => by
    have hhalf : (v >>> 1).toNat < 2 ^ n := by
      rw [toNat_shiftRight_one]
      rw [Nat.pow_succ] at hv
      omega
    simp only [getPowerOfTwoLoop]
    rw [getPowerOfTwoLoop_fuel hhalf (Nat.le_of_succ_le_succ hm)]

/-- The loop adds one for every bit of a positive value. -/
theorem getPowerOfTwoLoop_eq : ∀ {n : Nat} {x v : Ull}, 0 < v.toNat → v.toNat < 2 ^ n →
    getPowerOfTwoLoop n x v = x + BitVec.ofNat 64 (Nat.log 2 v.toNat + 1)
  | 0, x, v, h0, hv => by simp at hv; omega
  | n + 1, x, v, h0, hv => by
    have hne : v ≠ 0 := by rintro rfl; simp at h0
    have hs := toNat_shiftRight_one v
    unfold getPowerOfTwoLoop
    rw [if_pos hne]
    by_cases h1 : v.toNat = 1
    · have hz : v >>> 1 = 0 := by
        apply BitVec.eq_of_toNat_eq
        rw [hs, h1]
        rfl
      rw [hz, h1]
      cases n <;> simp [getPowerOfTwoLoop]
    · have h2 : 2 ≤ v.toNat := by omega
      rw [getPowerOfTwoLoop_eq (by omega) (by rw [hs]; rw [Nat.pow_succ] at hv; omega), hs,
        Nat.log_of_one_lt_of_le (by omega) h2]
      rw [BitVec.add_assoc]
      congr 1
      apply BitVec.eq_of_toNat_eq
      simp only [BitVec.ofNat_eq_ofNat, BitVec.toNat_add, BitVec.toNat_ofNat]
      omega

/-- **`get_power_of_two` is the integer logarithm** of every positive value. -/
theorem getPowerOfTwo_toNat {v : Ull} (h : 0 < v.toNat) :
    (getPowerOfTwo v).toNat = Nat.log 2 v.toNat := by
  have hlog : Nat.log 2 v.toNat < 64 := Nat.log_lt_of_lt_pow (by omega) v.isLt
  unfold getPowerOfTwo
  rw [getPowerOfTwoLoop_eq h v.isLt]
  simp only [BitVec.ofNat_eq_ofNat, BitVec.toNat_add, BitVec.toNat_neg, BitVec.toNat_ofNat]
  omega

end C380.Valws
