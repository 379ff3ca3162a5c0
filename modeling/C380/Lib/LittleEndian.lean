import Mathlib.Algebra.Ring.Nat
import Mathlib.Data.List.Basic

/-!
# Little-endian numbers as bytes

`encode k n` are the low `k` bytes of `n`, least first, and `decode` is the number that bytes stand
for.

* `decode_encode`, `encode_decode`: each undoes the other, up to the bytes that do not fit.
* `decode_lt`: `k` bytes stand for a number below `256 ^ k`.
* `take_encode`: the first `j` bytes of the `k` are `encode j n`.
-/

namespace LittleEndian

/-- The low `k` bytes of `n`. -/
def encode : ℕ → ℕ → List UInt8
  | 0, _ => []
  | k + 1, n => UInt8.ofNat (n % 256) :: encode k (n / 256)

/-- The number that the bytes stand for. -/
def decode : List UInt8 → ℕ
  | [] => 0
  | b :: bs => b.toNat + 256 * decode bs

@[simp] theorem length_encode : ∀ k n : ℕ, (encode k n).length = k
  | 0, _ => rfl
  | k + 1, n => by rw [encode, List.length_cons, length_encode k]

theorem decode_lt : ∀ bs : List UInt8, decode bs < 256 ^ bs.length
  | [] => by simp [decode]
  | b :: bs => by
    have := decode_lt bs
    have hb := b.toNat_lt
    rw [decode, List.length_cons, Nat.pow_succ]
    omega

/-- **Decoding what was encoded** gives the number, as far as it fits. -/
theorem decode_encode : ∀ k n : ℕ, decode (encode k n) = n % 256 ^ k
  | 0, n => by simp [encode, decode, Nat.mod_one]
  | k + 1, n => by
    have hb : (UInt8.ofNat (n % 256)).toNat = n % 256 := by
      rw [UInt8.toNat_ofNat']
      omega
    rw [encode, decode, decode_encode k, hb, Nat.pow_succ, Nat.mul_comm (256 ^ k) 256,
      Nat.mod_mul]

theorem decode_encode_of_lt {k n : ℕ} (h : n < 256 ^ k) : decode (encode k n) = n := by
  rw [decode_encode, Nat.mod_eq_of_lt h]

/-- The first bytes of a wider encoding are the narrow one. -/
theorem take_encode : ∀ j k n : ℕ, j ≤ k → (encode k n).take j = encode j n
  | 0, _, _, _ => by simp [encode]
  | j + 1, 0, _, h => by omega
  | j + 1, k + 1, n, h => by
    rw [encode, encode, List.take_succ_cons, take_encode j k _ (by omega)]

/-- **Encoding what was decoded** gives the bytes. -/
theorem encode_decode : ∀ bs : List UInt8, encode bs.length (decode bs) = bs
  | [] => rfl
  | b :: bs => by
    have hb := b.toNat_lt
    have hmod : (b.toNat + 256 * decode bs) % 256 = b.toNat := by omega
    have hdiv : (b.toNat + 256 * decode bs) / 256 = decode bs := by omega
    rw [List.length_cons, decode, encode, hmod, hdiv, encode_decode bs, UInt8.ofNat_toNat]

/-- Bytes of one length are told apart by the number they stand for. -/
theorem decode_injective {bs cs : List UInt8} (hlen : bs.length = cs.length)
    (h : decode bs = decode cs) : bs = cs := by
  rw [← encode_decode bs, ← encode_decode cs, hlen, h]

end LittleEndian
