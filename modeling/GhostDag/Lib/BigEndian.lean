import Mathlib

/-!
# GhostDag.Lib.BigEndian

Numbers as a fixed number of bytes, the most significant byte first.
-/

namespace BigEndian

/-- The last `width` bytes of a number. -/
def encode : ℕ → ℕ → List UInt8
  | 0, _ => []
  | width + 1, n => encode width (n / 2 ^ 8) ++ [UInt8.ofNat n]

/-- The number that bytes make up. -/
def decode (bs : List UInt8) : ℕ := bs.foldl (fun n b => n * 2 ^ 8 + b.toNat) 0

@[simp] theorem length_encode (width n : ℕ) : (encode width n).length = width := by
  induction width generalizing n with
  | zero => rfl
  | succ width ih => rw [encode, List.length_append, ih, List.length_singleton]

theorem decode_concat (bs : List UInt8) (b : UInt8) :
    decode (bs ++ [b]) = decode bs * 2 ^ 8 + b.toNat := by
  rw [decode, List.foldl_append]
  rfl

/-- **Reading undoes writing**, of numbers that fit. -/
theorem decode_encode {width n : ℕ} (h : n < 2 ^ (8 * width)) : decode (encode width n) = n := by
  induction width generalizing n with
  | zero =>
      rw [Nat.mul_zero, Nat.pow_zero, Nat.lt_one_iff] at h
      exact h.symm
  | succ width ih =>
      have hpow : 2 ^ (8 * (width + 1)) = 2 ^ (8 * width) * 2 ^ 8 := by rw [Nat.mul_succ, pow_add]
      rw [encode, decode_concat, ih (by omega), UInt8.toNat_ofNat']
      omega

theorem decode_lt (bs : List UInt8) : decode bs < 2 ^ (8 * bs.length) := by
  induction bs using List.reverseRecOn with
  | nil => exact Nat.one_pos
  | append_singleton bs b ih =>
      have hb := b.toNat_lt
      have hpow : 2 ^ (8 * (bs.length + 1)) = 2 ^ (8 * bs.length) * 2 ^ 8 := by
        rw [Nat.mul_succ, pow_add]
      rw [decode_concat, List.length_append, List.length_singleton, hpow]
      omega

end BigEndian
