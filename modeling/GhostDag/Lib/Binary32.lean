import Mathlib

/-!
# GhostDag.Lib.Binary32

Rounding to the 24 bits of a binary32 number, to nearest and ties to even, of
non-negative rationals in the normal range.

Natural numbers below `2 ^ 24` are exact (`round_natCast`), and rounding loses
at most one part in `2 ^ 24` (`le_round`).
-/

namespace Binary32

/-- The nearest integer, the even one of two. -/
def roundHalfEven (x : ℚ) : ℤ :=
  if x - ⌊x⌋ < 1 / 2 then ⌊x⌋
  else if 1 / 2 < x - ⌊x⌋ then ⌊x⌋ + 1
  else if ⌊x⌋ % 2 = 0 then ⌊x⌋ else ⌊x⌋ + 1

/-- The weight of the last of 24 bits. -/
def ulp (x : ℚ) : ℚ := 2 ^ (Int.log 2 x - 23)

/-- The rounded number. -/
def round (x : ℚ) : ℚ := roundHalfEven (x / ulp x) * ulp x

theorem roundHalfEven_intCast (z : ℤ) : roundHalfEven z = z := by
  simp [roundHalfEven]

theorem sub_half_le_roundHalfEven (x : ℚ) : x - 1 / 2 ≤ roundHalfEven x := by
  have hlt := Int.lt_floor_add_one x
  have hle := Int.floor_le x
  unfold roundHalfEven
  split
  · linarith
  · split
    · push_cast
      linarith
    · split
      · linarith
      · push_cast
        linarith

theorem ulp_pos (x : ℚ) : 0 < ulp x := zpow_pos (by norm_num) _

theorem ulp_le {x : ℚ} (hx : 0 < x) : ulp x ≤ x / 2 ^ 23 := by
  have hlog := Int.zpow_log_le_self (b := 2) (by norm_num) hx
  rw [ulp, zpow_sub₀ (by norm_num)]
  push_cast at hlog
  gcongr
  norm_num

/-- Rounding down loses at most half of the last bit. -/
theorem le_round {x : ℚ} (hx : 0 < x) : x - x / 2 ^ 24 ≤ round x := by
  have hulp := ulp_pos x
  have hle := ulp_le hx
  have hround := mul_le_mul_of_nonneg_right (sub_half_le_roundHalfEven (x / ulp x)) hulp.le
  rw [sub_mul, div_mul_cancel₀ _ hulp.ne'] at hround
  rw [round]
  linarith

/-- **Small natural numbers are exact.** -/
theorem round_natCast {n : ℕ} (hn : n < 2 ^ 24) : round n = n := by
  obtain rfl | hpos := Nat.eq_zero_or_pos n
  · simp [round, roundHalfEven]
  · have hlog : Nat.log 2 n ≤ 23 := Nat.lt_succ_iff.mp (Nat.log_lt_of_lt_pow hpos.ne' hn)
    have hulp : (n : ℚ) / ulp n = ((n * 2 ^ (23 - Nat.log 2 n) : ℕ) : ℤ) := by
      rw [ulp, Int.log_natCast, div_eq_mul_inv, ← zpow_neg, neg_sub]
      push_cast
      rw [← zpow_natCast, Nat.cast_sub hlog]
      norm_num
    rw [round, hulp, roundHalfEven_intCast, ← hulp, div_mul_cancel₀ _ (ulp_pos _).ne']

end Binary32
