import Mathlib

/-!
# GhostDag.Lib.BinaryFormat

Binary floating-point formats, as words: from the top a sign, a biased
exponent and a fraction.

A finite number is an integral multiple of the smallest one, its `magnitude`,
so numbers of two formats are compared without rounding.  Going to a wider
format and back changes nothing (`convert_narrow`), and every number a format
has is read back from its value (`toRat_ofRat`).
-/

/-- The widths of the exponent and of the fraction. -/
structure BinaryFormat where
  exponentBits : ℕ
  fractionBits : ℕ
  deriving DecidableEq

namespace BinaryFormat

/-- binary16. -/
def half : BinaryFormat := ⟨5, 10⟩

/-- binary32. -/
def single : BinaryFormat := ⟨8, 23⟩

/-- binary64. -/
def double : BinaryFormat := ⟨11, 52⟩

variable (F G : BinaryFormat)

/-- The weight of the sign. -/
def signBit : ℕ := 2 ^ (F.exponentBits + F.fractionBits)

/-- Infinity, the first word that is not finite. -/
def inf : ℕ := (2 ^ F.exponentBits - 1) * 2 ^ F.fractionBits

/-- The quiet NaN. -/
def nan : ℕ := F.inf + 2 ^ (F.fractionBits - 1)

/-- The smallest number is `2 ^ -unit`. -/
def unit : ℕ := 2 ^ (F.exponentBits - 1) + F.fractionBits - 2

/-- A word without its sign. -/
def unsigned (w : ℕ) : ℕ := w % F.signBit

/-- The word `u` with the sign of `w`. -/
def withSignOf (w u : ℕ) : ℕ := w / F.signBit * G.signBit + u

/-- How many times the smallest number fits into the number of an unsigned
word. -/
def magnitude (u : ℕ) : ℕ :=
  if u < 2 ^ F.fractionBits then u
  else (2 ^ F.fractionBits + u % 2 ^ F.fractionBits) * 2 ^ (u / 2 ^ F.fractionBits - 1)

/-- The unsigned word of a magnitude that the format has. -/
def word (m : ℕ) : ℕ :=
  if m < 2 ^ F.fractionBits then m
  else (m.log2 - F.fractionBits + 1) * 2 ^ F.fractionBits
    + (m / 2 ^ (m.log2 - F.fractionBits) - 2 ^ F.fractionBits)

/-- A word as a word of a wider format.  A NaN becomes the quiet one, whatever
its payload and its sign were. -/
def convert (w : ℕ) : ℕ :=
  if F.inf < F.unsigned w then G.nan
  else if F.unsigned w = F.inf then F.withSignOf G w G.inf
  else F.withSignOf G w (G.word (F.magnitude (F.unsigned w) * 2 ^ (G.unit - F.unit)))

/-- The word of a narrower format `G` for the same finite number, if `G` has
it. -/
def narrow (w : ℕ) : Option ℕ :=
  let u := G.word (F.magnitude (F.unsigned w) / 2 ^ (F.unit - G.unit))
  if u < G.inf ∧ G.magnitude u * 2 ^ (F.unit - G.unit) = F.magnitude (F.unsigned w) then
    some (F.withSignOf G w u)
  else none

/-- The number of a finite word. -/
def toRat (w : ℕ) : ℚ :=
  (if w < F.signBit then 1 else -1) * F.magnitude (F.unsigned w) / 2 ^ F.unit

/-- The word of a number that the format has. -/
def ofRat (q : ℚ) : ℕ :=
  (if q < 0 then F.signBit else 0) + F.word ⌊|q| * 2 ^ F.unit⌋₊

/-- The format has the number. -/
def Represents (q : ℚ) : Prop := ∃ w < 2 * F.signBit, F.unsigned w < F.inf ∧ F.toRat w = q

variable {F G}

theorem signBit_pos : 0 < F.signBit := Nat.two_pow_pos _

theorem inf_lt_signBit : F.inf < F.signBit := by
  rw [inf, signBit, pow_add]
  exact Nat.mul_lt_mul_of_pos_right (Nat.sub_lt (Nat.two_pow_pos _) Nat.one_pos)
    (Nat.two_pow_pos _)

/-- **A word is determined by its magnitude.** -/
theorem word_magnitude (u : ℕ) : F.word (F.magnitude u) = u := by
  have hpos := Nat.two_pow_pos F.fractionBits
  unfold magnitude
  split
  · next hlt => rw [word, if_pos hlt]
  · next hle =>
      generalize hf : F.fractionBits = f at *
      have hdiv : 0 < u / 2 ^ f := Nat.div_pos (Nat.le_of_not_lt hle) hpos
      have hmod : u % 2 ^ f < 2 ^ f := Nat.mod_lt _ hpos
      obtain ⟨k, hk⟩ : ∃ k, u / 2 ^ f = k + 1 := ⟨u / 2 ^ f - 1, by omega⟩
      have hlog : Nat.log 2 ((2 ^ f + u % 2 ^ f) * 2 ^ k) = f + k := by
        refine Nat.log_eq_of_pow_le_of_lt_pow ?_ ?_
        · rw [pow_add]
          exact Nat.mul_le_mul_right _ (Nat.le_add_right _ _)
        · rw [Nat.add_right_comm, pow_add, pow_succ]
          exact Nat.mul_lt_mul_of_pos_right (by omega) (Nat.two_pow_pos _)
      have hge : ¬ (2 ^ f + u % 2 ^ f) * 2 ^ k < 2 ^ f := by
        have := Nat.le_mul_of_pos_right (2 ^ f + u % 2 ^ f) (Nat.two_pow_pos k)
        omega
      rw [hk, Nat.add_sub_cancel, word, hf, if_neg hge, Nat.log2_eq_log_two, hlog, Nat.add_sub_cancel_left,
        Nat.mul_div_cancel _ (Nat.two_pow_pos _), Nat.add_sub_cancel_left, ← hk]
      exact Nat.div_add_mod' u (2 ^ f)

theorem unsigned_lt (w : ℕ) : F.unsigned w < F.signBit := Nat.mod_lt _ signBit_pos

theorem unsigned_of_lt {u : ℕ} (hu : u < F.signBit) : F.unsigned u = u := Nat.mod_eq_of_lt hu

theorem unsigned_negative {u : ℕ} (hu : u < F.signBit) : F.unsigned (F.signBit + u) = u := by
  rw [unsigned, Nat.add_mod_left, Nat.mod_eq_of_lt hu]

/-- A word that has been put together. -/
theorem unsigned_withSignOf {w u : ℕ} (hu : u < G.signBit) : G.unsigned (F.withSignOf G w u) = u := by
  rw [unsigned, withSignOf, Nat.mul_add_mod_self_right, Nat.mod_eq_of_lt hu]

theorem sign_withSignOf {w u : ℕ} (hu : u < G.signBit) :
    F.withSignOf G w u / G.signBit = w / F.signBit := by
  rw [withSignOf, Nat.mul_comm, Nat.mul_add_div signBit_pos, Nat.div_eq_of_lt hu, Nat.add_zero]

theorem withSignOf_unsigned (w : ℕ) : F.withSignOf F w (F.unsigned w) = w :=
  Nat.div_add_mod' w F.signBit

/-- **Going to the narrower format and back changes nothing.** -/
theorem convert_narrow {w v : ℕ} (h : F.narrow G w = some v) : G.convert F v = w := by
  simp only [narrow] at h
  split at h
  · next hu =>
      cases h
      have hlt := hu.1.trans inf_lt_signBit
      rw [convert, unsigned_withSignOf hlt, if_neg hu.1.not_gt, if_neg hu.1.ne, hu.2,
        word_magnitude, withSignOf, sign_withSignOf hlt]
      exact withSignOf_unsigned w
  · cases h

theorem withSignOf_lt {w u : ℕ} (hw : w < 2 * F.signBit) (hu : u < G.signBit) :
    F.withSignOf G w u < 2 * G.signBit := by
  have hsign : w / F.signBit ≤ 1 := Nat.lt_succ_iff.mp (Nat.div_lt_of_lt_mul (by omega))
  have := Nat.mul_le_mul_right G.signBit hsign
  rw [withSignOf]
  omega

theorem lt_of_narrow {w v : ℕ} (h : F.narrow G w = some v) (hw : w < 2 * F.signBit) :
    v < 2 * G.signBit := by
  simp only [narrow] at h
  split at h
  · next hu =>
      cases h
      exact withSignOf_lt hw (hu.1.trans inf_lt_signBit)
  · cases h

/-- A number stays as it is in its own format. -/
theorem convert_self {w : ℕ} (h : F.unsigned w ≤ F.inf) : F.convert F w = w := by
  rw [convert, if_neg h.not_gt]
  split
  · next hinf => rw [← hinf, withSignOf_unsigned]
  · rw [Nat.sub_self, Nat.pow_zero, Nat.mul_one, word_magnitude, withSignOf_unsigned]

/-! ## wider formats -/

theorem magnitude_lt {u : ℕ} (he : 2 ≤ F.exponentBits) (hu : u < F.inf) :
    F.magnitude u < 2 ^ (F.fractionBits + 2 ^ F.exponentBits - 2) := by
  have hpos := Nat.two_pow_pos F.fractionBits
  have htwo : 2 ^ 2 ≤ 2 ^ F.exponentBits := Nat.pow_le_pow_right (by decide) he
  have hdiv : u / 2 ^ F.fractionBits < 2 ^ F.exponentBits - 1 := Nat.div_lt_of_lt_mul (by
    rwa [Nat.mul_comm])
  unfold magnitude
  split
  · next hlt => exact hlt.trans_le (Nat.pow_le_pow_right (by decide) (by omega))
  · have hmod : u % 2 ^ F.fractionBits < 2 ^ F.fractionBits := Nat.mod_lt _ hpos
    have hsum : 2 ^ F.fractionBits + u % 2 ^ F.fractionBits < 2 ^ (F.fractionBits + 1) := by
      rw [pow_succ]
      omega
    refine (Nat.mul_lt_mul_of_pos_right hsum (Nat.two_pow_pos _)).trans_le ?_
    rw [← pow_add]
    exact Nat.pow_le_pow_right (by decide) (by omega)

theorem word_lt_inf {m : ℕ} (he : 2 ≤ F.exponentBits)
    (hm : m < 2 ^ (F.fractionBits + 2 ^ F.exponentBits - 2)) : F.word m < F.inf := by
  have hpos := Nat.two_pow_pos F.fractionBits
  have htwo : 2 ^ 2 ≤ 2 ^ F.exponentBits := Nat.pow_le_pow_right (by decide) he
  unfold word inf
  rw [Nat.log2_eq_log_two]
  split
  · next hlt => exact hlt.trans_le (Nat.le_mul_of_pos_left _ (by omega))
  · next hle =>
      have hne : m ≠ 0 := by omega
      have hlog : Nat.log 2 m < F.fractionBits + 2 ^ F.exponentBits - 2 :=
        Nat.log_lt_of_lt_pow hne hm
      have hge : F.fractionBits ≤ Nat.log 2 m :=
        Nat.le_log_of_pow_le (by decide) (Nat.le_of_not_lt hle)
      have hquot : m / 2 ^ (Nat.log 2 m - F.fractionBits) < 2 ^ (F.fractionBits + 1) := by
        refine Nat.div_lt_of_lt_mul ?_
        rw [← pow_add]
        have hsum : Nat.log 2 m - F.fractionBits + (F.fractionBits + 1) = Nat.log 2 m + 1 := by
          omega
        rw [hsum]
        exact Nat.lt_pow_succ_log_self (by decide) m
      have hmul : (Nat.log 2 m - F.fractionBits + 2) * 2 ^ F.fractionBits ≤
          (2 ^ F.exponentBits - 1) * 2 ^ F.fractionBits := Nat.mul_le_mul_right _ (by omega)
      rw [pow_succ] at hquot
      rw [Nat.add_mul] at hmul ⊢
      omega

/-- **In a wide enough format a number stays as it is**: it is a number there,
and converting it again changes nothing. -/
theorem convert_convert {w : ℕ} (hw : w < 2 * F.signBit) (hF : 2 ≤ F.exponentBits)
    (hG : 2 ≤ G.exponentBits) (hfraction : 0 < G.fractionBits)
    (hwide : F.fractionBits + 2 ^ F.exponentBits - 2 + (G.unit - F.unit) ≤
      G.fractionBits + 2 ^ G.exponentBits - 2) :
    F.convert G w < 2 * G.signBit ∧ G.convert G (F.convert G w) = F.convert G w := by
  have hinf := inf_lt_signBit (F := G)
  have hself : ∀ u ≤ G.inf, F.withSignOf G w u < 2 * G.signBit ∧
      G.convert G (F.withSignOf G w u) = F.withSignOf G w u := by
    intro u hu
    have hlt := hu.trans_lt hinf
    exact ⟨withSignOf_lt hw hlt, convert_self (by rwa [unsigned_withSignOf hlt])⟩
  rw [convert]
  split
  · have hnan : G.inf < G.nan ∧ G.nan < G.signBit := by
      have hpow : 2 ^ G.fractionBits = 2 ^ (G.fractionBits - 1) * 2 := by
        rw [← pow_succ, Nat.sub_add_cancel hfraction]
      have hpos := Nat.two_pow_pos (G.fractionBits - 1)
      have hone := Nat.two_pow_pos G.exponentBits
      have hsum : G.inf + 2 ^ G.fractionBits = G.signBit := by
        rw [inf, signBit, pow_add, ← Nat.succ_mul]
        congr 1
        omega
      rw [nan]
      omega
    refine ⟨by omega, ?_⟩
    rw [convert, unsigned_of_lt hnan.2, if_pos hnan.1]
  · next hnan =>
      split
      · exact hself G.inf (Nat.le_refl _)
      · next hne =>
          refine hself _ (word_lt_inf hG ?_).le
          have hmag := magnitude_lt hF (show F.unsigned w < F.inf by omega)
          refine (Nat.mul_lt_mul_of_pos_right hmag (Nat.two_pow_pos _)).trans_le ?_
          rw [← pow_add]
          exact Nat.pow_le_pow_right (by decide) hwide

/-! ## values -/

/-- **A number that the format has is read back from its word.** -/
theorem toRat_ofRat {q : ℚ} (h : F.Represents q) :
    F.ofRat q < 2 * F.signBit ∧ F.unsigned (F.ofRat q) < F.inf ∧ F.toRat (F.ofRat q) = q := by
  obtain ⟨w, -, hfin, rfl⟩ := h
  have hpow : (0 : ℚ) < 2 ^ F.unit := by positivity
  have habs : |F.toRat w| * 2 ^ F.unit = (F.magnitude (F.unsigned w) : ℚ) := by
    rw [toRat, abs_div, abs_mul, Nat.abs_cast, abs_of_pos hpow, div_mul_cancel₀ _ hpow.ne']
    split <;> simp
  have hword : F.word ⌊|F.toRat w| * 2 ^ F.unit⌋₊ = F.unsigned w := by
    rw [habs, Nat.floor_natCast, word_magnitude]
  have hlt := unsigned_lt (F := F) w
  rw [ofRat, hword]
  split
  · next hneg =>
      have hw : ¬ w < F.signBit := by
        intro hpos
        refine absurd hneg (not_lt.mpr ?_)
        rw [toRat, if_pos hpos]
        positivity
      rw [unsigned_negative hlt]
      refine ⟨by omega, hfin, ?_⟩
      rw [toRat, toRat, unsigned_negative hlt, if_neg (by omega), if_neg hw]
  · next hnonneg =>
      rw [Nat.zero_add, unsigned_of_lt hlt]
      refine ⟨by omega, hfin, ?_⟩
      rw [toRat, unsigned_of_lt hlt, if_pos hlt, one_mul, ← habs,
        mul_div_cancel_right₀ _ hpow.ne']
      exact abs_of_nonneg (not_lt.mp hnonneg)

end BinaryFormat
