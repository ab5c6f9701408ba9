import Mathlib.Tactic.Ring
import Mathlib.Tactic.Linarith
import IndexedStore.Number

/-!
Rounding quotients to codes. The exponent field of a quotient is the only one at which its
significand fits, so rounding depends on the value of a quotient alone and not on how it is
written, and the value of a finite code rounds to that code.
-/
namespace IndexedStore.BinaryFormat

variable {f : BinaryFormat}

/-! ### Rounding to whole numbers -/

theorem roundHalfEven_mul {num den k : Nat} (hk : 0 < k) :
    roundHalfEven (k * num) (k * den) = roundHalfEven num den := by
  have hless : ∀ a b : Nat, k * a < k * b ↔ a < b := fun a b => Nat.mul_lt_mul_left hk
  have htwice : 2 * (k * (num % den)) = k * (2 * (num % den)) := by ring
  unfold roundHalfEven
  dsimp only
  rw [Nat.mul_div_mul_left _ _ hk, Nat.mul_mod_mul_left, htwice]
  simp only [hless]

theorem roundHalfEven_congr {num den num' den' : Nat} (hden : 0 < den) (hden' : 0 < den')
    (h : num * den' = num' * den) : roundHalfEven num den = roundHalfEven num' den' := by
  calc roundHalfEven num den = roundHalfEven (den' * num) (den' * den) :=
        (roundHalfEven_mul hden').symm
    _ = roundHalfEven (den * num') (den * den') := by
        rw [Nat.mul_comm den' num, h, Nat.mul_comm num' den, Nat.mul_comm den' den]
    _ = roundHalfEven num' den' := roundHalfEven_mul hden

theorem roundHalfEven_exact {n den : Nat} (hden : 0 < den) : roundHalfEven (n * den) den = n := by
  unfold roundHalfEven
  dsimp only
  rw [Nat.mul_div_cancel _ hden, Nat.mul_mod_left, if_pos (by omega)]

/-! ### Exponent fields -/

/-- The field at which a quotient fills the fraction, or the least field for a small quotient. -/
structure Fits (f : BinaryFormat) (num den field : Nat) : Prop where
  one_le : 1 ≤ field
  below : num * 2 ^ f.bias < den * 2 ^ (field + f.fractionBits + 1)
  above : field = 1 ∨ den * 2 ^ (field + f.fractionBits) ≤ num * 2 ^ f.bias

theorem Fits.unique {num den p q : Nat} (hp : Fits f num den p) (hq : Fits f num den q) :
    p = q := by
  have hle : ∀ {p q : Nat}, Fits f num den p → Fits f num den q → q ≤ p := by
    intro p q hp hq
    by_contra hlt
    rcases hq.above with hone | habove
    · have hpos := hp.one_le
      omega
    · have hpow : 2 ^ (p + f.fractionBits + 1) ≤ 2 ^ (q + f.fractionBits) :=
        Nat.pow_le_pow_right (by decide) (by omega)
      have hmul := Nat.mul_le_mul_left den hpow
      have hbelow := hp.below
      omega
  exact Nat.le_antisymm (hle hq hp) (hle hp hq)

theorem Fits.congr {num den num' den' field : Nat} (hden : 0 < den) (hden' : 0 < den')
    (h : num * den' = num' * den) (hfits : Fits f num den field) : Fits f num' den' field := by
  refine ⟨hfits.one_le, ?_, ?_⟩
  · have hmul := Nat.mul_lt_mul_of_pos_right hfits.below hden'
    refine Nat.lt_of_mul_lt_mul_left (a := den) ?_
    calc den * (num' * 2 ^ f.bias) = num' * den * 2 ^ f.bias := by ring
      _ = num * 2 ^ f.bias * den' := by rw [← h]; ring
      _ < den * 2 ^ (field + f.fractionBits + 1) * den' := hmul
      _ = den * (den' * 2 ^ (field + f.fractionBits + 1)) := by ring
  · rcases hfits.above with hone | habove
    · exact Or.inl hone
    · right
      have hmul := Nat.mul_le_mul_right den' habove
      refine Nat.le_of_mul_le_mul_left ?_ hden
      calc den * (den' * 2 ^ (field + f.fractionBits))
          = den * 2 ^ (field + f.fractionBits) * den' := by ring
        _ ≤ num * 2 ^ f.bias * den' := hmul
        _ = den * (num' * 2 ^ f.bias) := by rw [Nat.mul_right_comm, h]; ring

/-- A positive quotient lies between the neighbouring powers of two that the lengths of its
terms give, after a step down where it is below the first. -/
theorem quotient_between {num den up down excess : Nat} (hnum : 0 < num) (hden : 0 < den)
    (hup : num.log2 - den.log2 = up) (hdown : den.log2 - num.log2 = down)
    (hexcess : (if num * 2 ^ down < den * 2 ^ up then 1 else 0) = excess) :
    den * 2 ^ up ≤ num * 2 ^ (down + excess) ∧
      num * 2 ^ (down + excess) < den * 2 ^ (up + 1) := by
  have hnumLow := Nat.log2_self_le (Nat.ne_of_gt hnum)
  have hnumHigh := Nat.lt_log2_self (n := num)
  have hdenLow := Nat.log2_self_le (Nat.ne_of_gt hden)
  have hdenHigh := Nat.lt_log2_self (n := den)
  generalize num.log2 = a at hnumLow hnumHigh hup hdown
  generalize den.log2 = b at hdenLow hdenHigh hup hdown
  by_cases hless : num * 2 ^ down < den * 2 ^ up
  · rw [if_pos hless] at hexcess
    subst hexcess
    constructor
    · calc den * 2 ^ up ≤ 2 ^ (b + 1) * 2 ^ up := Nat.mul_le_mul_right _ (Nat.le_of_lt hdenHigh)
        _ = 2 ^ a * 2 ^ (down + 1) := by
            rw [← pow_add, ← pow_add]
            congr 1
            omega
        _ ≤ num * 2 ^ (down + 1) := Nat.mul_le_mul_right _ hnumLow
    · rw [pow_succ, pow_succ]
      linarith
  · rw [if_neg hless] at hexcess
    subst hexcess
    constructor
    · exact Nat.le_of_not_lt hless
    · calc num * 2 ^ (down + 0) < 2 ^ (a + 1) * 2 ^ down :=
            Nat.mul_lt_mul_of_pos_right hnumHigh (Nat.two_pow_pos down)
        _ = 2 ^ b * 2 ^ (up + 1) := by
            rw [← pow_add, ← pow_add]
            congr 1
            omega
        _ ≤ den * 2 ^ (up + 1) := Nat.mul_le_mul_right _ hdenLow

/-- The field that is computed from the lengths of numerator and denominator fits. -/
theorem fits_quotientField {num den : Nat} (hnum : 0 < num) (hden : 0 < den) :
    Fits f num den (f.quotientField num den) := by
  unfold quotientField
  simp only [Nat.pow_eq]
  generalize hup : num.log2 - den.log2 = up
  generalize hdown : den.log2 - num.log2 = down
  generalize hexcess : (if num * 2 ^ down < den * 2 ^ up then 1 else 0) = excess
  obtain ⟨hlower, hupper⟩ := quotient_between hnum hden hup hdown hexcess
  generalize hfield : max 1 (up + f.bias - f.fractionBits - (down + excess)) = field
  refine ⟨by omega, ?_, ?_⟩
  · refine Nat.lt_of_mul_lt_mul_right (a := 2 ^ (down + excess)) ?_
    calc num * 2 ^ f.bias * 2 ^ (down + excess)
        = num * 2 ^ (down + excess) * 2 ^ f.bias := by ring
      _ < den * 2 ^ (up + 1) * 2 ^ f.bias :=
          Nat.mul_lt_mul_of_pos_right hupper (Nat.two_pow_pos f.bias)
      _ = den * 2 ^ (up + 1 + f.bias) := by rw [Nat.mul_assoc, ← pow_add]
      _ ≤ den * 2 ^ (field + f.fractionBits + 1 + (down + excess)) :=
          Nat.mul_le_mul_left _ (Nat.pow_le_pow_right (by decide) (by omega))
      _ = den * 2 ^ (field + f.fractionBits + 1) * 2 ^ (down + excess) := by
          rw [Nat.mul_assoc, ← pow_add]
  · by_cases hone : field = 1
    · exact Or.inl hone
    · right
      have hexact : field + f.fractionBits + (down + excess) = up + f.bias := by omega
      refine Nat.le_of_mul_le_mul_right ?_ (Nat.two_pow_pos (down + excess))
      calc den * 2 ^ (field + f.fractionBits) * 2 ^ (down + excess)
          = den * 2 ^ (up + f.bias) := by rw [Nat.mul_assoc, ← pow_add, hexact]
        _ = den * 2 ^ up * 2 ^ f.bias := by rw [pow_add, Nat.mul_assoc]
        _ ≤ num * 2 ^ (down + excess) * 2 ^ f.bias := Nat.mul_le_mul_right _ hlower
        _ = num * 2 ^ f.bias * 2 ^ (down + excess) := by ring

/-! ### Nearest codes -/

/-- Rounding depends on the value of a quotient alone. -/
theorem nearest_congr {num den num' den' : Nat} (hden : 0 < den) (hden' : 0 < den')
    (h : num * den' = num' * den) : f.nearest num den = f.nearest num' den' := by
  by_cases hnum : num = 0
  · have hnum' : num' = 0 := by
      rw [hnum, Nat.zero_mul] at h
      rcases Nat.mul_eq_zero.mp h.symm with hzero | hzero
      · exact hzero
      · omega
    unfold nearest
    rw [if_pos hnum, if_pos hnum']
  · have hpos : 0 < num := Nat.pos_of_ne_zero hnum
    have hpos' : 0 < num' := by
      rcases Nat.eq_zero_or_pos num' with hzero | hpos'
      · rw [hzero, Nat.zero_mul] at h
        rcases Nat.mul_eq_zero.mp h with hzero' | hzero'
        · omega
        · omega
      · exact hpos'
    have hfield : f.quotientField num den = f.quotientField num' den' :=
      ((fits_quotientField hpos hden).congr hden hden' h).unique
        (fits_quotientField hpos' hden')
    unfold nearest
    rw [if_neg hnum, if_neg (by omega), hfield]
    dsimp only
    simp only [Nat.pow_eq]
    rw [roundHalfEven_congr (Nat.mul_pos hden (Nat.two_pow_pos _))
      (Nat.mul_pos hden' (Nat.two_pow_pos _))]
    calc _ = num * den' * (2 ^ (f.bias - f.quotientField num' den') *
          2 ^ (f.quotientField num' den' - f.bias)) := by ring
      _ = _ := by rw [h]; ring

/-- A significand is at least the size of the fraction, unless the code is below the normal
ones. -/
theorem significand_spec (f : BinaryFormat) (code : Nat) :
    f.significand code < 2 ^ (f.fractionBits + 1) ∧
      (f.exponentField code = 1 ∨ 2 ^ f.fractionBits ≤ f.significand code) ∧
      f.significand code + (f.exponentField code - 1) * 2 ^ f.fractionBits = code := by
  have hpos := Nat.two_pow_pos f.fractionBits
  have hdouble : 2 ^ (f.fractionBits + 1) = 2 * 2 ^ f.fractionBits := by rw [pow_succ]; ring
  unfold significand exponentField
  simp only [Nat.pow_eq]
  by_cases hsmall : code < 2 ^ f.fractionBits
  · rw [if_pos hsmall, Nat.div_eq_of_lt hsmall]
    refine ⟨by omega, Or.inl rfl, ?_⟩
    simp
  · rw [if_neg hsmall]
    have hmod := Nat.mod_lt code hpos
    have hdiv : 1 ≤ code / 2 ^ f.fractionBits :=
      (Nat.le_div_iff_mul_le hpos).mpr (by omega)
    have hsum := Nat.mod_add_div code (2 ^ f.fractionBits)
    refine ⟨by omega, Or.inr (by omega), ?_⟩
    rw [Nat.max_eq_right hdiv, Nat.sub_mul, Nat.one_mul, Nat.mul_comm]
    have hle := Nat.le_mul_of_pos_right (2 ^ f.fractionBits) hdiv
    omega

theorem ratio_pos (f : BinaryFormat) (code : Nat) : 0 < (f.ratio code).2 := Nat.two_pow_pos _

theorem ratio_eq_zero {code : Nat} (h : (f.ratio code).1 = 0) : code = 0 := by
  obtain ⟨-, hnormal, hsum⟩ := significand_spec f code
  have hzero : f.significand code = 0 := by
    rcases Nat.mul_eq_zero.mp h with hzero | hzero
    · exact hzero
    · exact absurd hzero (Nat.ne_of_gt (Nat.two_pow_pos _))
  rw [hzero] at hnormal hsum
  rcases hnormal with hone | hfull
  · rw [hone] at hsum
    omega
  · have hpos := Nat.two_pow_pos f.fractionBits
    omega

/-- The value of a finite code rounds to the code. -/
theorem nearest_ratio {code : Nat} (hcode : code < f.infinity) :
    f.nearest (f.ratio code).1 (f.ratio code).2 = code := by
  by_cases hzero : (f.ratio code).1 = 0
  · have hcode := ratio_eq_zero hzero
    unfold nearest
    rw [if_pos hzero, hcode]
  obtain ⟨hbelow, hnormal, hsum⟩ := significand_spec f code
  have hfits : Fits f (f.ratio code).1 (f.ratio code).2 (f.exponentField code) := by
    have hone : 1 ≤ f.exponentField code := Nat.le_max_left _ _
    unfold ratio
    simp only [Nat.pow_eq]
    generalize f.exponentField code = field at hnormal hone
    generalize f.significand code = n at hbelow hnormal
    refine ⟨hone, ?_, ?_⟩
    · calc n * 2 ^ (field - f.bias) * 2 ^ f.bias = n * 2 ^ (field - f.bias + f.bias) := by
            rw [Nat.mul_assoc, ← pow_add]
        _ < 2 ^ (f.fractionBits + 1) * 2 ^ (field - f.bias + f.bias) :=
            Nat.mul_lt_mul_of_pos_right hbelow (Nat.two_pow_pos _)
        _ = 2 ^ (f.bias - field) * 2 ^ (field + f.fractionBits + 1) := by
            rw [← pow_add, ← pow_add]
            congr 1
            omega
    · rcases hnormal with hleast | hfull
      · exact Or.inl hleast
      · right
        calc 2 ^ (f.bias - field) * 2 ^ (field + f.fractionBits)
            = 2 ^ f.fractionBits * 2 ^ (field - f.bias + f.bias) := by
              rw [← pow_add, ← pow_add]
              congr 1
              omega
          _ ≤ n * 2 ^ (field - f.bias + f.bias) := Nat.mul_le_mul_right _ hfull
          _ = n * 2 ^ (field - f.bias) * 2 ^ f.bias := by rw [Nat.mul_assoc, ← pow_add]
  have hfield : f.quotientField (f.ratio code).1 (f.ratio code).2 = f.exponentField code :=
    (fits_quotientField (Nat.pos_of_ne_zero hzero) (ratio_pos f code)).unique hfits
  unfold nearest
  rw [if_neg hzero, hfield]
  unfold ratio
  simp only [Nat.pow_eq]
  have hcancel : f.significand code * 2 ^ (f.exponentField code - f.bias) *
      2 ^ (f.bias - f.exponentField code) =
        f.significand code * (2 ^ (f.bias - f.exponentField code) *
          2 ^ (f.exponentField code - f.bias)) := by ring
  rw [hcancel, roundHalfEven_exact (Nat.mul_pos (Nat.two_pow_pos _) (Nat.two_pow_pos _)), hsum]
  exact Nat.min_eq_right (Nat.le_of_lt hcode)

end IndexedStore.BinaryFormat
