import Mathlib.Tactic.Ring
import IndexedStore.Decimal.Shortest
import IndexedStore.Proofs.Rounding

/-!
The shortest decimal of a magnitude reads back as that magnitude: the neighbours on a grid are
tried for it, the decimal written out in full has the value itself, and leaving out trailing zeros
keeps the value.
-/
namespace IndexedStore.Decimal

/-! ### Digits -/

theorem toDigits_mul_ten {n : Nat} (hn : 0 < n) :
    Nat.toDigits 10 (n * 10) = Nat.toDigits 10 n ++ ['0'] := by
  have happend := Nat.toDigits_append_toDigits (b := 10) (by decide) hn (show 0 < 10 by decide)
  rw [Nat.toDigits_zero] at happend
  rw [happend, Nat.add_zero, Nat.mul_comm]

theorem toDigits_mul_pow {n : Nat} (hn : 0 < n) (k : Nat) :
    Nat.toDigits 10 (n * 10 ^ k) = Nat.toDigits 10 n ++ List.replicate k '0' := by
  induction k with
  | zero => simp
  | succ k ih =>
    have hpos : 0 < n * 10 ^ k := Nat.mul_pos hn (Nat.pow_pos (by decide))
    rw [Nat.pow_succ, ← Nat.mul_assoc, toDigits_mul_ten hpos, ih, List.append_assoc,
      ← List.replicate_succ']

theorem digitCount_mul_pow {n : Nat} (hn : 0 < n) (k : Nat) :
    digitCount (n * 10 ^ k) = digitCount n + k := by
  unfold digitCount
  rw [toDigits_mul_pow hn, List.length_append, List.length_replicate]

theorem digitCount_pos (n : Nat) : 0 < digitCount n := Nat.length_toDigits_pos

theorem lt_pow_digitCount (n : Nat) : n < 10 ^ digitCount n :=
  (Nat.length_toDigits_le_iff (by decide) (digitCount_pos n)).mp (le_refl _)

theorem pow_le_of_lt_digitCount {n k : Nat} (hk : 0 < k) (h : k < digitCount n) : 10 ^ k ≤ n := by
  by_contra hlt
  have hle := (Nat.length_toDigits_le_iff (b := 10) (by decide) hk).mpr (Nat.lt_of_not_le hlt)
  unfold digitCount at h
  omega

/-! ### Nearest magnitudes -/

theorem ratio_pos (d : Decimal) : 0 < d.ratio.2 := Nat.pow_pos (by decide)

/-- Zeros behind the digits that the exponent makes up for change nothing. -/
theorem nearest_shift (n k : Nat) (e : Int) :
    nearest ⟨n * 10 ^ k, e - k⟩ = nearest ⟨n, e⟩ := by
  rcases Nat.eq_zero_or_pos n with hzero | hn
  · subst hzero
    unfold nearest
    rw [Nat.zero_mul, if_pos (Or.inl rfl), if_pos (Or.inl rfl)]
  · have hpoint : (digitCount (n * 10 ^ k) : Int) + (e - k) = digitCount n + e := by
      rw [digitCount_mul_pow hn]
      push_cast
      ring
    have hne : n ≠ 0 := Nat.ne_of_gt hn
    have hne' : n * 10 ^ k ≠ 0 := Nat.ne_of_gt (Nat.mul_pos hn (Nat.pow_pos (by decide)))
    have hratio : BinaryFormat.binary64.nearest (ratio ⟨n * 10 ^ k, e - k⟩).1
        (ratio ⟨n * 10 ^ k, e - k⟩).2 =
          BinaryFormat.binary64.nearest (ratio ⟨n, e⟩).1 (ratio ⟨n, e⟩).2 := by
      refine BinaryFormat.nearest_congr (ratio_pos _) (ratio_pos _) ?_
      unfold ratio
      simp only [Nat.pow_eq]
      rw [Nat.mul_assoc, Nat.mul_assoc, Nat.mul_assoc, ← pow_add, ← pow_add, ← pow_add]
      congr 2
      omega
    unfold nearest
    simp only [hpoint, hratio, hne, hne', false_or]

theorem nearest_trimmed (d : Decimal) : d.trimmed.nearest = d.nearest := by
  fun_induction trimmed d with
  | case1 d h ih =>
    have hdigits : d.digits / 10 * 10 ^ 1 = d.digits := by omega
    have hshift := nearest_shift (d.digits / 10) 1 (d.exponent + 1)
    rw [hdigits] at hshift
    rw [ih, ← hshift]
    congr 2
    push_cast
    ring
  | case2 d h => rfl

/-- A grid gives only decimals that read back. -/
theorem nearest_of_onGrid? {tie : Tie} {code num den : Nat} {e : Int} {d : Decimal}
    (h : onGrid? tie code num den e = some d) : d.nearest = code := by
  unfold onGrid? at h
  dsimp only at h
  split_ifs at h with hupper hlower
  · obtain rfl := Option.some.inj h
    unfold takesUpper at hupper
    rw [Bool.and_eq_true] at hupper
    exact beq_iff_eq.mp hupper.1
  · obtain rfl := Option.some.inj h
    exact beq_iff_eq.mp hlower

/-! ### Written out in full -/

/-- How large and how small the value of a finite code can be. -/
theorem ratio_bounds {code num den : Nat} (hcode : code < BinaryFormat.binary64.infinity)
    (h : BinaryFormat.binary64.ratio code = (num, den)) :
    (∃ k, k ≤ 1075 ∧ den = 2 ^ k) ∧ num < 2 ^ 1024 * den := by
  have hfield : BinaryFormat.binary64.exponentField code ≤ 2046 := by
    have hlt : code < 2047 * 4503599627370496 := hcode
    have hdiv : code / 4503599627370496 < 2047 := Nat.div_lt_of_lt_mul (by omega)
    have hmax : BinaryFormat.binary64.exponentField code = max 1 (code / 4503599627370496) := rfl
    omega
  obtain ⟨hbelow, -, -⟩ := BinaryFormat.significand_spec .binary64 code
  change BinaryFormat.binary64.significand code < 2 ^ 53 at hbelow
  unfold BinaryFormat.ratio at h
  simp only [Nat.pow_eq] at h
  rw [show BinaryFormat.binary64.bias = 1075 from rfl] at h
  generalize BinaryFormat.binary64.exponentField code = field at hfield h
  generalize BinaryFormat.binary64.significand code = n at hbelow h
  obtain ⟨rfl, rfl⟩ := Prod.mk.inj h
  refine ⟨⟨1075 - field, by omega, rfl⟩, ?_⟩
  calc n * 2 ^ (field - 1075) < 2 ^ 53 * 2 ^ (field - 1075) :=
        Nat.mul_lt_mul_of_pos_right hbelow (Nat.two_pow_pos _)
    _ = 2 ^ (53 + (field - 1075)) := by rw [← pow_add]
    _ ≤ 2 ^ (1024 + (1075 - field)) := Nat.pow_le_pow_right (by decide) (by omega)
    _ = 2 ^ 1024 * 2 ^ (1075 - field) := pow_add 2 1024 _

/-- The decimal written out in full has its point between the bounds. -/
theorem exact_point {num k : Nat} (hnum : 0 < num) (hk : k ≤ 1075)
    (hlarge : num < 2 ^ 1024 * 2 ^ k) :
    ¬ ((digitCount (num * 5 ^ k) : Int) + -(k : Int) < leastPoint) ∧
      ¬ (largestPoint < (digitCount (num * 5 ^ k) : Int) + -(k : Int)) := by
  have hten : (10 : Nat) ^ k = 2 ^ k * 5 ^ k := by rw [← Nat.mul_pow]
  have hfive : 0 < (5 : Nat) ^ k := Nat.pow_pos (by decide)
  unfold leastPoint largestPoint
  constructor
  · intro hleast
    have hdigits := lt_pow_digitCount (num * 5 ^ k)
    have hpow : 10 ^ (digitCount (num * 5 ^ k) + 330) ≤ 10 ^ k :=
      Nat.pow_le_pow_right (by decide) (by omega)
    have htwo : 2 ^ k ≤ 10 ^ 330 :=
      calc 2 ^ k ≤ 2 ^ (43 * 25) := pow_le_pow_right₀ (by decide) (by omega)
        _ = (2 ^ 43) ^ 25 := pow_mul 2 43 25
        _ ≤ (10 ^ 13) ^ 25 := Nat.pow_le_pow_left (by decide) 25
        _ = 10 ^ (13 * 25) := (pow_mul 10 13 25).symm
        _ ≤ 10 ^ 330 := pow_le_pow_right₀ (by decide) (by decide)
    have hone : 5 ^ k ≤ num * 5 ^ k := Nat.le_mul_of_pos_left _ hnum
    have hcontra : (5 : Nat) ^ k * 10 ^ 330 < 5 ^ k * 10 ^ 330 :=
      calc (5 : Nat) ^ k * 10 ^ 330 ≤ num * 5 ^ k * 10 ^ 330 := Nat.mul_le_mul_right _ hone
        _ < 10 ^ digitCount (num * 5 ^ k) * 10 ^ 330 :=
            Nat.mul_lt_mul_of_pos_right hdigits (Nat.pow_pos (by decide))
        _ = 10 ^ (digitCount (num * 5 ^ k) + 330) := by rw [pow_add]
        _ ≤ 10 ^ k := hpow
        _ = 5 ^ k * 2 ^ k := by rw [hten, Nat.mul_comm]
        _ ≤ 5 ^ k * 10 ^ 330 := Nat.mul_le_mul_left _ htwo
    exact lt_irrefl _ hcontra
  · intro hmost
    have hdigits : 10 ^ (310 + k) ≤ num * 5 ^ k :=
      pow_le_of_lt_digitCount (by omega) (by omega)
    have hbig : (2 : Nat) ^ 1024 < 10 ^ 310 := by decide +kernel
    have hcontra : (10 : Nat) ^ 310 * 10 ^ k < 10 ^ 310 * 10 ^ k :=
      calc (10 : Nat) ^ 310 * 10 ^ k = 10 ^ (310 + k) := (pow_add _ _ _).symm
        _ ≤ num * 5 ^ k := hdigits
        _ < 2 ^ 1024 * 2 ^ k * 5 ^ k := Nat.mul_lt_mul_of_pos_right hlarge hfive
        _ = 2 ^ 1024 * 10 ^ k := by rw [hten, Nat.mul_assoc]
        _ ≤ 10 ^ 310 * 10 ^ k := Nat.mul_le_mul_right _ (Nat.le_of_lt hbig)
    exact lt_irrefl _ hcontra

/-- A magnitude written out in full reads back. -/
theorem nearest_exact {code num den : Nat} (hcode : code < BinaryFormat.binary64.infinity)
    (h : BinaryFormat.binary64.ratio code = (num, den)) (hnum : 0 < num) :
    (exact num den).nearest = code := by
  obtain ⟨⟨k, hk, rfl⟩, hlarge⟩ := ratio_bounds hcode h
  obtain ⟨hleast, hmost⟩ := exact_point hnum hk hlarge
  have hne : num * 5 ^ k ≠ 0 := Nat.ne_of_gt (Nat.mul_pos hnum (Nat.pow_pos (by decide)))
  have hvalue : BinaryFormat.binary64.nearest (ratio ⟨num * 5 ^ k, -(k : Int)⟩).1
      (ratio ⟨num * 5 ^ k, -(k : Int)⟩).2 = code := by
    rw [← BinaryFormat.nearest_ratio hcode, h]
    refine BinaryFormat.nearest_congr (ratio_pos _) (Nat.two_pow_pos _) ?_
    unfold ratio
    simp only [Nat.pow_eq]
    rw [show (-(k : Int)).toNat = 0 by omega, show (-(-(k : Int))).toNat = k by omega,
      show (10 : Nat) ^ k = 2 ^ k * 5 ^ k by rw [← Nat.mul_pow]]
    ring
  unfold exact
  simp only [Nat.log2_two_pow, Nat.pow_eq]
  unfold nearest
  simp only [hne, hleast, hmost, hvalue, or_self, if_false]

/-- The shortest decimal of a finite magnitude reads back. -/
theorem nearest_shortest (tie : Tie) {code : Nat}
    (hcode : code < BinaryFormat.binary64.infinity) : (shortest tie code).nearest = code := by
  unfold shortest
  generalize hratio : BinaryFormat.binary64.ratio code = pair
  obtain ⟨num, den⟩ := pair
  dsimp only
  split_ifs with hzero
  · have hnone : (BinaryFormat.binary64.ratio code).1 = 0 := by rw [hratio, hzero]
    rw [BinaryFormat.ratio_eq_zero hnone]
    rfl
  · rw [nearest_trimmed]
    cases hfound : (List.range mostDigits).findSome? fun n =>
        onGrid? tie code num den (pointOf num den - (n + 1 : Nat)) with
    | none => exact nearest_exact hcode hratio (Nat.pos_of_ne_zero hzero)
    | some d =>
      obtain ⟨n, -, hgrid⟩ := List.exists_of_findSome?_eq_some hfound
      exact nearest_of_onGrid? hgrid

end IndexedStore.Decimal
