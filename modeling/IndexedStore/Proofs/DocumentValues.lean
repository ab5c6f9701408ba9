import Mathlib.Algebra.Order.Field.Rat
import Mathlib.Data.Rat.Cast.Order
import Mathlib.Tactic.NormNum
import Mathlib.Tactic.Positivity
import IndexedStore.Proofs.ContainerTexts

/-!
Values read back from their documents. A number leaves as an integer when it is whole and its
magnitude is below the exact bound, which is said here of the rational that it is; that integer
leads back to the same rational. So a value with finite numbers comes back as it was, at every
depth, but for the signs of zeros.
-/
namespace IndexedStore

namespace Number

variable {x : Number} {n : Int}

/-! ### Numbers as rationals -/

def magnitude (x : Number) : ℚ := x.ratio.1 / x.ratio.2

def toRat (x : Number) : ℚ := if x.negative then -x.magnitude else x.magnitude

theorem magnitude_nonneg (x : Number) : 0 ≤ x.magnitude := by
  unfold magnitude
  positivity

theorem abs_toRat (x : Number) : |x.toRat| = x.magnitude := by
  unfold toRat
  split_ifs
  · rw [abs_neg, abs_of_nonneg x.magnitude_nonneg]
  · exact abs_of_nonneg x.magnitude_nonneg

theorem magnitude_eq_iff {q : Nat} : x.magnitude = q ↔ x.ratio.1 = q * x.ratio.2 := by
  have hden : (x.ratio.2 : ℚ) ≠ 0 :=
    Nat.cast_ne_zero.mpr (Nat.ne_of_gt (BinaryFormat.ratio_pos _ _))
  unfold magnitude
  rw [div_eq_iff hden]
  exact_mod_cast Iff.rfl

/-- The integer of a number is its magnitude with its sign, when that is whole and small. -/
theorem integer?_eq_some_iff_magnitude :
    x.integer? = some n ↔ x.isFinite = true ∧ ∃ q : Nat, x.magnitude = q ∧ q < exactBound ∧
      n = if x.negative then -(q : Int) else q := by
  have hden : 0 < x.ratio.2 := BinaryFormat.ratio_pos _ _
  unfold integer?
  dsimp only
  constructor
  · intro h
    by_cases hfinite : x.isFinite = true
    · rw [if_pos hfinite] at h
      by_cases hwhole : x.ratio.1 % x.ratio.2 = 0 ∧ x.ratio.1 / x.ratio.2 < exactBound
      · rw [if_pos hwhole] at h
        refine ⟨hfinite, x.ratio.1 / x.ratio.2, magnitude_eq_iff.mpr ?_, hwhole.2, ?_⟩
        · exact (Nat.div_mul_cancel (Nat.dvd_of_mod_eq_zero hwhole.1)).symm
        · exact (Option.some.inj h).symm
      · exact absurd h (by simp [hwhole])
    · exact absurd h (by simp [hfinite])
  · rintro ⟨hfinite, q, hmagnitude, hbound, rfl⟩
    rw [magnitude_eq_iff] at hmagnitude
    rw [if_pos hfinite, hmagnitude, Nat.mul_mod_left, Nat.mul_div_cancel _ hden,
      if_pos ⟨rfl, hbound⟩]

/-- A number is an integer exactly when it has no fraction and its magnitude is below the bound. -/
theorem integer?_eq_some_iff :
    x.integer? = some n ↔ x.isFinite = true ∧ x.toRat = n ∧ |x.toRat| < 2 ^ 53 := by
  have hbound : (exactBound : ℚ) = 2 ^ 53 := by norm_num [exactBound]
  rw [integer?_eq_some_iff_magnitude, abs_toRat, ← hbound]
  unfold toRat
  refine and_congr_right fun _ => ⟨?_, ?_⟩
  · rintro ⟨q, hmagnitude, hsmall, rfl⟩
    rw [hmagnitude]
    refine ⟨?_, Nat.cast_lt.mpr hsmall⟩
    split_ifs
    · rw [Int.cast_neg, Int.cast_natCast]
    · rw [Int.cast_natCast]
  · rintro ⟨hwhole, hsmall⟩
    have hmagnitude : x.magnitude = n.natAbs := by
      rw [Nat.cast_natAbs, Int.cast_abs, ← hwhole]
      exact (abs_toRat x).symm
    rw [hmagnitude] at hwhole hsmall
    refine ⟨n.natAbs, hmagnitude, Nat.cast_lt.mp hsmall, ?_⟩
    rw [← Int.cast_natCast] at hwhole
    split_ifs at hwhole ⊢
    · rw [← Int.cast_neg] at hwhole
      exact (Int.cast_injective hwhole).symm
    · exact (Int.cast_injective hwhole).symm

theorem toJson_eq_int_iff : x.toJson = .int n ↔ x.integer? = some n := by
  unfold toJson
  cases x.integer? with
  | some m => simp
  | none => split_ifs <;> simp

/-! ### Numbers read back -/

theorem toRat_of_isZero (hx : x.isZero = true) : x.toRat = 0 := by
  have hinteger := integer?_eq_some_iff.mp (integer?_of_isZero hx)
  rw [hinteger.2.1, Int.cast_zero]

/-- Without the sign of its zero, a number is the same rational. -/
theorem toRat_unsigned (x : Number) : x.unsigned.toRat = x.toRat := by
  unfold unsigned
  split_ifs with hzero
  · rw [toRat_of_isZero hzero, toRat_of_isZero (x := zero) rfl]
  · rfl

theorem isFinite_unsigned (x : Number) : x.unsigned.isFinite = x.isFinite := by
  unfold unsigned
  split_ifs with hzero
  · unfold isFinite
    rw [show x.code = 0 from of_decide_eq_true hzero]
    rfl
  · rfl

/-- The integer that a number leaves as is a finite number again, and the same rational. -/
theorem toRat_ofInt (h : x.toJson = .int n) :
    x.toRat = n ∧ (ofInt n).isFinite = true ∧ (ofInt n).toRat = n := by
  rw [toJson_eq_int_iff] at h
  obtain ⟨hfinite, hrational, -⟩ := integer?_eq_some_iff.mp h
  rw [unsigned_of_integer? h, toRat_unsigned, isFinite_unsigned]
  exact ⟨hrational, hfinite, hrational⟩

theorem numericEq_unsigned (hx : x.isFinite = true) : x.unsigned.numericEq x = true := by
  have hagain : x.unsigned.unsigned = x.unsigned := by
    unfold unsigned
    split_ifs with hzero hagain <;> rfl
  exact (numericEq_iff (x.isFinite_unsigned.trans hx) hx).mpr (unsigned_eq_iff.mp hagain)

/-- A finite number comes back from its document, but for the sign of the negative zero. -/
theorem toValue_toJson (hx : x.isFinite = true) : x.toJson.toValue = .number x.unsigned := by
  unfold toJson
  cases hinteger : x.integer? with
  | some n => exact congrArg Value.number (unsigned_of_integer? hinteger)
  | none =>
    have hnonzero : ¬ x.isZero = true := fun hzero =>
      absurd (hinteger.symm.trans (integer?_of_isZero hzero)) (Option.some_ne_none 0).symm
    dsimp only
    rw [if_pos hx, unsigned, if_neg hnonzero]
    rfl

end Number

namespace Value

/-! ### Values read back -/

mutual

def unsigned : Value → Value
  | .number x => .number x.unsigned
  | .list items => .list (unsignedItems items)
  | .map entries => .map (unsignedEntries entries)
  | v => v

def unsignedItems : List Value → List Value
  | [] => []
  | v :: rest => unsigned v :: unsignedItems rest

def unsignedEntries : List (String × Value) → List (String × Value)
  | [] => []
  | (name, v) :: rest => (name, unsigned v) :: unsignedEntries rest

end

/-- The document of a value with finite numbers gives the value back without the signs of zeros. -/
theorem toValue_toJson (v : Value) : v.Finite → v.toJson.toValue = v.unsigned := by
  refine induction_finite (P := fun v => v.toJson.toValue = v.unsigned)
    (Q := fun items => Json.itemValues (itemsToJson Number.toJson items) = unsignedItems items)
    (R := fun entries =>
      Json.memberValues (entriesToJson Number.toJson entries) = unsignedEntries entries)
    ?null ?bool ?number ?text ?list ?map ?noItem ?item ?noEntry ?entry v
  case null => rfl
  case bool => exact fun _ => rfl
  case number => exact fun _ => Number.toValue_toJson
  case text => exact fun _ => rfl
  case list => exact fun _ h => congrArg Value.list h
  case map => exact fun _ h => congrArg Value.map h
  case noItem => rfl
  case item => exact fun _ _ hv hrest => congrArg₂ List.cons hv hrest
  case noEntry => rfl
  case entry =>
    exact fun name _ _ hv hrest => congrArg₂ (fun v rest => (name, v) :: rest) hv hrest

/-- A value with finite numbers equals itself without the signs of zeros. -/
theorem same_unsigned (v : Value) : v.Finite → v.unsigned.same v = true := by
  refine induction_finite (P := fun v => v.unsigned.same v = true)
    (Q := fun items => sameItems (unsignedItems items) items = true)
    (R := fun entries => sameEntries (unsignedEntries entries) entries = true)
    ?null ?bool ?number ?text ?list ?map ?noItem ?item ?noEntry ?entry v
  case null => rfl
  case bool => exact beq_self_eq_true
  case number => exact fun _ => Number.numericEq_unsigned
  case text => exact beq_self_eq_true
  case list => exact fun _ h => h
  case map => exact fun _ h => h
  case noItem => rfl
  case item =>
    intro v rest hv hrest
    rw [unsignedItems, sameItems, hv, hrest]
    rfl
  case noEntry => rfl
  case entry =>
    intro name v rest hv hrest
    rw [unsignedEntries, sameEntries, hv, hrest, beq_self_eq_true]
    rfl

/-- Fields with finite numbers come back from their document as fields. -/
theorem toFields_toJson {fields : Fields} (h : (Value.map fields).Finite) :
    (Fields.toJson fields).toFields = .ok (unsignedEntries fields) := by
  have hvalue : (Fields.toJson fields).toValue = .map (unsignedEntries fields) :=
    toValue_toJson (.map fields) h
  unfold Json.toFields
  rw [hvalue]

/-- A value whose numbers, at every depth, are finite comes back from its document equal to what it
was, and nothing is lost but the signs of zeros; fields come back so as fields. Of all numbers just
those without a fraction and with a magnitude below the bound leave as integers, and what such an
integer leads back to is the same rational. -/
theorem readsBack_toJson :
    (∀ v : Value, v.Finite →
      v.toJson.toValue = v.unsigned ∧ v.toJson.toValue.same v = true) ∧
    (∀ fields : Fields, (Value.map fields).Finite →
      ∃ back, (Fields.toJson fields).toFields = .ok back ∧ back = unsignedEntries fields ∧
        sameEntries back fields = true) ∧
    ∀ x : Number,
      ((∃ n, x.toJson = .int n) ↔
        x.isFinite = true ∧ (∃ n : Int, x.toRat = n) ∧ |x.toRat| < 2 ^ 53) ∧
      ∀ n, x.toJson = .int n →
        x.toRat = n ∧ (Number.ofInt n).isFinite = true ∧ (Number.ofInt n).toRat = n := by
  refine ⟨fun v hv => ?_, fun fields hfields => ?_, fun x => ⟨?_, fun n => Number.toRat_ofInt⟩⟩
  · have hback := toValue_toJson v hv
    exact ⟨hback, hback ▸ same_unsigned v hv⟩
  · exact ⟨_, toFields_toJson hfields, rfl, same_unsigned (.map fields) hfields⟩
  · simp only [Number.toJson_eq_int_iff, Number.integer?_eq_some_iff]
    constructor
    · rintro ⟨n, hfinite, hwhole, hsmall⟩
      exact ⟨hfinite, ⟨n, hwhole⟩, hsmall⟩
    · rintro ⟨hfinite, ⟨n, hwhole⟩, hsmall⟩
      exact ⟨n, hfinite, hwhole, hsmall⟩

def largestWhole : Number := Number.ofInt (2 ^ 53 - 1)

/-- A fraction, the bound itself, and a negative zero in a list, beside the largest integer. -/
def edges : Fields :=
  [("half", .number (Number.ofRatio false 1 2)),
    ("list", .list [.number (Number.ofCode true 0), .number (Number.ofInt (2 ^ 53))]),
    ("whole", .number largestWhole)]

theorem readsBack_edges :
    (Value.map edges).Finite ∧ (Value.map edges).toJson.toValue.same (.map edges) = true ∧
      largestWhole.toRat = 2 ^ 53 - 1 ∧ ¬ ∃ n, (Number.ofInt (2 ^ 53)).toJson = .int n := by
  have hhalf : (Number.ofRatio false 1 2).isFinite = true := by decide +kernel
  have hzero : (Number.ofCode true 0).isFinite = true := by decide +kernel
  have hbound : (Number.ofInt (2 ^ 53)).isFinite = true := by decide +kernel
  have hlargest : largestWhole.isFinite = true := by decide +kernel
  have hedges : (Value.map edges).Finite := ⟨hhalf, ⟨hzero, hbound, trivial⟩, hlargest, trivial⟩
  have hinteger : largestWhole.toJson = .int (2 ^ 53 - 1) :=
    Number.toJson_eq_int_iff.mpr (by decide +kernel)
  obtain ⟨hvalue, -, hnumber⟩ := readsBack_toJson
  refine ⟨hedges, (hvalue _ hedges).2, ?_, ?_⟩
  · rw [((hnumber largestWhole).2 _ hinteger).1]
    norm_num
  · rintro ⟨n, hn⟩
    have hnone : (Number.ofInt (2 ^ 53)).integer? = none := by decide +kernel
    rw [Number.toJson_eq_int_iff, hnone] at hn
    exact absurd hn (by simp)

end Value
end IndexedStore
