import IndexedStore.Value.Key
import IndexedStore.Proofs.DocumentTexts

/-!
Key texts of numbers. A finite number reads back from its key text, but for the sign of the
negative zero; the key text of any other number is not read as a number at all.
-/
namespace IndexedStore

theorem Decimal.toNat_of_isDigit {c : Char} (hc : isDigit c = true) :
    48 ≤ c.toNat ∧ c.toNat < 58 := by
  unfold isDigit at hc
  rw [Bool.and_eq_true, decide_eq_true_eq, decide_eq_true_eq] at hc
  exact ⟨hc.1, Nat.lt_succ_of_le hc.2⟩

namespace Text

variable {cs : List Char}

theorem trim_eq_self (h : ∀ c ∈ cs, isBlank c = false) : trim cs = cs := by
  have hkept : ∀ l : List Char, (∀ c ∈ l, isBlank c = false) → l.dropWhile isBlank = l := by
    intro l hl
    cases l with
    | nil => rfl
    | cons c l =>
      rw [List.dropWhile_cons_of_neg]
      rw [hl c List.mem_cons_self]
      exact Bool.false_ne_true
  unfold trim
  rw [hkept cs h, hkept cs.reverse fun c hc => h c (List.mem_reverse.mp hc), List.reverse_reverse]

theorem isBlank_of_numeral {c : Char} (h : NumberLayout.Numeral c) : isBlank c = false := by
  rcases h with hdigit | hmark
  · have hdigits : ∀ n < 58, 48 ≤ n → inRanges blankRanges n = false := by decide +kernel
    obtain ⟨hfirst, hlast⟩ := Decimal.toNat_of_isDigit hdigit
    exact hdigits c.toNat hlast hfirst
  · have hmarks : ['-', '+', '.', 'e'].all (!isBlank ·) = true := by decide +kernel
    simpa using List.all_eq_true.mp hmarks c hmark

end Text

namespace Number

variable {x : Number} {n : Int}

/-! ### Whole numbers -/

theorem integer?_of_isZero (hx : x.isZero = true) : x.integer? = some 0 := by
  have hcode : x.code = 0 := of_decide_eq_true hx
  have hfinite : x.isFinite = true := by
    unfold isFinite
    rw [hcode]
    decide
  have hnum : x.ratio.1 = 0 := by
    unfold ratio
    rw [hcode]
    exact Nat.zero_mul _
  unfold integer?
  rw [if_pos hfinite]
  dsimp only
  rw [hnum, Nat.zero_mod, Nat.zero_div, if_pos ⟨rfl, by decide⟩]
  split_ifs <;> rfl

theorem exists_of_integer? (h : x.integer? = some n) :
    ∃ q : Nat, q < exactBound ∧ BinaryFormat.binary64.nearest q 1 = x.code ∧
      n = if x.negative then -(q : Int) else q := by
  unfold integer? at h
  dsimp only at h
  by_cases hfinite : x.isFinite = true
  · rw [if_pos hfinite] at h
    by_cases hwhole : x.ratio.1 % x.ratio.2 = 0 ∧ x.ratio.1 / x.ratio.2 < exactBound
    · rw [if_pos hwhole] at h
      refine ⟨x.ratio.1 / x.ratio.2, hwhole.2, ?_, (Option.some.inj h).symm⟩
      rw [← BinaryFormat.nearest_ratio (of_decide_eq_true hfinite)]
      refine BinaryFormat.nearest_congr Nat.one_pos (BinaryFormat.ratio_pos _ _) ?_
      rw [Nat.mul_one]
      exact Nat.div_mul_cancel (Nat.dvd_of_mod_eq_zero hwhole.1)
    · rw [if_neg hwhole] at h
      exact absurd h (by simp)
  · rw [if_neg hfinite] at h
    exact absurd h (by simp)

theorem nearest_zero : BinaryFormat.binary64.nearest 0 1 = 0 := by
  unfold BinaryFormat.nearest
  rw [if_pos rfl]

/-- An integer leads back to the number that it is, but for the negative zero. -/
theorem ofInt_of_integer? (h : x.integer? = some n) :
    ofInt n = x ∨ (x.negative = true ∧ x.isZero = true ∧ n = 0) := by
  obtain ⟨q, -, hcode, hn⟩ := exists_of_integer? h
  have hfound : ∀ negative : Bool, x.negative = negative → decide (n < 0) = negative →
      n.natAbs = q → ofInt n = x := by
    intro negative hsign hbelow habs
    unfold ofInt ofRatio
    rw [hbelow, habs, hcode, ← hsign, ofCode_code]
  cases hnegative : x.negative with
  | true =>
    rw [hnegative, if_pos rfl] at hn
    rcases Nat.eq_zero_or_pos q with hzero | hpos
    · rw [hzero, nearest_zero] at hcode
      exact Or.inr ⟨rfl, decide_eq_true hcode.symm, by omega⟩
    · exact Or.inl (hfound true hnegative (decide_eq_true (by omega)) (by omega))
  | false =>
    rw [hnegative, if_neg Bool.false_ne_true] at hn
    exact Or.inl (hfound false hnegative (decide_eq_false (by omega)) (by omega))

theorem ofInt_zero : ofInt 0 = zero := by
  unfold ofInt ofRatio
  rw [Int.natAbs_zero, nearest_zero]
  rfl

/-- A whole decimal below the exact bound is far from the least and the largest magnitudes. -/
theorem nearest_whole {q : Nat} (hq : q < exactBound) :
    Decimal.nearest ⟨q, 0⟩ = BinaryFormat.binary64.nearest q 1 := by
  have hcount : Decimal.digitCount q ≤ 310 := by
    by_contra hmany
    have hlarge := Decimal.pow_le_of_lt_digitCount (by decide) (Nat.lt_of_not_le hmany)
    have hbound : exactBound ≤ 10 ^ 310 := by decide +kernel
    omega
  unfold Decimal.nearest Decimal.leastPoint Decimal.largestPoint
  by_cases hzero : q = 0
  · rw [if_pos (Or.inl hzero), hzero, nearest_zero]
  · dsimp only
    rw [if_neg (by omega), if_neg (by omega)]
    simp [Decimal.ratio]

/-- The text of an integer below the exact bound is read as the number that the integer is. -/
theorem read?_intChars (hn : n.natAbs < exactBound) :
    read? (Json.intChars n) = some (ofInt n) := by
  have hdigits : ∀ c ∈ Nat.toDigits 10 n.natAbs, Decimal.isDigit c = true := fun c hc =>
    Decimal.isDigit_of_mem_toDigits hc
  have hunsigned := Decimal.unsigned?_whole hdigits Nat.toDigits_ne_nil NumberLayout.tail_nil
  rw [List.append_nil, Decimal.ofDigits_toDigits] at hunsigned
  have hsign : Decimal.takeSign (Json.intChars n) =
      (decide (n < 0), Nat.toDigits 10 n.natAbs) := by
    unfold Json.intChars
    by_cases hneg : n < 0
    · rw [if_pos hneg, decide_eq_true hneg]
      rfl
    · rw [if_neg hneg, decide_eq_false hneg]
      exact Decimal.takeSign_of_unsigned? hunsigned
  unfold read?
  rw [hsign]
  dsimp only
  rw [hunsigned]
  dsimp only
  rw [nearest_whole hn]
  rfl

/-! ### Key texts -/

def unsigned (x : Number) : Number := if x.isZero then zero else x

theorem unsigned_of_integer? (h : x.integer? = some n) : ofInt n = x.unsigned := by
  unfold unsigned
  by_cases hzero : x.isZero = true
  · rw [integer?_of_isZero hzero] at h
    obtain rfl := Option.some.inj h
    rw [if_pos hzero, ofInt_zero]
  · rw [if_neg hzero]
    rcases ofInt_of_integer? h with heq | ⟨-, hzero', -⟩
    · exact heq
    · exact absurd hzero' hzero

theorem keyText_unsigned (x : Number) : x.unsigned.keyText = x.keyText := by
  unfold unsigned
  by_cases hzero : x.isZero = true
  · rw [if_pos hzero]
    unfold keyText
    rw [integer?_of_isZero hzero, integer?_of_isZero (x := zero) rfl]
  · rw [if_neg hzero]

theorem keyText_ofInt (h : x.integer? = some n) : (ofInt n).keyText = x.keyText := by
  rw [unsigned_of_integer? h, keyText_unsigned]

theorem toList_toString (n : Int) : (toString n).toList = Json.intChars n := by
  unfold Json.intChars
  cases n with
  | ofNat n =>
    rw [if_neg (by simp)]
    exact Nat.toList_repr
  | negSucc n =>
    rw [if_pos (Int.negSucc_lt_zero n)]
    change ("-" ++ Nat.repr (n + 1)).toList = _
    rw [String.toList_append, Nat.toList_repr]
    rfl

/-- A finite number reads back from its key text, without the sign of the negative zero. -/
theorem asNumber?_keyText (hx : x.isFinite = true) :
    Value.asNumber? (.text x.keyText) = some x.unsigned := by
  have hread : ∀ {cs : List Char} {y : Number}, (∀ c ∈ cs, NumberLayout.Numeral c) →
      read? cs = some y → y.isFinite = true →
      (read? (Text.trim cs)).filter isFinite = some y := by
    intro cs y hnumeral hread hfinite
    rw [Text.trim_eq_self fun c hc => Text.isBlank_of_numeral (hnumeral c hc), hread]
    exact Option.filter_some_pos hfinite
  have hfinite : x.unsigned.isFinite = true := by
    unfold unsigned
    split_ifs
    · decide
    · exact hx
  unfold Value.asNumber? keyText
  cases hinteger : x.integer? with
  | some n =>
    obtain ⟨q, hq, -, hn⟩ := exists_of_integer? hinteger
    have hbound : n.natAbs < exactBound := by
      rw [hn]
      split_ifs <;> simpa using hq
    dsimp only
    rw [← unsigned_of_integer? hinteger] at hfinite ⊢
    rw [toList_toString]
    exact hread (fun c hc => Json.numeral_of_mem_intChars hc) (read?_intChars hbound) hfinite
  | none =>
    have hnotZero : ¬ x.isZero = true := by
      intro hzero
      rw [integer?_of_isZero hzero] at hinteger
      exact absurd hinteger (by simp)
    unfold unsigned at hfinite ⊢
    rw [if_neg hnotZero] at hfinite ⊢
    dsimp only
    rw [String.toList_ofList]
    exact hread (fun c hc => NumberLayout.numeral_of_mem_chars hx hc) (read?_chars hx _) hx

/-- The key text of a number that is not finite is not read as a number. -/
theorem asNumber?_keyText_of_not_finite (hx : x.isFinite = false) :
    Value.asNumber? (.text x.keyText) = none := by
  have hinteger : x.integer? = none := by
    unfold integer?
    rw [hx]
    rfl
  unfold keyText NumberLayout.chars
  rw [hinteger, hx, if_neg Bool.false_ne_true]
  split_ifs
  · decide +kernel
  · decide +kernel
  · decide +kernel

end Number
end IndexedStore
