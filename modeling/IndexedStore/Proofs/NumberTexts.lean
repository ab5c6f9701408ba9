import IndexedStore.Decimal.Layout
import IndexedStore.Decimal.Literal
import IndexedStore.Proofs.Decimals
import Mathlib.Tactic.IntervalCases

/-!
Written numbers read back. Whatever layout writes a finite number, the text is a literal whose
digits and exponent have the value of the shortest decimal, so the number that is read is the one
that was written.
-/
namespace IndexedStore.Decimal

/-! ### Runs of digits -/

theorem isDigit_of_mem_toDigits {n : Nat} {c : Char} (hc : c ∈ Nat.toDigits 10 n) :
    isDigit c = true := by
  have hdigit := Nat.isDigit_of_mem_toDigits (by decide) (by decide) hc
  unfold Char.isDigit at hdigit
  unfold isDigit
  rw [Bool.and_eq_true, decide_eq_true_eq, decide_eq_true_eq] at hdigit ⊢
  exact hdigit

theorem digitValue_digitChar {n : Nat} (hn : n < 10) : digitValue n.digitChar = n := by
  interval_cases n <;> rfl

theorem foldl_digits (n : Nat) (ds : List Char) :
    ds.foldl (fun n c => 10 * n + digitValue c) n = n * 10 ^ ds.length + ofDigits ds := by
  unfold ofDigits
  induction ds generalizing n with
  | nil => simp
  | cons c ds ih =>
    rw [List.foldl_cons, List.foldl_cons, ih (10 * n + digitValue c), ih (10 * 0 + digitValue c),
      List.length_cons, pow_succ]
    ring

theorem ofDigits_append (ds ds' : List Char) :
    ofDigits (ds ++ ds') = ofDigits ds * 10 ^ ds'.length + ofDigits ds' := by
  conv_lhs => unfold ofDigits
  rw [List.foldl_append, foldl_digits]
  rfl

theorem ofDigits_singleton (c : Char) : ofDigits [c] = digitValue c := by
  unfold ofDigits
  simp

theorem ofDigits_zeros (k : Nat) : ofDigits (List.replicate k '0') = 0 := by
  induction k with
  | zero => rfl
  | succ k ih =>
    rw [List.replicate_succ', ofDigits_append, ih, ofDigits_singleton]
    rfl

theorem ofDigits_toDigits (n : Nat) : ofDigits (Nat.toDigits 10 n) = n := by
  induction n using Nat.strongRecOn with
  | ind n ih =>
    by_cases hn : n < 10
    · rw [Nat.toDigits_of_lt_base hn, ofDigits_singleton, digitValue_digitChar hn]
    · have hmod : n % 10 < 10 := Nat.mod_lt n (by decide)
      rw [Nat.toDigits_of_base_le (by decide) (by omega), ofDigits_append, ih (n / 10) (by omega),
        ofDigits_singleton, digitValue_digitChar hmod, List.length_singleton]
      omega

theorem takeWhile_digits {ds rest : List Char} (hds : ∀ c ∈ ds, isDigit c = true)
    (hrest : ∀ c r, rest = c :: r → isDigit c = false) :
    (ds ++ rest).takeWhile isDigit = ds ∧ (ds ++ rest).dropWhile isDigit = rest := by
  rw [List.takeWhile_append_of_pos hds, List.dropWhile_append_of_pos hds]
  cases rest with
  | nil => exact ⟨List.append_nil ds, rfl⟩
  | cons c r =>
    have hc := hrest c r rfl
    rw [List.takeWhile_cons_of_neg (by simp [hc]), List.dropWhile_cons_of_neg (by simp [hc])]
    exact ⟨List.append_nil ds, rfl⟩

/-! ### Literals -/

def Tail (tail : List Char) (e : Int) : Prop :=
  (tail = [] ∧ e = 0) ∨ ∃ r, tail = 'e' :: r ∧ exponent? r = some e

theorem Tail.not_digit {tail : List Char} {e : Int} (h : Tail tail e) :
    ∀ c r, tail = c :: r → isDigit c = false := by
  intro c r hc
  rcases h with ⟨hnil, -⟩ | ⟨r', hcons, -⟩
  · rw [hnil] at hc
    exact absurd hc (by simp)
  · rw [hcons] at hc
    obtain ⟨rfl, -⟩ := List.cons.inj hc
    decide

theorem unsigned?_of_tail {whole fraction rest tail : List Char} {e : Int}
    (hwhole : ∀ c ∈ whole, isDigit c = true) (hne : whole ≠ [])
    (hrest : ∀ c r, rest = c :: r → isDigit c = false)
    (hpoint : takeFraction rest = (fraction, tail)) (htail : Tail tail e) :
    unsigned? (whole ++ rest) =
      some ⟨ofDigits (whole ++ fraction), e - (fraction.length : Int)⟩ := by
  obtain ⟨htake, hdrop⟩ := takeWhile_digits hwhole hrest
  have hempty : (whole.isEmpty && fraction.isEmpty) = false := by
    cases whole with
    | nil => exact absurd rfl hne
    | cons c whole => rfl
  unfold unsigned?
  rw [htake, hdrop]
  dsimp only
  rw [hpoint]
  dsimp only
  rw [hempty]
  rcases htail with ⟨rfl, rfl⟩ | ⟨r, rfl, hexponent⟩
  · simp
  · simp [hexponent]

/-- A literal without a point. -/
theorem unsigned?_whole {whole tail : List Char} {e : Int}
    (hwhole : ∀ c ∈ whole, isDigit c = true) (hne : whole ≠ []) (htail : Tail tail e) :
    unsigned? (whole ++ tail) = some ⟨ofDigits whole, e⟩ := by
  have hpoint : takeFraction tail = ([], tail) := by
    rcases htail with ⟨rfl, -⟩ | ⟨r, rfl, -⟩
    · rfl
    · rfl
  have hread := unsigned?_of_tail hwhole hne htail.not_digit hpoint htail
  rwa [List.append_nil, List.length_nil, Nat.cast_zero, sub_zero] at hread

/-- A literal with a point. -/
theorem unsigned?_point {whole fraction tail : List Char} {e : Int}
    (hwhole : ∀ c ∈ whole, isDigit c = true) (hne : whole ≠ [])
    (hfraction : ∀ c ∈ fraction, isDigit c = true) (htail : Tail tail e) :
    unsigned? (whole ++ '.' :: (fraction ++ tail)) =
      some ⟨ofDigits (whole ++ fraction), e - (fraction.length : Int)⟩ := by
  obtain ⟨htake, hdrop⟩ := takeWhile_digits hfraction htail.not_digit
  have hpoint : takeFraction ('.' :: (fraction ++ tail)) = (fraction, tail) := by
    change ((fraction ++ tail).takeWhile isDigit, (fraction ++ tail).dropWhile isDigit) = _
    rw [htake, hdrop]
  refine unsigned?_of_tail hwhole hne (fun c r hc => ?_) hpoint htail
  obtain ⟨rfl, -⟩ := List.cons.inj hc
  decide

theorem exponent?_signed (e : Int) :
    exponent? ((if e < 0 then '-' else '+') :: Nat.toDigits 10 e.natAbs) = some e := by
  have hdigits : (Nat.toDigits 10 e.natAbs).all isDigit = true :=
    List.all_eq_true.mpr fun c hc => isDigit_of_mem_toDigits hc
  have hne : (Nat.toDigits 10 e.natAbs).isEmpty = false := by
    rw [List.isEmpty_eq_false_iff]
    exact Nat.toDigits_ne_nil
  unfold exponent?
  by_cases he : e < 0
  · rw [if_pos he]
    simp only [takeSign, hne, hdigits, Bool.not_true, Bool.or_self, Bool.false_eq_true, if_false,
      if_true, ofDigits_toDigits]
    congr 1
    omega
  · rw [if_neg he]
    simp only [takeSign, hne, hdigits, Bool.not_true, Bool.or_self, Bool.false_eq_true, if_false,
      ofDigits_toDigits]
    congr 1
    omega

/-- A text that is read as an unsigned literal has no sign. -/
theorem takeSign_of_unsigned? {cs : List Char} {d : Decimal} (h : unsigned? cs = some d) :
    takeSign cs = (false, cs) := by
  unfold takeSign
  split
  · exact absurd h (by simp [unsigned?, takeFraction, isDigit])
  · exact absurd h (by simp [unsigned?, takeFraction, isDigit])
  · rfl

end IndexedStore.Decimal

namespace IndexedStore.Number

theorem isUndefined_of_isFinite {x : Number} (hx : x.isFinite = true) : x.isUndefined = false := by
  have hcode : x.code < BinaryFormat.binary64.infinity := of_decide_eq_true hx
  exact decide_eq_false (Nat.not_lt_of_lt hcode)

end IndexedStore.Number

namespace IndexedStore.NumberLayout

open Decimal

variable {layout : NumberLayout}

/-! ### What layouts write -/

theorem isDigit_of_mem_zeros {n : Nat} {c : Char} (hc : c ∈ zeros n) : isDigit c = true := by
  rw [List.eq_of_mem_replicate hc]
  decide

theorem ofDigits_append_zeros (ds : List Char) (n : Nat) :
    ofDigits (ds ++ zeros n) = ofDigits ds * 10 ^ n := by
  unfold zeros
  rw [ofDigits_append, ofDigits_zeros, List.length_replicate, Nat.add_zero]

theorem tail_nil : Tail [] 0 := Or.inl ⟨rfl, rfl⟩

theorem isDigit_of_mem_zero : ∀ c ∈ ['0'], isDigit c = true := by simp [isDigit]

theorem unsigned?_pointBefore {ds : List Char} (hds : ∀ c ∈ ds, isDigit c = true) {point : Int}
    (hpoint : point ≤ 0) :
    unsigned? ('0' :: '.' :: (zeros (-point).toNat ++ ds)) =
      some ⟨ofDigits ds, point - ds.length⟩ := by
  have hfraction : ∀ c ∈ zeros (-point).toNat ++ ds, isDigit c = true := by
    intro c hc
    rcases List.mem_append.mp hc with hzero | hdigit
    · exact isDigit_of_mem_zeros hzero
    · exact hds c hdigit
  have hvalue : ofDigits (['0'] ++ (zeros (-point).toNat ++ ds)) = ofDigits ds := by
    rw [← List.append_assoc, ofDigits_append, ofDigits_append_zeros, ofDigits_singleton,
      show digitValue '0' = 0 from rfl, Nat.zero_mul, Nat.zero_mul, Nat.zero_add]
  have hlength : (zeros (-point).toNat ++ ds).length = (-point).toNat + ds.length := by
    unfold zeros
    rw [List.length_append, List.length_replicate]
  have hread := unsigned?_point isDigit_of_mem_zero (List.cons_ne_nil _ _) hfraction tail_nil
  rw [List.append_nil, hvalue, hlength] at hread
  refine hread.trans ?_
  congr 2
  omega

theorem unsigned?_pointBehind (keepsPoint : Bool) {ds : List Char}
    (hds : ∀ c ∈ ds, isDigit c = true) (hne : ds ≠ []) {point : Int} (hpoint : 0 < point)
    (hlength : ds.length ≤ point.toNat) :
    ∃ k : Nat, unsigned? (ds ++ zeros (point.toNat - ds.length) ++
      (if keepsPoint then ['.', '0'] else [])) =
        some ⟨ofDigits ds * 10 ^ k, point - ds.length - k⟩ := by
  have hwhole : ∀ c ∈ ds ++ zeros (point.toNat - ds.length), isDigit c = true := by
    intro c hc
    rcases List.mem_append.mp hc with hdigit | hzero
    · exact hds c hdigit
    · exact isDigit_of_mem_zeros hzero
  have hsome : ds ++ zeros (point.toNat - ds.length) ≠ [] := by simp [hne]
  cases keepsPoint with
  | true =>
    refine ⟨point.toNat - ds.length + 1, ?_⟩
    have hread := unsigned?_point hwhole hsome isDigit_of_mem_zero tail_nil
    rw [ofDigits_append, ofDigits_append_zeros, ofDigits_singleton] at hread
    refine hread.trans ?_
    rw [show digitValue '0' = 0 from rfl, List.length_singleton, pow_succ]
    congr 2
    · ring
    · omega
  | false =>
    refine ⟨point.toNat - ds.length, ?_⟩
    have hread := unsigned?_whole hwhole hsome tail_nil
    rw [ofDigits_append_zeros] at hread
    refine hread.trans ?_
    congr 2
    omega

theorem unsigned?_pointBetween {ds : List Char} (hds : ∀ c ∈ ds, isDigit c = true) {point : Int}
    (hpoint : 0 < point) (hlength : point.toNat < ds.length) :
    unsigned? (ds.take point.toNat ++ '.' :: ds.drop point.toNat) =
      some ⟨ofDigits ds, point - ds.length⟩ := by
  have hwhole : ∀ c ∈ ds.take point.toNat, isDigit c = true := fun c hc =>
    hds c (List.mem_of_mem_take hc)
  have hfraction : ∀ c ∈ ds.drop point.toNat, isDigit c = true := fun c hc =>
    hds c (List.mem_of_mem_drop hc)
  have hsome : ds.take point.toNat ≠ [] := by
    intro hnil
    have hcount := congrArg List.length hnil
    rw [List.length_take, List.length_nil] at hcount
    omega
  have hread := unsigned?_point hwhole hsome hfraction tail_nil
  rw [List.append_nil, List.take_append_drop, List.length_drop] at hread
  refine hread.trans ?_
  congr 2
  omega

/-- Digits with the point among or around them write the digits, perhaps with zeros behind. -/
theorem unsigned?_positionalChars (layout : NumberLayout) {ds : List Char}
    (hds : ∀ c ∈ ds, isDigit c = true) (hne : ds ≠ []) (point : Int) :
    ∃ k : Nat, unsigned? (layout.positionalChars ds point) =
      some ⟨ofDigits ds * 10 ^ k, point - ds.length - k⟩ := by
  unfold positionalChars
  by_cases hpoint : point ≤ 0
  · rw [if_pos hpoint, unsigned?_pointBefore hds hpoint]
    exact ⟨0, by simp⟩
  · rw [if_neg hpoint]
    by_cases hlength : ds.length ≤ point.toNat
    · rw [if_pos hlength]
      exact unsigned?_pointBehind layout.keepsPoint hds hne (by omega) hlength
    · rw [if_neg hlength, unsigned?_pointBetween hds (by omega) (by omega)]
      exact ⟨0, by simp⟩

/-- One digit before the point, and an exponent. -/
theorem unsigned?_exponentChars {ds : List Char} (hds : ∀ c ∈ ds, isDigit c = true)
    (hne : ds ≠ []) (e : Int) :
    unsigned? (exponentChars ds e) = some ⟨ofDigits ds, e + 1 - ds.length⟩ := by
  have htail : Tail ('e' :: (if e < 0 then '-' else '+') :: Nat.toDigits 10 e.natAbs) e :=
    Or.inr ⟨_, rfl, exponent?_signed e⟩
  cases ds with
  | nil => exact absurd rfl hne
  | cons c rest =>
    have hfirst : ∀ d ∈ [c], isDigit d = true := fun d hd => by
      rw [List.mem_singleton.mp hd]
      exact hds c (List.mem_cons_self ..)
    unfold exponentChars
    cases rest with
    | nil =>
      refine (unsigned?_whole hfirst (List.cons_ne_nil c _) htail).trans ?_
      congr 2
      rw [List.length_singleton]
      omega
    | cons d rest =>
      refine (unsigned?_point hfirst (List.cons_ne_nil c _)
        (fun x hx => hds x (List.mem_cons_of_mem _ hx)) htail).trans ?_
      congr 2
      simp only [List.length_cons]
      omega

/-- Every layout writes a decimal of the same nearest magnitude. -/
theorem exists_unsigned? (layout : NumberLayout) (d : Decimal) :
    ∃ d', unsigned? (layout.decimalChars d) = some d' ∧ d'.nearest = d.nearest := by
  have hds : ∀ c ∈ Nat.toDigits 10 d.digits, isDigit c = true := fun c hc =>
    isDigit_of_mem_toDigits hc
  have hne : Nat.toDigits 10 d.digits ≠ [] := Nat.toDigits_ne_nil
  generalize hp : (if d.digits = 0 then (1 : Int)
    else (Nat.toDigits 10 d.digits).length + d.exponent) = point
  have hnearest : ∀ k : Nat, nearest ⟨d.digits * 10 ^ k,
      point - (Nat.toDigits 10 d.digits).length - k⟩ = d.nearest := by
    intro k
    rw [nearest_shift]
    by_cases hzero : d.digits = 0
    · unfold nearest
      rw [if_pos (Or.inl hzero), if_pos (Or.inl hzero)]
    · rw [if_neg hzero] at hp
      congr 2
      omega
  have hpositional : ∃ d', unsigned? (layout.positionalChars (Nat.toDigits 10 d.digits) point) =
      some d' ∧ d'.nearest = d.nearest := by
    obtain ⟨k, hread⟩ := unsigned?_positionalChars layout hds hne point
    rw [ofDigits_toDigits] at hread
    exact ⟨_, hread, hnearest k⟩
  unfold decimalChars
  dsimp only
  rw [hp]
  split
  · split_ifs
    · exact hpositional
    · refine ⟨_, unsigned?_exponentChars hds hne (point - 1), ?_⟩
      have hzeros := hnearest 0
      rw [pow_zero, Nat.mul_one, Nat.cast_zero, sub_zero] at hzeros
      rw [ofDigits_toDigits, sub_add_cancel]
      exact hzeros
  · exact hpositional

/-! ### Their characters -/

def Numeral (c : Char) : Prop := isDigit c = true ∨ c ∈ ['-', '+', '.', 'e']

theorem numeral_of_mem_exponentChars {ds : List Char} (hds : ∀ c ∈ ds, isDigit c = true)
    {e : Int} {c : Char} (hc : c ∈ exponentChars ds e) : Numeral c := by
  unfold exponentChars at hc
  dsimp only at hc
  rw [List.mem_append, List.mem_append] at hc
  rcases hc with (hfirst | hfraction) | hexponent
  · exact Or.inl (hds c (List.mem_of_mem_take hfirst))
  · split_ifs at hfraction
    · exact absurd hfraction (List.not_mem_nil)
    · rcases List.mem_cons.mp hfraction with hpoint | hrest
      · exact Or.inr (by simp [hpoint])
      · exact Or.inl (hds c (List.mem_of_mem_drop hrest))
  · rcases List.mem_cons.mp hexponent with hmark | hrest
    · exact Or.inr (by simp [hmark])
    · rcases List.mem_cons.mp hrest with hsign | hdigit
      · refine Or.inr ?_
        rw [hsign]
        split_ifs <;> simp
      · exact Or.inl (isDigit_of_mem_toDigits hdigit)

theorem numeral_of_mem_positionalChars {ds : List Char} (hds : ∀ c ∈ ds, isDigit c = true)
    {point : Int} {c : Char} (hc : c ∈ layout.positionalChars ds point) : Numeral c := by
  have hpoint : Numeral '.' := Or.inr (by decide)
  have hzero : Numeral '0' := Or.inl (by decide)
  unfold positionalChars at hc
  split_ifs at hc
  · rcases List.mem_cons.mp hc with rfl | hc
    · exact hzero
    · rcases List.mem_cons.mp hc with rfl | hc
      · exact hpoint
      · rcases List.mem_append.mp hc with hc | hc
        · exact Or.inl (isDigit_of_mem_zeros hc)
        · exact Or.inl (hds c hc)
  · rcases List.mem_append.mp hc with hc | hc
    · rcases List.mem_append.mp hc with hc | hc
      · exact Or.inl (hds c hc)
      · exact Or.inl (isDigit_of_mem_zeros hc)
    · rcases List.mem_cons.mp hc with rfl | hc
      · exact hpoint
      · rw [List.mem_singleton.mp hc]
        exact hzero
  · rw [List.append_nil] at hc
    rcases List.mem_append.mp hc with hc | hc
    · exact Or.inl (hds c hc)
    · exact Or.inl (isDigit_of_mem_zeros hc)
  · rcases List.mem_append.mp hc with hc | hc
    · exact Or.inl (hds c (List.mem_of_mem_take hc))
    · rcases List.mem_cons.mp hc with rfl | hc
      · exact hpoint
      · exact Or.inl (hds c (List.mem_of_mem_drop hc))

theorem decimalChars_cases (layout : NumberLayout) (d : Decimal) :
    (∃ point, layout.decimalChars d = layout.positionalChars (Nat.toDigits 10 d.digits) point) ∨
      ∃ e, layout.decimalChars d = exponentChars (Nat.toDigits 10 d.digits) e := by
  unfold decimalChars
  dsimp only
  cases layout.positional with
  | none => exact Or.inl ⟨_, rfl⟩
  | some bounds =>
    dsimp only
    by_cases hbounds : bounds.1 ≤ (if d.digits = 0 then (1 : Int)
        else (Nat.toDigits 10 d.digits).length + d.exponent) ∧
      (if d.digits = 0 then (1 : Int)
        else (Nat.toDigits 10 d.digits).length + d.exponent) ≤ bounds.2
    · rw [if_pos hbounds]
      exact Or.inl ⟨_, rfl⟩
    · rw [if_neg hbounds]
      exact Or.inr ⟨_, rfl⟩

theorem numeral_of_mem_decimalChars {d : Decimal} {c : Char} (hc : c ∈ layout.decimalChars d) :
    Numeral c := by
  have hds : ∀ c ∈ Nat.toDigits 10 d.digits, isDigit c = true := fun c hc =>
    isDigit_of_mem_toDigits hc
  rcases layout.decimalChars_cases d with ⟨_, hchars⟩ | ⟨_, hchars⟩
  · exact numeral_of_mem_positionalChars hds (hchars ▸ hc)
  · exact numeral_of_mem_exponentChars hds (hchars ▸ hc)

/-- What is written for a finite number. -/
theorem chars_of_isFinite {x : Number} (hx : x.isFinite = true) :
    layout.chars x = (if x.negative then ['-'] else []) ++
      layout.decimalChars (Decimal.shortest layout.tie x.code) := by
  unfold chars
  rw [Number.isUndefined_of_isFinite hx, hx]
  simp only [Bool.false_eq_true, if_false, if_true]

theorem numeral_of_mem_chars {x : Number} (hx : x.isFinite = true) {c : Char}
    (hc : c ∈ layout.chars x) : Numeral c := by
  rw [chars_of_isFinite hx, List.mem_append] at hc
  rcases hc with hsign | hdecimal
  · split_ifs at hsign
    · rw [List.mem_singleton.mp hsign]
      exact Or.inr (by decide)
    · exact absurd hsign List.not_mem_nil
  · exact numeral_of_mem_decimalChars hdecimal

/-- A number in a document has a point or an exponent, as integers do not. -/
theorem exists_mark_of_chars {x : Number} (hx : x.isFinite = true) :
    ∃ c ∈ exchange.chars x, c = '.' ∨ c = 'e' := by
  have hpositional : ∀ ds point, '.' ∈ exchange.positionalChars ds point := by
    intro ds point
    unfold positionalChars
    split_ifs with hpoint hlength hkeeps
    · simp
    · simp
    · exact absurd rfl hkeeps
    · simp
  have hexponent : ∀ ds e, 'e' ∈ exponentChars ds e := by
    intro ds e
    unfold exponentChars
    simp
  have hdecimal : ∀ d, ∃ c ∈ exchange.decimalChars d, c = '.' ∨ c = 'e' := by
    intro d
    rcases exchange.decimalChars_cases d with ⟨_, hchars⟩ | ⟨_, hchars⟩
    · exact ⟨'.', hchars ▸ hpositional _ _, Or.inl rfl⟩
    · exact ⟨'e', hchars ▸ hexponent _ _, Or.inr rfl⟩
  obtain ⟨c, hc, hmark⟩ := hdecimal (Decimal.shortest exchange.tie x.code)
  refine ⟨c, ?_, hmark⟩
  rw [chars_of_isFinite hx]
  exact List.mem_append_right _ hc

end IndexedStore.NumberLayout

namespace IndexedStore.Number

theorem ofCode_code (x : Number) : ofCode x.negative x.code = x := by
  unfold ofCode
  rw [dif_pos x.code_lt]

/-- A finite number reads back from what any layout writes. -/
theorem read?_chars {x : Number} (hx : x.isFinite = true) (layout : NumberLayout) :
    read? (layout.chars x) = some x := by
  have hcode : x.code < BinaryFormat.binary64.infinity := of_decide_eq_true hx
  obtain ⟨d, hread, hnearest⟩ := layout.exists_unsigned? (Decimal.shortest layout.tie x.code)
  rw [Decimal.nearest_shortest layout.tie hcode] at hnearest
  have hunsigned := Decimal.takeSign_of_unsigned? hread
  have hsigned : Decimal.takeSign (layout.chars x) =
      (x.negative, layout.decimalChars (Decimal.shortest layout.tie x.code)) := by
    rw [NumberLayout.chars_of_isFinite hx]
    cases hnegative : x.negative with
    | true => rfl
    | false => exact hunsigned
  unfold read?
  rw [hsigned]
  dsimp only
  rw [hread]
  dsimp only
  rw [hnearest, ofCode_code]

end IndexedStore.Number
