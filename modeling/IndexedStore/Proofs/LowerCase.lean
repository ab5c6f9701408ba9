import IndexedStore.Text.Lowercase
import IndexedStore.Proofs.KeyTexts

/-!
Lower case and numbers. A text that is read as a finite number is made of blanks and of the
characters of numerals, and only the capital `E` of an exponent has one of these for its
lower-case form without being one. So a text whose lower-case form is read as a number is read as
that number itself.
-/
namespace IndexedStore

namespace Text

variable {cs : List Char} {c : Char}

/-! ### The characters of numeric texts -/

/-- The ranges of the characters of numeric texts: blanks, signs, the point, digits, and the two
marks of an exponent. -/
def numericRanges : Array (Nat × Nat) :=
  blankRanges ++ #[(0x2b, 0x2b), (0x2d, 0x2e), (0x30, 0x39), (0x45, 0x45), (0x65, 0x65)]

def Numeric (c : Char) : Prop := inRanges numericRanges c.toNat = true

theorem numeric_of_isBlank (hc : isBlank c = true) : Numeric c := by
  unfold Numeric numericRanges inRanges
  rw [Array.any_append, Bool.or_eq_true]
  exact Or.inl hc

theorem numeric_of_isDigit (hc : Decimal.isDigit c = true) : Numeric c := by
  obtain ⟨hfirst, hlast⟩ := Decimal.toNat_of_isDigit hc
  have hdigits : (0x30, 0x39) ∈ numericRanges := by simp [numericRanges]
  refine Array.any_eq_true'.mpr ⟨_, hdigits, ?_⟩
  simp only [Bool.and_eq_true, decide_eq_true_eq]
  omega

theorem numeric_of_mem_marks (hc : c ∈ ['-', '+', '.', 'e', 'E']) : Numeric c := by
  have hmarks : ['-', '+', '.', 'e', 'E'].all (inRanges numericRanges ·.toNat) = true := by
    simp [inRanges, numericRanges, blankRanges]
  exact List.all_eq_true.mp hmarks c hc

theorem holds_or_mem_dropWhile {p : Char → Bool} (hc : c ∈ cs) :
    p c = true ∨ c ∈ cs.dropWhile p := by
  rw [← List.takeWhile_append_dropWhile (p := p) (l := cs)] at hc
  rcases List.mem_append.mp hc with htaken | hrest
  · exact Or.inl (List.all_eq_true.mp List.all_takeWhile c htaken)
  · exact Or.inr hrest

theorem isBlank_or_mem_trim (hc : c ∈ cs) : isBlank c = true ∨ c ∈ trim cs := by
  unfold trim
  rcases holds_or_mem_dropWhile hc with hblank | hmem
  · exact Or.inl hblank
  · rcases holds_or_mem_dropWhile (List.mem_reverse.mpr hmem) with hblank | hmem
    · exact Or.inl hblank
    · exact Or.inr (List.mem_reverse.mpr hmem)

end Text

namespace Decimal

variable {cs : List Char} {c : Char} {negative : Bool} {e : Int} {d : Decimal}

theorem mem_of_takeSign (hc : c ∈ cs) : c ∈ (takeSign cs).2 ∨ Text.Numeric c := by
  unfold takeSign
  split
  · rcases List.mem_cons.mp hc with rfl | hc
    · exact Or.inr (Text.numeric_of_mem_marks (by simp))
    · exact Or.inl hc
  · rcases List.mem_cons.mp hc with rfl | hc
    · exact Or.inr (Text.numeric_of_mem_marks (by simp))
    · exact Or.inl hc
  · exact Or.inl hc

theorem numeric_of_exponent? (h : exponent? cs = some e) (hc : c ∈ cs) : Text.Numeric c := by
  unfold exponent? at h
  dsimp only at h
  by_cases hnone : ((takeSign cs).2.isEmpty || !(takeSign cs).2.all isDigit) = true
  · rw [if_pos hnone] at h
    exact absurd h (by simp)
  · rcases mem_of_takeSign hc with hdigit | hsign
    · have hall : (takeSign cs).2.all isDigit = true := by
        by_contra hother
        exact hnone (by simp [hother])
      exact Text.numeric_of_isDigit (List.all_eq_true.mp hall c hdigit)
    · exact hsign

theorem numeric_of_takeFraction (h : ∀ c ∈ (takeFraction cs).2, Text.Numeric c) (hc : c ∈ cs) :
    Text.Numeric c := by
  unfold takeFraction at h
  split at h
  · rcases List.mem_cons.mp hc with rfl | hc
    · exact Text.numeric_of_mem_marks (by simp)
    · rcases Text.holds_or_mem_dropWhile hc with hdigit | hrest
      · exact Text.numeric_of_isDigit hdigit
      · exact h c hrest
  · exact h c hc

theorem numeric_of_unsigned? (h : unsigned? cs = some d) (hc : c ∈ cs) : Text.Numeric c := by
  have hrest : ∀ c ∈ (takeFraction (cs.dropWhile isDigit)).2, Text.Numeric c := by
    unfold unsigned? at h
    dsimp only at h
    split_ifs at h with hempty
    split at h
    · rename_i hnil
      rw [hnil]
      exact fun c hc => absurd hc List.not_mem_nil
    · rename_i mark r hcons
      split_ifs at h with hmark
      obtain ⟨e, hexponent, -⟩ := Option.map_eq_some_iff.mp h
      rw [hcons]
      intro c hc
      rcases List.mem_cons.mp hc with rfl | hc
      · exact Text.numeric_of_mem_marks (by rcases hmark with rfl | rfl <;> simp)
      · exact numeric_of_exponent? hexponent hc
  rcases Text.holds_or_mem_dropWhile hc with hdigit | hbehind
  · exact Text.numeric_of_isDigit hdigit
  · exact numeric_of_takeFraction hrest hbehind

theorem not_isFinite_of_named? {x : Number} (h : named? negative cs = some x) :
    x.isFinite = false := by
  unfold named? at h
  split at h
  · obtain rfl := Option.some.inj h
    cases negative <;> decide
  · obtain rfl := Option.some.inj h
    cases negative <;> decide
  · obtain rfl := Option.some.inj h
    cases negative <;> decide
  · exact absurd h (by simp)

/-! ### Numerals with a small mark -/

def smallMark (c : Char) : Char := if c = 'E' then 'e' else c

theorem isDigit_smallMark (c : Char) : isDigit (smallMark c) = isDigit c := by
  unfold smallMark
  split_ifs with hc
  · rw [hc]
    decide
  · rfl

theorem map_smallMark (h : ∀ c ∈ cs, isDigit c = true) : cs.map smallMark = cs := by
  conv_rhs => rw [← List.map_id cs]
  refine List.map_congr_left fun c hc => ?_
  unfold smallMark
  rw [if_neg]
  · rfl
  · rintro rfl
    exact absurd (h _ hc) (by decide)

theorem takeWhile_map_smallMark (cs : List Char) :
    (cs.map smallMark).takeWhile isDigit = cs.takeWhile isDigit ∧
      (cs.map smallMark).dropWhile isDigit = (cs.dropWhile isDigit).map smallMark := by
  have hsame : isDigit ∘ smallMark = isDigit := funext isDigit_smallMark
  rw [List.takeWhile_map, List.dropWhile_map, hsame]
  exact ⟨map_smallMark (List.all_eq_true.mp List.all_takeWhile), rfl⟩

theorem takeSign_of_ne (hminus : c ≠ '-') (hplus : c ≠ '+') :
    takeSign (c :: cs) = (false, c :: cs) := by
  unfold takeSign
  split
  · rename_i hcons
    exact absurd (List.cons.inj hcons).1 hminus
  · rename_i hcons
    exact absurd (List.cons.inj hcons).1 hplus
  · rfl

theorem takeFraction_of_ne (hpoint : c ≠ '.') : takeFraction (c :: cs) = ([], c :: cs) := by
  unfold takeFraction
  split
  · rename_i hcons
    exact absurd (List.cons.inj hcons).1 hpoint
  · rfl

theorem smallMark_ne {m : Char} (hc : c ≠ m) (hm : m ≠ 'e') : smallMark c ≠ m := by
  unfold smallMark
  split_ifs
  · exact hm.symm
  · exact hc

theorem takeSign_map_smallMark (cs : List Char) :
    takeSign (cs.map smallMark) = ((takeSign cs).1, (takeSign cs).2.map smallMark) := by
  cases cs with
  | nil => rfl
  | cons c cs =>
    by_cases hminus : c = '-'
    · rw [hminus]
      rfl
    · by_cases hplus : c = '+'
      · rw [hplus]
        rfl
      · rw [takeSign_of_ne hminus hplus, List.map_cons,
          takeSign_of_ne (smallMark_ne hminus (by decide)) (smallMark_ne hplus (by decide))]

theorem takeFraction_map_smallMark (cs : List Char) :
    takeFraction (cs.map smallMark) = ((takeFraction cs).1, (takeFraction cs).2.map smallMark) := by
  cases cs with
  | nil => rfl
  | cons c cs =>
    by_cases hpoint : c = '.'
    · rw [hpoint]
      exact Prod.ext (takeWhile_map_smallMark cs).1 (takeWhile_map_smallMark cs).2
    · rw [takeFraction_of_ne hpoint, List.map_cons,
        takeFraction_of_ne (smallMark_ne hpoint (by decide))]

theorem exponent?_map_smallMark (cs : List Char) :
    exponent? (cs.map smallMark) = exponent? cs := by
  unfold exponent?
  rw [takeSign_map_smallMark]
  dsimp only
  have hall : ((takeSign cs).2.map smallMark).all isDigit = (takeSign cs).2.all isDigit := by
    rw [List.all_map]
    exact congrArg (takeSign cs).2.all (funext isDigit_smallMark)
  rw [List.isEmpty_map, hall]
  by_cases hdigits : (takeSign cs).2.all isDigit = true
  · rw [map_smallMark (List.all_eq_true.mp hdigits)]
  · simp only [hdigits, Bool.not_false, Bool.or_true, if_true]

theorem unsigned?_map_smallMark (cs : List Char) :
    unsigned? (cs.map smallMark) = unsigned? cs := by
  obtain ⟨htake, hdrop⟩ := takeWhile_map_smallMark cs
  unfold unsigned?
  rw [htake, hdrop, takeFraction_map_smallMark]
  dsimp only
  cases (takeFraction (cs.dropWhile isDigit)).2 with
  | nil => rfl
  | cons c r =>
    have hmark : (smallMark c = 'e' ∨ smallMark c = 'E') ↔ c = 'e' ∨ c = 'E' := by
      unfold smallMark
      split_ifs with hc
      · simp [hc]
      · rfl
    simp only [List.map_cons, hmark, exponent?_map_smallMark]

theorem named?_map_smallMark (cs : List Char) :
    named? negative (cs.map smallMark) = named? negative cs := by
  have hlower : Char.toLower ∘ smallMark = Char.toLower := by
    funext c
    simp only [Function.comp, smallMark]
    split_ifs with hc
    · rw [hc]
      decide
    · rfl
  unfold named?
  rw [List.map_map, hlower]

end Decimal

namespace Number

variable {cs : List Char} {x : Number}

theorem numeric_of_read? (h : read? cs = some x) (hx : x.isFinite = true) {c : Char}
    (hc : c ∈ cs) : Text.Numeric c := by
  unfold read? at h
  dsimp only at h
  cases hunsigned : Decimal.unsigned? (Decimal.takeSign cs).2 with
  | some d =>
    rcases Decimal.mem_of_takeSign hc with hmem | hsign
    · exact Decimal.numeric_of_unsigned? hunsigned hmem
    · exact hsign
  | none =>
    rw [hunsigned] at h
    exact absurd ((Decimal.not_isFinite_of_named? h).symm.trans hx) Bool.false_ne_true

theorem read?_map_smallMark (cs : List Char) :
    read? (cs.map Decimal.smallMark) = read? cs := by
  unfold read?
  rw [Decimal.takeSign_map_smallMark]
  dsimp only
  rw [Decimal.unsigned?_map_smallMark, Decimal.named?_map_smallMark]

end Number

namespace Text

variable {cs : List Char} {c : Char}

/-- A text that is read as a finite number is made of blanks and characters of numerals. -/
theorem numeric_of_asNumber? {s : String} {x : Number}
    (h : Value.asNumber? (.text s) = some x) : ∀ c ∈ s.toList, Numeric c := by
  obtain ⟨hread, hfinite⟩ := Option.filter_eq_some_iff.mp h
  intro c hc
  rcases isBlank_or_mem_trim hc with hblank | hmem
  · exact numeric_of_isBlank hblank
  · exact Number.numeric_of_read? hread hfinite hmem

/-! ### Lower case -/

theorem isBlank_smallMark (c : Char) : isBlank (Decimal.smallMark c) = isBlank c := by
  unfold Decimal.smallMark
  split_ifs with hc
  · simp [hc, isBlank, inRanges, blankRanges]
  · rfl

theorem trim_map_smallMark (cs : List Char) :
    trim (cs.map Decimal.smallMark) = (trim cs).map Decimal.smallMark := by
  have hsame : isBlank ∘ Decimal.smallMark = isBlank := funext isBlank_smallMark
  unfold trim
  rw [List.dropWhile_map, hsame, ← List.map_reverse, List.dropWhile_map, hsame, List.map_reverse]

def avoidsNumeric (run : Nat × Nat × Nat × Nat) : Bool :=
  numericRanges.all fun range =>
    run.2.2.2 + (run.2.1 - run.1) < range.1 || range.2 < run.2.2.2

theorem lowerRuns_avoid : lowerRuns.all fun run =>
    run == (0x41, 0x5a, 1, 0x61) || avoidsNumeric run := by
  -- The kernel walks through a list once, but looks up each place of an array from the start.
  rw [← Array.all_toList]
  decide +kernel

theorem toNat_ofNat (n : Nat) : (Char.ofNat n).toNat = n ∨ (Char.ofNat n).toNat = 0 := by
  by_cases hvalid : n.isValidChar
  · rw [Char.ofNat, dif_pos hvalid]
    exact Or.inl rfl
  · rw [Char.ofNat, dif_neg hvalid]
    exact Or.inr rfl

theorem not_numeric_of_avoids {run : Nat × Nat × Nat × Nat} (h : avoidsNumeric run = true)
    {n : Nat} (hn : n ≤ run.2.1 - run.1) : ¬ Numeric (Char.ofNat (run.2.2.2 + n)) := by
  intro hnumeric
  unfold Numeric inRanges at hnumeric
  rcases toNat_ofNat (run.2.2.2 + n) with hcode | hcode
  · rw [hcode] at hnumeric
    obtain ⟨range, hrange, hin⟩ := Array.any_eq_true'.mp hnumeric
    have havoids := (Array.all_eq_true'.mp h) range hrange
    simp only [Bool.or_eq_true, Bool.and_eq_true, decide_eq_true_eq] at havoids hin
    omega
  · rw [hcode] at hnumeric
    simp [numericRanges, blankRanges] at hnumeric

/-- Of what the runs map, only the capital `E` is mapped to a numeric character. -/
theorem eq_of_numeric_lower {run : Nat × Nat × Nat × Nat} (hrun : run ∈ lowerRuns) {n : Nat}
    (hfirst : run.1 ≤ n) (hlast : n ≤ run.2.1)
    (hnumeric : Numeric (Char.ofNat (run.2.2.2 + (n - run.1)))) : n = 'E'.toNat := by
  have hkinds := Array.all_eq_true'.mp lowerRuns_avoid run hrun
  rw [Bool.or_eq_true, beq_iff_eq] at hkinds
  rcases hkinds with rfl | havoids
  · have hmark : ∀ k < 26, inRanges numericRanges (Char.ofNat (0x61 + k)).toNat = true →
        k = 4 := by
      decide +kernel
    dsimp only at hfirst hlast
    have hplace := hmark (n - 0x41) (by omega) hnumeric
    change n = 0x45
    omega
  · exact absurd hnumeric (not_numeric_of_avoids havoids (by omega))

/-- Numeric characters are lower-case forms of themselves and of `E` only. -/
theorem lowerChar_of_numeric (h : ∀ d ∈ lowerChar c, Numeric d) :
    lowerChar c = [Decimal.smallMark c] := by
  have hcapital : lowerChar 'E' = ['e'] := by decide +kernel
  by_cases hc : c = 'E'
  · rw [hc, hcapital]
    rfl
  · have hsmall : Decimal.smallMark c = c := if_neg hc
    rw [hsmall]
    unfold lowerChar at h ⊢
    by_cases hdotted : c = 'İ'
    · rw [if_pos hdotted] at h
      have hletter := h 'i' List.mem_cons_self
      simp [Numeric, inRanges, numericRanges, blankRanges] at hletter
    · rw [if_neg hdotted] at h ⊢
      dsimp only at h ⊢
      split at h
      · rename_i first last step lower hfound
        have hrange := Array.find?_some hfound
        simp only [Bool.and_eq_true, decide_eq_true_eq] at hrange
        have heq := eq_of_numeric_lower (Array.mem_of_find?_eq_some hfound) hrange.1.1 hrange.1.2
          (h _ (List.mem_singleton_self _))
        exact absurd (Char.toNat_inj.mp heq) hc
      · rfl

theorem lowerFrom_of_numeric {before : List Char} (h : ∀ d ∈ lowerFrom before cs, Numeric d) :
    lowerFrom before cs = cs.map Decimal.smallMark := by
  induction cs generalizing before with
  | nil => rfl
  | cons c r ih =>
    unfold lowerFrom at h ⊢
    dsimp only at h ⊢
    rw [List.forall_mem_append] at h
    rw [ih h.2, List.map_cons]
    by_cases hsigma : c = 'Σ'
    · rw [if_pos hsigma] at h
      have hlower := h.1 _ (List.mem_singleton_self _)
      split_ifs at hlower <;>
        simp [Numeric, inRanges, numericRanges, blankRanges] at hlower
    · rw [if_neg hsigma] at h ⊢
      rw [lowerChar_of_numeric h.1]
      rfl

/-- A text whose lower-case form is read as a number is read as that number itself. -/
theorem asNumber?_of_lowercase {s : String} {x : Number}
    (h : Value.asNumber? (.text (lowercase s)) = some x) :
    Value.asNumber? (.text s) = some x := by
  have hnumeric := numeric_of_asNumber? h
  unfold lowercase at h hnumeric
  rw [String.toList_ofList] at hnumeric
  rw [lowerFrom_of_numeric hnumeric] at h
  unfold Value.asNumber? at h ⊢
  dsimp only at h ⊢
  rwa [String.toList_ofList, trim_map_smallMark, Number.read?_map_smallMark] at h

end Text
end IndexedStore
