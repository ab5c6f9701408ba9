import IndexedStore.Proofs.NumericOrder

/-!
Query equality and the sorting order. Two values are equal in queries when both are read as equal
numbers, or when neither is read as a number and their key texts agree. The sorting order is a
total preorder that has the numbers first, and values that tie in it are equal in queries.
-/
namespace IndexedStore

namespace Number

variable {x y : Number}

/-! ### Key texts of numbers -/

theorem unsigned_eq_iff : x.unsigned = y.unsigned ↔ x.position = y.position := by
  have hrank : x.unsigned = y.unsigned ↔ x.unsigned.rank = y.unsigned.rank :=
    ⟨congrArg rank, rank_inj⟩
  rw [hrank, rank_unsigned, rank_unsigned]
  split_ifs <;> omega

theorem numericEq_iff (hx : x.isFinite = true) (hy : y.isFinite = true) :
    x.numericEq y = true ↔ x.position = y.position := by
  unfold numericEq
  rw [isUndefined_of_isFinite hx, isUndefined_of_isFinite hy, Bool.not_false, Bool.true_and,
    Bool.true_and, beq_iff_eq]

/-- Finite numbers have one key text exactly when they are equal numbers, the zeros among them. -/
theorem keyText_eq_iff (hx : x.isFinite = true) (hy : y.isFinite = true) :
    x.keyText = y.keyText ↔ x.numericEq y = true := by
  rw [numericEq_iff hx hy, ← unsigned_eq_iff]
  constructor
  · intro htext
    have hread := asNumber?_keyText hx
    rw [htext, asNumber?_keyText hy] at hread
    exact (Option.some.inj hread).symm
  · intro hunsigned
    rw [← keyText_unsigned x, hunsigned, keyText_unsigned]

end Number

namespace Value

variable {v w : Value} {x y : Number}

/-! ### Query equality -/

def Definite : Value → Prop
  | .number x => x.isFinite = true
  | _ => True

theorem Definite.isFinite (h : v.Definite) (hx : v.asNumber? = some x) : x.isFinite = true := by
  cases v with
  | number y =>
    obtain rfl : y = x := Option.some.inj hx
    exact h
  | text s => exact (Option.filter_eq_some_iff.mp hx).2
  | _ => exact absurd hx (by simp [asNumber?])

theorem bucketText_of_some (h : v.asNumber? = some x) : v.bucketText = x.keyText := by
  unfold bucketText
  rw [h]

theorem bucketText_of_none (h : v.asNumber? = none) : v.bucketText = v.keyText := by
  unfold bucketText
  rw [h]

/-- The key text of a finite number is that of no value that is not read as a number. -/
theorem keyText_ne_of_none (hx : x.isFinite = true) (hw : w.asNumber? = none) :
    x.keyText ≠ w.keyText := by
  intro htext
  have hread := Number.asNumber?_keyText hx
  rw [htext, Sorting.asNumber?_keyText_of_none hw] at hread
  exact absurd hread (by simp)

/-- Values other than infinite and undefined numbers are equal in queries exactly when they are read
as equal numbers, or when neither is read as a number and they have one key text. -/
theorem looseEq_iff (hv : v.Definite) (hw : w.Definite) :
    v.looseEq w = true ↔
      (∃ x y, v.asNumber? = some x ∧ w.asNumber? = some y ∧ x.numericEq y = true) ∨
      (v.asNumber? = none ∧ w.asNumber? = none ∧ v.keyText = w.keyText) := by
  unfold looseEq
  rw [beq_iff_eq]
  cases hx : v.asNumber? with
  | some x =>
    rw [bucketText_of_some hx]
    cases hy : w.asNumber? with
    | some y =>
      rw [bucketText_of_some hy, Number.keyText_eq_iff (hv.isFinite hx) (hw.isFinite hy)]
      simp
    | none =>
      rw [bucketText_of_none hy]
      simpa using keyText_ne_of_none (hv.isFinite hx) hy
  | none =>
    rw [bucketText_of_none hx]
    cases hy : w.asNumber? with
    | some y =>
      rw [bucketText_of_some hy]
      simpa using (keyText_ne_of_none (hw.isFinite hy) hx).symm
    | none =>
      rw [bucketText_of_none hy]
      simp

/-- The negative zero equals zero, 25 equals what writes it in another way, and no number equals a
word. -/
theorem looseEq_writtenNumbers :
    let zero := Value.number Number.zero
    let signed := Value.number (Number.ofCode true 0)
    let whole := Value.number (Number.ofInt 25)
    (zero.Definite ∧ signed.Definite ∧ whole.Definite ∧ (Value.text " 2.5e1 ").Definite ∧
      (Value.text "twenty-five").Definite) ∧
    signed.looseEq zero = true ∧ whole.looseEq (.text " 2.5e1 ") = true ∧
      whole.looseEq (.text "twenty-five") = false ∧ (Value.text "null").looseEq .null = true := by
  intro zero signed whole
  have hzero : zero.Definite := rfl
  have hsigned : signed.Definite := rfl
  have hwhole : whole.Definite := by
    change (Number.ofInt 25).isFinite = true
    decide +kernel
  have htext : ∀ s : String, (Value.text s).Definite := fun _ => trivial
  have hnothing : Value.null.Definite := trivial
  have hnumeral : (Value.text " 2.5e1 ").asNumber? = some (Number.ofInt 25) := by decide +kernel
  have hword : (Value.text "twenty-five").asNumber? = none := by decide +kernel
  have hnull : (Value.text "null").asNumber? = none := by decide +kernel
  refine ⟨⟨hzero, hsigned, hwhole, htext _, htext _⟩,
    (looseEq_iff hsigned hzero).mpr (Or.inl ⟨_, _, rfl, rfl, by decide⟩),
    (looseEq_iff hwhole (htext _)).mpr (Or.inl ⟨_, _, rfl, hnumeral, by decide +kernel⟩), ?_,
    (looseEq_iff (htext _) hnothing).mpr (Or.inr ⟨hnull, rfl, rfl⟩)⟩
  rw [Bool.eq_false_iff]
  refine mt (looseEq_iff hwhole (htext _)).mp ?_
  rintro (⟨x, y, -, hy, -⟩ | ⟨hx, -⟩)
  · exact absurd (hword.symm.trans hy) (by simp)
  · exact absurd hx (by simp [whole, asNumber?])

-- An infinite number is not read back from its text, but has the bucket of that text.
example : (Value.number (Number.infinity false)).looseEq (.text "inf") = true ∧
    (Value.text "inf").asNumber? = none := by
  decide +kernel

/-! ### The sorting order -/

/-- Values tie when they are read as the very same number, or as none and have one key text. -/
theorem sortCompare_eq_iff : v.sortCompare w = .eq ↔
    v.asNumber? = w.asNumber? ∧ (v.asNumber? = none → v.keyText = w.keyText) := by
  unfold sortCompare
  cases v.asNumber? with
  | some x =>
    cases w.asNumber? with
    | some y => simp [Number.totalCompare_eq_iff]
    | none => simp
  | none =>
    cases w.asNumber? with
    | some y => simp
    | none => simp

theorem sortCompare_of_number (hv : v.asNumber?.isSome = true) (hw : w.asNumber? = none) :
    v.sortCompare w = .lt := by
  obtain ⟨x, hx⟩ := Option.isSome_iff_exists.mp hv
  unfold sortCompare
  rw [hx, hw]

theorem looseEq_of_tie (h : v.sortCompare w = .eq) : v.looseEq w = true := by
  obtain ⟨hnumber, htext⟩ := sortCompare_eq_iff.mp h
  unfold looseEq bucketText
  rw [beq_iff_eq, ← hnumber]
  cases hx : v.asNumber? with
  | some x => rfl
  | none => exact htext hx

/-- The sorting order is a total preorder with the numbers first, and its ties are equal in
queries. -/
theorem sortCompare_preorder (v w u : Value) :
    w.sortCompare v = (v.sortCompare w).swap ∧
    ((v.sortCompare w).isLE = true → (w.sortCompare u).isLE = true →
      (v.sortCompare u).isLE = true) ∧
    ((v.sortCompare w).isLE = true ∨ (w.sortCompare v).isLE = true) ∧
    (v.asNumber?.isSome = true → w.asNumber? = none → v.sortCompare w = .lt) ∧
    (v.sortCompare w = .eq → v.looseEq w = true) := by
  have hswap := sortCompare_swap w v
  refine ⟨hswap, Std.TransCmp.isLE_trans, ?_, sortCompare_of_number, looseEq_of_tie⟩
  rw [hswap]
  cases v.sortCompare w <;> simp

/-- Two ways of writing a number, an undefined number below all others, and a list above them. -/
theorem sortCompare_mixed :
    let undefined := Value.number (Number.undefined true)
    let half := Value.text " 2.50 "
    undefined.sortCompare half = .lt ∧ half.sortCompare (.text "25e-1") = .eq ∧
      half.looseEq (.text "25e-1") = true ∧ half.sortCompare (.list []) = .lt ∧
      (undefined.sortCompare (.list [])).isLE = true := by
  intro undefined half
  have hbelow : undefined.sortCompare half = .lt := by decide +kernel
  have htie : half.sortCompare (.text "25e-1") = .eq := by decide +kernel
  have hnumber : half.asNumber?.isSome = true := by decide +kernel
  obtain ⟨-, -, -, -, hequal⟩ := sortCompare_preorder half (.text "25e-1") (.list [])
  obtain ⟨-, htrans, -⟩ := sortCompare_preorder undefined half (.list [])
  obtain ⟨-, -, -, hfirst, -⟩ := sortCompare_preorder half (.list []) .null
  have habove := hfirst hnumber rfl
  exact ⟨hbelow, htie, hequal htie, habove, htrans (by rw [hbelow]; rfl) (by rw [habove]; rfl)⟩

end Value
end IndexedStore
