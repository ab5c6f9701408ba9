import IndexedStore.Proofs.QueryEquality

/-!
Lists and maps told from their bucket texts. The bucket of a list or a map is the compact text of
its document, and a document with finite numbers is told from its text, however deep it nests and
whatever stands in its texts and names. So different lists and maps have different buckets.
-/
namespace IndexedStore.Value

variable {v w : Value}

mutual

def Finite : Value → Prop
  | .number x => x.isFinite = true
  | .list items => FiniteItems items
  | .map entries => FiniteEntries entries
  | _ => True

def FiniteItems : List Value → Prop
  | [] => True
  | v :: rest => Finite v ∧ FiniteItems rest

def FiniteEntries : List (String × Value) → Prop
  | [] => True
  | (_, v) :: rest => Finite v ∧ FiniteEntries rest

end

/-- What holds of a value, of a list and of the entries of a map when it holds of their parts holds
of every value with finite numbers. -/
theorem induction_finite {P : Value → Prop} {Q : List Value → Prop}
    {R : List (String × Value) → Prop} (null : P .null) (bool : ∀ b, P (.bool b))
    (number : ∀ x : Number, x.isFinite = true → P (.number x)) (text : ∀ s, P (.text s))
    (list : ∀ items, Q items → P (.list items)) (map : ∀ entries, R entries → P (.map entries))
    (noItem : Q []) (item : ∀ v rest, P v → Q rest → Q (v :: rest)) (noEntry : R [])
    (entry : ∀ name v rest, P v → R rest → R ((name, v) :: rest)) (v : Value) : v.Finite → P v := by
  refine @Value.rec (fun v => v.Finite → P v) (fun items => FiniteItems items → Q items)
    (fun entries => FiniteEntries entries → R entries) (fun e => e.2.Finite → P e.2)
    ?null ?bool ?number ?text ?list ?map ?noItem ?item ?noEntry ?entry ?pair v
  case null => exact fun _ => null
  case bool => exact fun b _ => bool b
  case number => exact number
  case text => exact fun s _ => text s
  case list => exact fun items ih h => list items (ih h)
  case map => exact fun entries ih h => map entries (ih h)
  case noItem => exact fun _ => noItem
  case item => exact fun v rest hv ih h => item v rest (hv h.1) (ih h.2)
  case noEntry => exact fun _ => noEntry
  case entry => exact fun e rest hv ih h => entry e.1 e.2 rest (hv h.1) (ih h.2)
  case pair => exact fun _ _ hv => hv

def IsContainer : Value → Prop
  | .list _ => True
  | .map _ => True
  | _ => False

/-! ### Documents that keep numbers as they are -/

theorem toJsonWith_float_finite (v : Value) : v.Finite → (v.toJsonWith .float).Finite := by
  refine induction_finite (P := fun v => (v.toJsonWith .float).Finite)
    (Q := fun items => Json.FiniteItems (itemsToJson .float items))
    (R := fun entries => Json.FiniteMembers (entriesToJson .float entries))
    ?null ?bool ?number ?text ?list ?map ?noItem ?item ?noEntry ?entry v
  case null => exact trivial
  case bool => exact fun _ => trivial
  case number => exact fun _ hx => hx
  case text => exact fun _ => trivial
  case list => exact fun _ h => h
  case map => exact fun _ h => h
  case noItem => exact trivial
  case item => exact fun _ _ hv hrest => ⟨hv, hrest⟩
  case noEntry => exact trivial
  case entry => exact fun _ _ _ hv hrest => ⟨hv, hrest⟩

/-- A document in which every number is as it was gives the value back. -/
theorem toValue_toJsonWith_float (v : Value) : (v.toJsonWith .float).toValue = v := by
  refine @Value.rec (fun v => (v.toJsonWith .float).toValue = v)
    (fun items => Json.itemValues (itemsToJson .float items) = items)
    (fun entries => Json.memberValues (entriesToJson .float entries) = entries)
    (fun e => (e.2.toJsonWith .float).toValue = e.2)
    ?null ?bool ?number ?text ?list ?map ?noItem ?item ?noEntry ?entry ?pair v
  case null => rfl
  case bool => exact fun _ => rfl
  case number => exact fun _ => rfl
  case text => exact fun _ => rfl
  case list => exact fun _ ih => congrArg Value.list ih
  case map => exact fun _ ih => congrArg Value.map ih
  case noItem => rfl
  case item => exact fun _ _ hv ih => congrArg₂ List.cons hv ih
  case noEntry => rfl
  case entry =>
    intro e rest hv ih
    obtain ⟨name, v⟩ := e
    exact congrArg₂ (fun v rest => (name, v) :: rest) hv ih
  case pair => exact fun _ _ hv => hv

/-! ### Structural equality -/

/-- A value without infinite and undefined numbers has its own shape and content. -/
theorem same_self (v : Value) : v.Finite → v.same v = true := by
  refine induction_finite (P := fun v => v.same v = true)
    (Q := fun items => sameItems items items = true)
    (R := fun entries => sameEntries entries entries = true)
    ?null ?bool ?number ?text ?list ?map ?noItem ?item ?noEntry ?entry v
  case null => rfl
  case bool => exact beq_self_eq_true
  case number => exact fun _ hx => (Number.numericEq_iff hx hx).mpr rfl
  case text => exact beq_self_eq_true
  case list => exact fun _ h => h
  case map => exact fun _ h => h
  case noItem => rfl
  case item =>
    intro v rest hv hrest
    rw [sameItems, hv, hrest]
    rfl
  case noEntry => rfl
  case entry =>
    intro name v rest hv hrest
    rw [sameEntries, hv, hrest, beq_self_eq_true]
    rfl

/-! ### Buckets of lists and maps -/

theorem bucketText_of_isContainer (h : v.IsContainer) :
    v.bucketText = (v.toJsonWith .float).compact := by
  cases v with
  | list items => rfl
  | map entries => rfl
  | _ => exact absurd h id

/-- Lists and maps with finite numbers are in one bucket exactly when they are the same, number by
number. -/
theorem bucketText_eq_iff (hv : v.IsContainer) (hw : w.IsContainer) (hfv : v.Finite)
    (hfw : w.Finite) :
    (v.bucketText = w.bucketText ↔ v = w) ∧ (v.bucketText = w.bucketText → v.same w = true) := by
  have hinj : v.bucketText = w.bucketText → v = w := by
    intro htext
    rw [bucketText_of_isContainer hv, bucketText_of_isContainer hw] at htext
    have hdocument := Json.compact_inj (toJsonWith_float_finite v hfv)
      (toJsonWith_float_finite w hfw) htext
    rw [← toValue_toJsonWith_float v, hdocument, toValue_toJsonWith_float]
  refine ⟨⟨hinj, congrArg bucketText⟩, fun htext => ?_⟩
  rw [← hinj htext]
  exact same_self v hfv

def oneText : Value := .list [.text "a\",\"b", .map [("n", .number (Number.ofInt 1))]]

/-- The two texts that a reader of commas would take it for. -/
def twoTexts : Value := .list [.text "a", .text "b", .map [("n", .number (Number.ofInt 1))]]

theorem bucketText_ne_twoTexts :
    (oneText.IsContainer ∧ twoTexts.IsContainer ∧ oneText.Finite ∧ twoTexts.Finite) ∧
      oneText.bucketText ≠ twoTexts.bucketText ∧ oneText.same oneText = true := by
  have hwhole : (Number.ofInt 1).isFinite = true := by decide +kernel
  have hlist : oneText.IsContainer ∧ twoTexts.IsContainer := ⟨trivial, trivial⟩
  have hone : oneText.Finite := ⟨trivial, ⟨hwhole, trivial⟩, trivial⟩
  have htwo : twoTexts.Finite := ⟨trivial, trivial, ⟨hwhole, trivial⟩, trivial⟩
  refine ⟨⟨hlist.1, hlist.2, hone, htwo⟩, fun htext => ?_,
    (bucketText_eq_iff hlist.1 hlist.1 hone hone).2 rfl⟩
  have heq := (bucketText_eq_iff hlist.1 hlist.2 hone htwo).1.mp htext
  exact absurd (congrArg List.length (Value.list.inj heq)) (by simp)

end IndexedStore.Value
