import IndexedStore.Proofs.KeyTexts
import IndexedStore.Proofs.Selection

/-!
Filters told from their texts. The document of a value gives back what the value is compared by,
unless a number in it is not finite or is the negative zero of a list or a map. Filters whose
values are of this kind admit the same records when their texts are the same.
-/
namespace IndexedStore

namespace Number

variable {x : Number}

/-- A number that is not finite is written as null in documents. -/
theorem exchange_chars_of_not_finite (hx : x.isFinite = false) :
    NumberLayout.exchange.chars x = "null".toList := by
  unfold NumberLayout.chars
  rw [hx, if_neg Bool.false_ne_true]
  split_ifs
  · rfl
  · rfl
  · rfl

/-- The document of a number is an integer, the number itself, or null. -/
theorem toJson_cases (x : Number) :
    (∃ n, x.integer? = some n ∧ x.toJson = .int n) ∨
    (x.isFinite = true ∧ x.toJson = .float x) ∨ (x.isFinite = false ∧ x.toJson = .null) := by
  unfold toJson
  cases hinteger : x.integer? with
  | some n => exact Or.inl ⟨n, rfl, rfl⟩
  | none =>
    cases hfinite : x.isFinite with
    | true => exact Or.inr (Or.inl ⟨rfl, rfl⟩)
    | false => exact Or.inr (Or.inr ⟨rfl, rfl⟩)

end Number

namespace Value

mutual

def Signless : Value → Prop
  | .number x => ¬ (x.negative = true ∧ x.isZero = true)
  | .list items => SignlessItems items
  | .map entries => SignlessEntries entries
  | _ => True

def SignlessItems : List Value → Prop
  | [] => True
  | v :: rest => Signless v ∧ SignlessItems rest

def SignlessEntries : List (String × Value) → Prop
  | [] => True
  | (_, v) :: rest => Signless v ∧ SignlessEntries rest

end

/-- A value that its document tells from the values that it does not equal. -/
def Plain : Value → Prop
  | .number x => x.isFinite = true
  | .list items => SignlessItems items
  | .map entries => SignlessEntries entries
  | _ => True

def written (v : Value) : List Char := (v.toJsonWith .float).chars

theorem written_number (x : Number) (hx : Signless (.number x)) :
    written x.toJson.toValue = written (.number x) := by
  rcases x.toJson_cases with ⟨n, hinteger, hjson⟩ | ⟨-, hjson⟩ | ⟨hfinite, hjson⟩
  · rcases Number.ofInt_of_integer? hinteger with heq | ⟨hnegative, hzero, -⟩
    · rw [hjson, Json.toValue, heq]
    · exact absurd ⟨hnegative, hzero⟩ hx
  · rw [hjson]
    rfl
  · rw [hjson]
    exact (Number.exchange_chars_of_not_finite hfinite).symm

/-- The document of a value gives the text of the value back. -/
theorem written_toValue (v : Value) (hv : v.Signless) : written v.toJson.toValue = v.written := by
  revert hv
  refine @Value.rec (fun v => v.Signless → written v.toJson.toValue = v.written)
    (fun items => SignlessItems items →
      Json.itemChars (itemsToJson .float (Json.itemValues (itemsToJson Number.toJson items))) =
        Json.itemChars (itemsToJson .float items))
    (fun entries => SignlessEntries entries →
      Json.memberChars (entriesToJson .float (Json.memberValues
        (entriesToJson Number.toJson entries))) = Json.memberChars (entriesToJson .float entries))
    (fun e => e.2.Signless → written e.2.toJson.toValue = e.2.written)
    ?null ?bool ?number ?text ?list ?map ?noItem ?item ?noEntry ?entry ?pair v
  case null => exact fun _ => rfl
  case bool => exact fun _ _ => rfl
  case number => exact written_number
  case text => exact fun _ _ => rfl
  case list =>
    intro items ih h
    unfold written toJson
    simp only [toJsonWith, Json.toValue, Json.chars, ih h]
  case map =>
    intro entries ih h
    unfold written toJson
    simp only [toJsonWith, Json.toValue, Json.chars, ih h]
  case noItem => exact fun _ => rfl
  case item =>
    intro v rest hv ih h
    have hhead := hv h.1
    unfold written toJson at hhead
    simp only [itemsToJson, Json.itemValues, Json.itemChars, ih h.2, hhead]
  case noEntry => exact fun _ => rfl
  case entry =>
    intro e rest hv ih h
    have hhead := hv h.1
    unfold written toJson at hhead
    simp only [entriesToJson, Json.memberValues, Json.memberChars, ih h.2, hhead]
  case pair => exact fun _ _ hv => hv

/-- The document of a plain value gives back the text that the value is compared by. -/
theorem bucketText_toValue {v : Value} (hv : v.Plain) :
    v.toJson.toValue.bucketText = v.bucketText := by
  cases v with
  | null => rfl
  | bool b => rfl
  | text s => rfl
  | number x =>
    change x.toJson.toValue.bucketText = x.keyText
    rcases x.toJson_cases with ⟨n, hinteger, hjson⟩ | ⟨-, hjson⟩ | ⟨hfinite, -⟩
    · rw [hjson]
      exact Number.keyText_ofInt hinteger
    · rw [hjson]
      rfl
    · exact absurd (hfinite.symm.trans hv) Bool.false_ne_true
  | list items => exact congrArg String.ofList (written_toValue (.list items) hv)
  | map entries => exact congrArg String.ofList (written_toValue (.map entries) hv)

/-- The numbers of a value's document are finite. -/
theorem toJson_finite (v : Value) : v.toJson.Finite := by
  refine @Value.rec (fun v => v.toJson.Finite)
    (fun items => Json.FiniteItems (itemsToJson Number.toJson items))
    (fun entries => Json.FiniteMembers (entriesToJson Number.toJson entries))
    (fun e => e.2.toJson.Finite)
    ?null ?bool ?number ?text ?list ?map ?noItem ?item ?noEntry ?entry ?pair v
  case null => exact trivial
  case bool => exact fun _ => trivial
  case number =>
    intro x
    change x.toJson.Finite
    rcases x.toJson_cases with ⟨n, -, hjson⟩ | ⟨hfinite, hjson⟩ | ⟨-, hjson⟩
    · rw [hjson]
      exact trivial
    · rw [hjson]
      exact hfinite
    · rw [hjson]
      exact trivial
  case text => exact fun _ => trivial
  case list => exact fun _ ih => ih
  case map => exact fun _ ih => ih
  case noItem => exact trivial
  case item => exact fun _ _ hv ih => ⟨hv, ih⟩
  case noEntry => exact trivial
  case entry => exact fun _ _ hv ih => ⟨hv, ih⟩
  case pair => exact fun _ _ hv => hv

end Value

namespace Where

variable {q q' : Where} {required : List (String × Value)}

/-- Whether a filter is told by its text: no name can be taken for the names of an index, and the
required values are plain. -/
def Plain (q : Where) : Prop :=
  ¬ q.separated ∧ ∀ field v, (field, Clause.equals v) ∈ q.clauses → v.Plain

def document (required : List (String × Value)) : Json :=
  .object (required.map fun e => (e.1, e.2.toJson))

theorem document_finite (required : List (String × Value)) : (document required).Finite := by
  refine (Json.finiteMembers_iff _).mpr fun m hm => ?_
  obtain ⟨e, -, rfl⟩ := List.mem_map.mp hm
  exact e.2.toJson_finite

/-- Filters with texts have no predicates, and their texts are those of their documents. -/
theorem exists_of_cacheKey? {key : String} (h : q.cacheKey? = some key) :
    q.hasPredicates = false ∧ ∃ required : List (String × Value),
      q.clauses = required.map (fun e => (e.1, Clause.equals e.2)) ∧
        key = (document required).compact := by
  unfold cacheKey? at h
  cases hpredicates : q.hasPredicates with
  | true =>
    rw [hpredicates, if_pos rfl] at h
    exact absurd h (by simp)
  | false =>
    obtain ⟨required, hrequired⟩ := exists_required hpredicates
    rw [hpredicates, if_neg Bool.false_ne_true, hrequired, List.filterMap_map] at h
    refine ⟨rfl, required, hrequired, ?_⟩
    rw [← Option.some.inj h]
    unfold document
    rw [← List.filterMap_eq_map]
    rfl

/-- Plain filters with one document require the same of the same fields. -/
theorem admits_eq_of_document {required' : List (String × Value)} (hplain : q.Plain)
    (hplain' : q'.Plain)
    (hq : q.clauses = required.map fun e => (e.1, Clause.equals e.2))
    (hq' : q'.clauses = required'.map fun e => (e.1, Clause.equals e.2))
    (h : document required = document required') :
    q.fields = q'.fields ∧ ∀ fields, q.admits fields = q'.admits fields := by
  have hmembers : required.map (fun e => (e.1, e.2.toJson)) =
      required'.map fun e => (e.1, e.2.toJson) := Json.object.inj h
  have hnames : required.map Prod.fst = required'.map Prod.fst := by
    have hfirst := congrArg (List.map Prod.fst) hmembers
    rwa [List.map_map, List.map_map] at hfirst
  have htexts : ∀ {q : Where} {required : List (String × Value)}, q.Plain →
      q.clauses = required.map (fun e => (e.1, Clause.equals e.2)) →
      required.map (fun e => e.2.bucketText.toList) =
        (required.map fun e => (e.1, e.2.toJson)).map fun m => m.2.toValue.bucketText.toList := by
    intro q required hplain hq
    rw [List.map_map]
    refine List.map_congr_left fun e he => ?_
    have hmem : (e.1, Clause.equals e.2) ∈ q.clauses := hq ▸ List.mem_map_of_mem he
    exact congrArg String.toList (Value.bucketText_toValue (hplain.2 e.1 e.2 hmem)).symm
  refine ⟨by rw [fields_of_required hq, fields_of_required hq', hnames], fun fields => ?_⟩
  rw [Bool.eq_iff_iff, admits_of_required hq, admits_of_required hq', htexts hplain hq,
    htexts hplain' hq', hmembers, hnames]

theorem fault?_congr (h : q.fields = q'.fields) : q.fault? = q'.fault? := by
  have hfault : ∀ q : Where, q.fault? =
      if q.fields.isEmpty then some .whereEmpty
      else if q.fields.any (·.isEmpty) then some .whereFieldEmpty
      else none := by
    intro q
    unfold fault? fields SortedMap.names
    rw [List.isEmpty_map, List.any_map]
    rfl
  rw [hfault, hfault, h]

end Where
end IndexedStore
