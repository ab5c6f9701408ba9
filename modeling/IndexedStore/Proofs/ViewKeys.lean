import IndexedStore.Proofs.DocumentPlaces
import IndexedStore.Proofs.FilterTexts
import IndexedStore.Proofs.OrderTexts

/-!
The keys of sorted views. A key is the signature of the order, and behind `@` the text of the
filter. Plain requests under one key ask for the same records in the same order; numbers that are
not finite, and names and fields with separators in them, make keys that requests share.
-/
namespace IndexedStore

/-- A request that its key tells from the requests with other answers. -/
structure ViewCache.Plain (order : SortOrder) (filter : Option Where) : Prop where
  order : order.Plain
  filter : ∀ q, filter = some q → q.Plain

namespace ViewCache

variable {order order' : SortOrder} {filter filter' : Option Where} {key : String}

theorem keyFor_cases (h : keyFor order filter = some key) :
    (filter = none ∧ key = order.signature) ∨
    ∃ (q : Where) (required : List (String × Value)), filter = some q ∧
      q.hasPredicates = false ∧ q.clauses = required.map (fun e => (e.1, Clause.equals e.2)) ∧
      key.toList = order.signature.toList ++ '@' :: (Where.document required).chars := by
  cases filter with
  | none => exact Or.inl ⟨rfl, (Option.some.inj h).symm⟩
  | some q =>
    obtain ⟨text, htext, rfl⟩ := Option.map_eq_some_iff.mp h
    obtain ⟨hpredicates, required, hrequired, rfl⟩ := Where.exists_of_cacheKey? htext
    refine Or.inr ⟨q, required, rfl, hpredicates, hrequired, ?_⟩
    have hchars : (Where.document required).compact.toList = (Where.document required).chars :=
      String.toList_ofList
    rw [String.toList_append, String.toList_append, hchars, List.append_assoc]
    rfl

/-- The key of a filtered view is not the key of an unfiltered one. -/
theorem signature_ne_filtered (order : SortOrder) (t : List Char)
    (required : List (String × Value)) :
    order.signature.toList ≠ t ++ '@' :: (Where.document required).chars := by
  intro h
  have hclosing : (t ++ '@' :: (Where.document required).chars).getLast? = some '\x7d' := by
    have hchars : t ++ '@' :: (Where.document required).chars =
        (t ++ '@' :: '\x7b' :: Json.commaSeparated (Json.memberChars
          (required.map fun e => (e.1, e.2.toJson)))) ++ ['\x7d'] := by
      rw [List.append_assoc]
      rfl
    rw [hchars, List.getLast?_append]
    rfl
  rw [← h] at hclosing
  rcases order.getLast?_signature with ⟨-, hnil⟩ | hlast
  · rw [hnil] at hclosing
    exact absurd hclosing (by simp)
  · exact absurd (hlast.symm.trans hclosing) (by decide)

end ViewCache

namespace Contents

variable {c c' : Contents} {order order' : SortOrder} {filter filter' : Option Where}

/-- What a filter without predicates admits, when no name can be taken for the names of an index. -/
theorem Consistent.filtered_eq (h : c.Consistent) {q : Where} (hseparated : ¬ q.separated)
    (hpredicates : q.hasPredicates = false) :
    c.filtered (some q) =
      match q.fault? with
      | some fault => .error (.invalidArguments fault)
      | none => .ok (c.matching q) := by
  change c.admitted q = _
  cases hfault : q.fault? with
  | some fault =>
    unfold admitted Where.compile
    rw [hfault]
  | none => exact (h.admitted_eq hfault hpredicates).2 fun _ => hseparated

/-- Plain requests under one key sort the same records in the same way, whatever indexes there
are. -/
theorem Consistent.sorted_eq (h : c.Consistent) (h' : c'.Consistent)
    (hsnapshots : c'.snapshots = c.snapshots) (hplain : ViewCache.Plain order filter)
    (hplain' : ViewCache.Plain order' filter') {key : String}
    (hkey : ViewCache.keyFor order filter = some key)
    (hkey' : ViewCache.keyFor order' filter' = some key) :
    c'.sorted order' filter' = c.sorted order filter := by
  rcases ViewCache.keyFor_cases hkey with
    ⟨rfl, htext⟩ | ⟨q, required, rfl, hpredicates, hrequired, htext⟩
  · rcases ViewCache.keyFor_cases hkey' with
      ⟨rfl, htext'⟩ | ⟨q', required', rfl, -, -, htext'⟩
    · have horder := SortOrder.signature_inj hplain.order hplain'.order (htext.symm.trans htext')
      unfold sorted filtered
      rw [horder, hsnapshots]
    · rw [htext] at htext'
      exact absurd htext' (ViewCache.signature_ne_filtered _ _ _)
  · rcases ViewCache.keyFor_cases hkey' with
      ⟨rfl, htext'⟩ | ⟨q', required', rfl, hpredicates', hrequired', htext'⟩
    · rw [htext'] at htext
      exact absurd htext (ViewCache.signature_ne_filtered _ _ _)
    · obtain ⟨hsignature, hdocument⟩ := Json.at_chars_inj (Where.document_finite required)
        (Where.document_finite required') (htext.symm.trans htext')
      have horder := SortOrder.signature_inj hplain.order hplain'.order
        (String.toList_inj.mp hsignature)
      have hq := hplain.filter q rfl
      have hq' := hplain'.filter q' rfl
      obtain ⟨hfields, hadmits⟩ := Where.admits_eq_of_document hq hq' hrequired hrequired' hdocument
      have hmatching : c'.matching q' = c.matching q := by
        unfold matching
        rw [hsnapshots]
        exact List.filter_congr fun r _ => (hadmits r.fields).symm
      unfold sorted
      rw [h.filtered_eq hq.1 hpredicates, h'.filtered_eq hq'.1 hpredicates',
        Where.fault?_congr hfields, hmatching, horder]

end Contents

end IndexedStore
