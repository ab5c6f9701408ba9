import IndexedStore.Proofs.Delimited
import IndexedStore.Sorting.Order

/-!
Orders told from their signatures. A field that has the end of a key in it, with the comma behind,
can pass for more keys than one; orders without such fields have different signatures when they
differ, and the orders that are read are of this kind.
-/
namespace IndexedStore

open Delimited

def Direction.ending (d : Direction) : List Char := ' ' :: d.word.toList

theorem Direction.not_mem_word (d : Direction) : ' ' ∉ d.word.toList := by
  cases d with
  | ascending => decide
  | descending => decide

theorem Direction.ending_append_inj {d d' : Direction} {r r' : List Char}
    (h : d.ending ++ r = d'.ending ++ r') : d = d' ∧ r = r' := by
  cases d with
  | ascending =>
    cases d' with
    | ascending => exact ⟨rfl, List.append_cancel_left h⟩
    | descending => exact absurd h (by simp [ending, word])
  | descending =>
    cases d' with
    | ascending => exact absurd h (by simp [ending, word])
    | descending => exact ⟨rfl, List.append_cancel_left h⟩

/-- Whether no part of the field passes for the end of a key. -/
def SortKey.Plain (k : SortKey) : Prop :=
  ∀ d : Direction, ¬ (d.ending ++ [',']) <:+: k.field.toList

def SortOrder.Plain (o : SortOrder) : Prop := ∀ k ∈ o.keys, k.Plain

namespace SortKey

theorem toList_text (k : SortKey) : k.text.toList = k.field.toList ++ k.direction.ending := by
  unfold text Direction.ending
  rw [String.toList_append, String.toList_append, List.append_assoc]
  rfl

/-- A text without a blank that is followed by other text is found again before a blank. -/
theorem exists_of_append_blank {w r m x : List Char} (hw : ' ' ∉ w)
    (h : w ++ r = m ++ ' ' :: x) : ∃ m', m = w ++ m' ∧ r = m' ++ ' ' :: x := by
  rcases List.append_eq_append_iff.mp h with ⟨m', hm, hr⟩ | ⟨m', hword, hx⟩
  · exact ⟨m', hm, hr⟩
  · cases m' with
    | nil => exact ⟨[], by rw [hword, List.append_nil, List.append_nil], hx.symm⟩
    | cons c m' =>
      obtain ⟨rfl, -⟩ := List.cons.inj hx
      exact absurd (hword ▸ by simp) hw

/-- Of two keys that are read from one text neither has the longer field. -/
theorem eq_nil_of_ending {d d' : Direction} {m r r' : List Char} (hr : Ends ',' r)
    (hplain : ¬ (d.ending ++ [',']) <:+: m) (h : d.ending ++ r = m ++ (d'.ending ++ r')) :
    m = [] := by
  cases m with
  | nil => rfl
  | cons c m =>
    obtain ⟨rfl, hword⟩ := List.cons.inj h
    obtain ⟨m', rfl, hrest⟩ := exists_of_append_blank d.not_mem_word hword
    cases m' with
    | nil => exact absurd (hr ' ' _ hrest) (by decide)
    | cons c m' =>
      obtain rfl := hr c _ hrest
      exact absurd ⟨[], m', by simp [Direction.ending]⟩ hplain

/-- The key at the beginning of a text, and the text behind it. -/
theorem text_append_inj {k k' : SortKey} (hk : k.Plain) (hk' : k'.Plain) {r r' : List Char}
    (hr : Ends ',' r) (hr' : Ends ',' r') (h : k.text.toList ++ r = k'.text.toList ++ r') :
    k = k' ∧ r = r' := by
  rw [toList_text, toList_text, List.append_assoc, List.append_assoc] at h
  have hcontained : ∀ {m field rest : List Char} {d : Direction}, field = rest ++ m →
      ¬ (d.ending ++ [',']) <:+: field → ¬ (d.ending ++ [',']) <:+: m := by
    intro m field rest d hfield hnot hm
    exact hnot (hm.trans (hfield ▸ List.suffix_append rest m).isInfix)
  have hfield : k.field.toList = k'.field.toList := by
    rcases List.append_eq_append_iff.mp h with ⟨m, hm, hrest⟩ | ⟨m, hm, hrest⟩
    · rw [hm, eq_nil_of_ending hr (hcontained hm (hk' _)) hrest, List.append_nil]
    · rw [hm, eq_nil_of_ending hr' (hcontained hm (hk _)) hrest, List.append_nil]
  rw [hfield] at h
  obtain ⟨hdirection, hrest⟩ := Direction.ending_append_inj (List.append_cancel_left h)
  obtain ⟨field, d⟩ := k
  obtain ⟨field', d'⟩ := k'
  obtain rfl := String.toList_inj.mp hfield
  exact ⟨by rw [show d = d' from hdirection], hrest⟩

end SortKey

namespace SortOrder

variable {o o' : SortOrder}

theorem toList_signature (o : SortOrder) :
    o.signature.toList = [','].intercalate (o.keys.map fun k => k.text.toList) := by
  unfold signature
  rw [String.toList_intercalate, List.map_map]
  rfl

/-- A signature is empty or ends in the last letter of a direction. -/
theorem getLast?_signature (o : SortOrder) :
    (o.keys = [] ∧ o.signature.toList = []) ∨ o.signature.toList.getLast? = some 'c' := by
  have hkey : ∀ k : SortKey, k.text.toList.getLast? = some 'c' := by
    intro k
    rw [SortKey.toList_text, List.getLast?_append]
    cases k.direction with
    | ascending => rfl
    | descending => rfl
  rw [toList_signature]
  generalize o.keys = keys
  induction keys with
  | nil => exact Or.inl ⟨rfl, rfl⟩
  | cons k rest ih =>
    right
    cases rest with
    | nil => rw [List.map_singleton, List.intercalate_singleton, hkey]
    | cons k' rest =>
      rcases ih with ⟨hnil, -⟩ | hlast
      · exact absurd hnil (List.cons_ne_nil k' rest)
      · rw [List.map_cons] at hlast
        rw [List.map_cons, List.map_cons, List.intercalate_cons_cons, List.getLast?_append, hlast]
        rfl

/-- Plain orders have different signatures when they differ. -/
theorem signature_inj (ho : o.Plain) (ho' : o'.Plain) (h : o.signature = o'.signature) :
    o = o' := by
  have hempty : ∀ {o : SortOrder}, o.signature.toList = [] → o.keys = [] := by
    intro o hnil
    rcases getLast?_signature o with ⟨hkeys, -⟩ | hlast
    · exact hkeys
    · rw [hnil] at hlast
      exact absurd hlast (by simp)
  have htexts := congrArg String.toList h
  obtain ⟨keys⟩ := o
  obtain ⟨keys'⟩ := o'
  cases keys with
  | nil =>
    have hkeys' := hempty (htexts.symm.trans rfl)
    dsimp only at hkeys'
    rw [hkeys']
  | cons k rest =>
    cases keys' with
    | nil => exact absurd (hempty (htexts.trans rfl)) (List.cons_ne_nil k rest)
    | cons k' rest' =>
      rw [toList_signature, toList_signature] at htexts
      have hkeys := joined_inj (R := Eq)
        (fun a ha b hb r r' hr hr' => SortKey.text_append_inj (ho a ha) (ho' b hb) hr hr')
        (List.cons_ne_nil k rest) (List.cons_ne_nil k' rest') htexts
      rw [List.forall₂_eq_eq_eq] at hkeys
      exact congrArg SortOrder.mk hkeys

/-! ### Orders that are read -/

theorem not_isBlank_of_mem_words {cs word : List Char} (hword : word ∈ Text.words cs) :
    ∀ c ∈ word, Text.isBlank c = false := by
  have hsingle : ∀ {c : Char} {word : List Char}, ¬ Text.isBlank c = true → word = [c] →
      ∀ c ∈ word, Text.isBlank c = false := by
    rintro c _ hc rfl d hd
    rw [List.mem_singleton.mp hd]
    simpa using hc
  fun_induction Text.words cs generalizing word with
  | case1 => exact absurd hword List.not_mem_nil
  | case2 c r hblank ih => exact ih hword
  | case3 c hc => exact hsingle hc (List.mem_singleton.mp hword)
  | case4 c hc d r hd ih =>
    rcases List.mem_cons.mp hword with hfirst | hrest
    · exact hsingle hc hfirst
    · exact ih hrest
  | case5 c hc d r hd hnil ih =>
    rw [hnil] at hword
    exact hsingle hc (List.mem_singleton.mp hword)
  | case6 c hc d r hd piece pieces hpieces ih =>
    rw [hpieces] at hword
    rcases List.mem_cons.mp hword with rfl | hrest
    · rw [List.forall_mem_cons]
      exact ⟨by simpa using hc, ih (hpieces ▸ List.mem_cons_self ..)⟩
    · exact ih (hpieces ▸ List.mem_cons_of_mem _ hrest)

theorem plain_of_words {cs field : List Char} (hfield : field ∈ Text.words cs) (d : Direction) :
    SortKey.Plain ⟨String.ofList field, d⟩ := by
  rintro d' hcontained
  rw [String.toList_ofList] at hcontained
  have hmem : ' ' ∈ field := hcontained.subset (by simp [Direction.ending])
  have hblank : Text.isBlank ' ' = true := by decide +kernel
  exact Bool.false_ne_true ((not_isBlank_of_mem_words hfield ' ' hmem).symm.trans hblank)

theorem item_plain {text : String} {cs : List Char} {k : SortKey} (h : item text cs = .ok k) :
    k.Plain := by
  unfold item at h
  split at h
  · rename_i field hwords
    obtain rfl := Except.ok.inj h
    exact plain_of_words (hwords ▸ List.mem_singleton_self field) _
  · rename_i field word hwords
    split at h
    · obtain rfl := Except.ok.inj h
      exact plain_of_words (hwords ▸ List.mem_cons_self ..) _
    · exact absurd h (by simp)
  · exact absurd h (by simp)
  · exact absurd h (by simp)

/-- Reading items one after another reads each of them. -/
theorem mapM_eq_ok_iff {α β ε : Type} {f : α → Except ε β} {l : List α} {found : List β} :
    l.mapM f = .ok found ↔ List.Forall₂ (fun a b => f a = .ok b) l found := by
  induction l generalizing found with
  | nil =>
    rw [List.forall₂_nil_left_iff]
    exact ⟨fun h => (Except.ok.inj h).symm, fun h => h ▸ rfl⟩
  | cons a rest ih =>
    rw [List.mapM_cons, List.forall₂_cons_left_iff]
    cases hfirst : f a with
    | error fault => simp [bind, Except.bind]
    | ok b =>
      simp only [← ih]
      cases hrest : rest.mapM f with
      | error fault => simp [bind, Except.bind]
      | ok others => simp [bind, Except.bind, pure, Except.pure, eq_comm]

theorem mapM_item_plain {text : String} {pieces : List (List Char)} {keys : List SortKey}
    (h : pieces.mapM (item text) = .ok keys) : ∀ k ∈ keys, k.Plain := by
  have hitems := mapM_eq_ok_iff.mp h
  clear h
  induction hitems with
  | nil => exact fun _ hk => absurd hk List.not_mem_nil
  | cons hitem _ ih => exact List.forall_mem_cons.mpr ⟨item_plain hitem, ih⟩

/-- Every order that is read is plain. -/
theorem read_plain {text : String} (h : read text = .ok o) : o.Plain := by
  unfold read at h
  split_ifs at h
  split at h
  · rename_i keys hkeys
    obtain rfl := Except.ok.inj h
    exact mapM_item_plain hkeys
  · exact absurd h (by simp)

end SortOrder
end IndexedStore
