import IndexedStore.Proofs.OrderTexts

/-!
Orders read back from their signatures. A written order is read item by item, each item being a
field alone or a field and the word of a direction. The fields that come out of this have neither
a blank nor a comma in them, so the signature is read as the order itself; and orders that are
read are the same when their signatures are.
-/
namespace IndexedStore

namespace Text

variable {cs word : List Char}

/-! ### Words -/

theorem words_blank {c : Char} (hc : isBlank c = true) : words (c :: cs) = words cs := by
  rw [words.eq_def]
  exact if_pos hc

/-- A word in front of a blank, or of nothing, is the first word. -/
theorem words_append {rest : List Char} (hword : word ≠ []) (hfull : ∀ c ∈ word, isBlank c = false)
    (hrest : ∀ c ∈ rest.head?, isBlank c = true) : words (word ++ rest) = word :: words rest := by
  induction word with
  | nil => exact absurd rfl hword
  | cons c word ih =>
    have hc : ¬ isBlank c = true := by rw [hfull c List.mem_cons_self]; exact Bool.false_ne_true
    rw [List.cons_append, words.eq_def]
    dsimp only
    rw [if_neg hc]
    cases word with
    | nil =>
      cases rest with
      | nil => rfl
      | cons d rest => exact if_pos (hrest d rfl)
    | cons d word =>
      have hfull' := fun e he => hfull e (List.mem_cons_of_mem _ he)
      have hd : ¬ isBlank d = true := by
        rw [hfull' d List.mem_cons_self]
        exact Bool.false_ne_true
      rw [ih (List.cons_ne_nil d word) hfull']
      exact if_neg hd

theorem mem_words (hword : word ∈ words cs) : word ≠ [] ∧ ∀ c ∈ word, c ∈ cs := by
  have hsingle : ∀ {c : Char} {r word : List Char}, word = [c] →
      word ≠ [] ∧ ∀ d ∈ word, d ∈ c :: r := by
    rintro c r _ rfl
    exact ⟨List.cons_ne_nil c [], fun d hd => List.mem_singleton.mp hd ▸ List.mem_cons_self⟩
  fun_induction words cs generalizing word with
  | case1 => exact absurd hword List.not_mem_nil
  | case2 c r hblank ih => exact (ih hword).imp_right fun h d hd => List.mem_cons_of_mem _ (h d hd)
  | case3 c hc => exact hsingle (List.mem_singleton.mp hword)
  | case4 c hc d r hd ih =>
    rcases List.mem_cons.mp hword with hfirst | hrest
    · exact hsingle hfirst
    · exact (ih hrest).imp_right fun h e he => List.mem_cons_of_mem _ (h e he)
  | case5 c hc d r hd hnil ih =>
    rw [hnil] at hword
    exact hsingle (List.mem_singleton.mp hword)
  | case6 c hc d r hd piece pieces hpieces ih =>
    rw [hpieces] at hword
    rcases List.mem_cons.mp hword with rfl | hrest
    · obtain ⟨-, hmem⟩ := ih (hpieces ▸ List.mem_cons_self ..)
      refine ⟨List.cons_ne_nil c piece, List.forall_mem_cons.mpr ⟨List.mem_cons_self, ?_⟩⟩
      exact fun e he => List.mem_cons_of_mem _ (hmem e he)
    · obtain ⟨hfilled, hmem⟩ := ih (hpieces ▸ List.mem_cons_of_mem _ hrest)
      exact ⟨hfilled, fun e he => List.mem_cons_of_mem _ (hmem e he)⟩

/-- What is left of a text without the blanks at its ends is empty when all of it is blank. -/
theorem trim_eq_nil_iff : trim cs = [] ↔ ∀ c ∈ cs, isBlank c = true := by
  have hdropped : ∀ l : List Char, l.dropWhile isBlank = [] ↔ ∀ c ∈ l, isBlank c = true := by
    intro l
    induction l with
    | nil => simp
    | cons c l ih => by_cases hc : isBlank c = true <;> simp [hc, ih]
  unfold trim
  rw [List.reverse_eq_nil_iff, hdropped]
  constructor
  · intro h
    refine (hdropped cs).mp ?_
    by_contra hleft
    have hhead := List.head_dropWhile_not isBlank hleft
    rw [h _ (List.mem_reverse.mpr (List.head_mem hleft))] at hhead
    exact absurd hhead (by simp)
  · intro h
    rw [(hdropped cs).mpr h]
    simp

end Text

theorem Direction.ofWord?_eq_some_iff {word : List Char} {d : Direction} :
    Direction.ofWord? word = some d ↔ Text.eqIgnoringCase word d.word.toList = true := by
  have hdiffer : ¬ (Text.eqIgnoringCase word ascending.word.toList = true ∧
      Text.eqIgnoringCase word descending.word.toList = true) := by
    unfold Text.eqIgnoringCase
    rintro ⟨hasc, hdesc⟩
    have hsame := (beq_iff_eq.mp hasc).symm.trans (beq_iff_eq.mp hdesc)
    exact absurd hsame (by decide)
  unfold Direction.ofWord?
  split_ifs with hasc hdesc <;> cases d <;> simp_all

namespace SortOrder

open Delimited

variable {text : String} {cs : List Char} {k : SortKey} {o : SortOrder}

/-! ### Items -/

/-- How a key is written: its field alone when it ascends, or its field and the word of its
direction in any case. -/
inductive Says (cs : List Char) (k : SortKey) : Prop where
  | bare (hwords : Text.words cs = [k.field.toList]) (hdirection : k.direction = .ascending)
  | directed (word : List Char) (hwords : Text.words cs = [k.field.toList, word])
      (hword : Text.eqIgnoringCase word k.direction.word.toList = true)

theorem item_eq_ok_iff : item text cs = .ok k ↔ Says cs k := by
  obtain ⟨name, d⟩ := k
  unfold item
  constructor
  · intro h
    split at h
    · rename_i field hwords
      obtain ⟨rfl, rfl⟩ := SortKey.mk.inj (Except.ok.inj h)
      exact .bare (hwords.trans (by rw [String.toList_ofList])) rfl
    · rename_i field word hwords
      split at h
      · rename_i direction hdirection
        obtain ⟨rfl, rfl⟩ := SortKey.mk.inj (Except.ok.inj h)
        exact .directed word (hwords.trans (by rw [String.toList_ofList]))
          (Direction.ofWord?_eq_some_iff.mp hdirection)
      · exact absurd h (by simp)
    · exact absurd h (by simp)
    · exact absurd h (by simp)
  · rintro (⟨hwords, hdirection⟩ | ⟨word, hwords, hword⟩)
    · rw [hwords, show d = .ascending from hdirection]
      simp
    · rw [hwords]
      dsimp only
      rw [Direction.ofWord?_eq_some_iff.mpr hword, String.ofList_toList]

/-- A written order is read when it is not blank and each item between commas says a key. -/
theorem read_eq_ok_iff : read text = .ok o ↔ (∃ c ∈ text.toList, Text.isBlank c = false) ∧
    List.Forall₂ Says (Text.splitAt ',' text.toList) o.keys := by
  have hblank : (Text.trim text.toList).isEmpty = true ↔
      ¬ ∃ c ∈ text.toList, Text.isBlank c = false := by
    rw [List.isEmpty_iff, Text.trim_eq_nil_iff]
    simp
  have hitems : (Text.splitAt ',' text.toList).mapM (item text) = .ok o.keys ↔
      List.Forall₂ Says (Text.splitAt ',' text.toList) o.keys := by
    simp only [mapM_eq_ok_iff, item_eq_ok_iff]
  unfold read
  rw [← hitems]
  split_ifs with hempty
  · exact ⟨fun h => absurd h (by simp), fun h => absurd h.1 (hblank.mp hempty)⟩
  · rw [hblank, not_not] at hempty
    rw [and_iff_right hempty]
    obtain ⟨keys⟩ := o
    cases (Text.splitAt ',' text.toList).mapM (item text) <;> simp

/-- The items that say a key: a field alone, or a field and a direction in any case. -/
theorem exists_says_iff : (∃ k, Says cs k) ↔ (∃ field, Text.words cs = [field]) ∨
    ∃ field word, Text.words cs = [field, word] ∧ (Text.eqIgnoringCase word "asc".toList = true ∨
      Text.eqIgnoringCase word "desc".toList = true) := by
  constructor
  · rintro ⟨k, ⟨hwords, -⟩ | ⟨word, hwords, hword⟩⟩
    · exact .inl ⟨_, hwords⟩
    · refine .inr ⟨_, word, hwords, ?_⟩
      cases hdirection : k.direction with
      | ascending => rw [hdirection] at hword; exact .inl hword
      | descending => rw [hdirection] at hword; exact .inr hword
  · rintro (⟨field, hwords⟩ | ⟨field, word, hwords, hasc | hdesc⟩)
    · exact ⟨⟨.ofList field, .ascending⟩, .bare (by rw [hwords, String.toList_ofList]) rfl⟩
    · exact ⟨⟨.ofList field, .ascending⟩,
        .directed word (by rw [hwords, String.toList_ofList]) hasc⟩
    · exact ⟨⟨.ofList field, .descending⟩,
        .directed word (by rw [hwords, String.toList_ofList]) hdesc⟩

theorem exists_forall₂_says_iff {pieces : List (List Char)} :
    (∃ keys, List.Forall₂ Says pieces keys) ↔ ∀ piece ∈ pieces, ∃ k, Says piece k := by
  constructor
  · rintro ⟨keys, hkeys⟩
    induction hkeys with
    | nil => exact fun _ hpiece => absurd hpiece List.not_mem_nil
    | cons hitem _ ih => exact List.forall_mem_cons.mpr ⟨⟨_, hitem⟩, ih⟩
  · intro h
    induction pieces with
    | nil => exact ⟨[], .nil⟩
    | cons piece rest ih =>
      obtain ⟨⟨k, hk⟩, hrest⟩ := List.forall_mem_cons.mp h
      obtain ⟨keys, hkeys⟩ := ih hrest
      exact ⟨k :: keys, .cons hk hkeys⟩

/-! ### Fields that are read -/

structure Writable (field : List Char) : Prop where
  ne_nil : field ≠ []
  full : ∀ c ∈ field, Text.isBlank c = false
  single : ',' ∉ field

theorem Says.writable (h : Says cs k) (hcs : ',' ∉ cs) : Writable k.field.toList := by
  have hmem : k.field.toList ∈ Text.words cs := by
    rcases h with ⟨hwords, -⟩ | ⟨word, hwords, -⟩ <;> rw [hwords] <;> exact List.mem_cons_self
  obtain ⟨hfilled, hchars⟩ := Text.mem_words hmem
  exact ⟨hfilled, not_isBlank_of_mem_words hmem, fun hcomma => hcs (hchars _ hcomma)⟩

theorem forall_writable {pieces : List (List Char)} {keys : List SortKey}
    (h : List.Forall₂ Says pieces keys) (hpieces : ∀ piece ∈ pieces, ',' ∉ piece) :
    ∀ k ∈ keys, Writable k.field.toList := by
  induction h with
  | nil => exact fun _ hk => absurd hk List.not_mem_nil
  | cons hitem _ ih =>
    obtain ⟨hpiece, hrest⟩ := List.forall_mem_cons.mp hpieces
    exact List.forall_mem_cons.mpr ⟨hitem.writable hpiece, ih hrest⟩

theorem writable_word (d : Direction) : Writable d.word.toList := by
  have hfull : (d.word.toList.all fun c => !Text.isBlank c) = true := by
    cases d <;> decide +kernel
  refine ⟨?_, fun c hc => by simpa using List.all_eq_true.mp hfull c hc, ?_⟩
  · cases d <;> decide
  · cases d <;> decide

theorem says_text (hk : Writable k.field.toList) : Says k.text.toList k := by
  have hword := writable_word k.direction
  have hblank : Text.isBlank ' ' = true := by decide +kernel
  have hdirection : Text.words k.direction.ending = [k.direction.word.toList] := by
    have hlast : Text.words (k.direction.word.toList ++ []) = [k.direction.word.toList] :=
      Text.words_append hword.ne_nil hword.full (by simp)
    rw [List.append_nil] at hlast
    rw [Direction.ending, Text.words_blank hblank, hlast]
  refine .directed k.direction.word.toList ?_ (beq_self_eq_true _)
  rw [SortKey.toList_text, Text.words_append hk.ne_nil hk.full, hdirection]
  exact fun c hc => Option.some.inj (Option.mem_def.mp hc) ▸ hblank

theorem not_mem_text (hk : Writable k.field.toList) : ',' ∉ k.text.toList := by
  rw [SortKey.toList_text, List.mem_append, Direction.ending, List.mem_cons]
  rintro (hfield | hblank | hword)
  · exact hk.single hfield
  · exact absurd hblank (by decide)
  · exact (writable_word k.direction).single hword

/-- The signature of an order with fields that can be written is read as the order. -/
theorem read_signature_of_writable (hkeys : o.keys ≠ [])
    (hfields : ∀ k ∈ o.keys, Writable k.field.toList) : read o.signature = .ok o := by
  have hpieces : Text.splitAt ',' o.signature.toList = o.keys.map fun k => k.text.toList := by
    rw [toList_signature]
    refine splitAt_joined (by simpa using hkeys) fun piece hpiece => ?_
    obtain ⟨k, hk, rfl⟩ := List.mem_map.mp hpiece
    exact not_mem_text (hfields k hk)
  rw [read_eq_ok_iff, hpieces, List.forall₂_map_left_iff, List.forall₂_same]
  refine ⟨?_, fun k hk => says_text (hfields k hk)⟩
  rcases getLast?_signature o with ⟨hnone, -⟩ | hlast
  · exact absurd hnone hkeys
  · exact ⟨'c', List.mem_of_getLast? hlast, by decide +kernel⟩

/-- Every order that is read is read again from its signature. -/
theorem read_signature_of_read (h : read text = .ok o) : read o.signature = .ok o := by
  obtain ⟨-, hitems⟩ := read_eq_ok_iff.mp h
  refine read_signature_of_writable ?_ (forall_writable hitems fun _ => not_mem_of_mem_splitAt)
  intro hnone
  rw [hnone, List.forall₂_nil_right_iff] at hitems
  exact splitAt_ne_nil _ hitems

/-- Orders survive their signatures. An order is read when it is not blank and each item between
commas is a field, or a field and a direction; what it is read as has the keys that the items say,
is read once more from its signature, and has the signature of another order that is read only if
it has the keys of that order. -/
theorem read_signature (text : String) :
    ((∃ o, read text = .ok o) ↔ (∃ c ∈ text.toList, Text.isBlank c = false) ∧
      ∀ piece ∈ Text.splitAt ',' text.toList, (∃ field, Text.words piece = [field]) ∨
        ∃ field word, Text.words piece = [field, word] ∧
          (Text.eqIgnoringCase word "asc".toList = true ∨
            Text.eqIgnoringCase word "desc".toList = true)) ∧
    ∀ o, read text = .ok o →
      List.Forall₂ Says (Text.splitAt ',' text.toList) o.keys ∧
      read o.signature = .ok o ∧
      (∀ again, read o.signature = .ok again → again.signature = o.signature) ∧
      ∀ text' o', read text' = .ok o' → (o.signature = o'.signature ↔ o.keys = o'.keys) := by
  refine ⟨?_, fun o ho => ⟨(read_eq_ok_iff.mp ho).2, read_signature_of_read ho, ?_, ?_⟩⟩
  · simp only [read_eq_ok_iff, exists_and_left, ← exists_says_iff]
    rw [← exists_forall₂_says_iff]
    exact and_congr_right fun _ => ⟨fun ⟨o, ho⟩ => ⟨o.keys, ho⟩, fun ⟨keys, h⟩ => ⟨⟨keys⟩, h⟩⟩
  · intro again hagain
    rw [read_signature_of_read ho] at hagain
    rw [Except.ok.inj hagain]
  · intro text' o' ho'
    constructor
    · intro hsignature
      have hsame := read_signature_of_read ho
      rw [hsignature, read_signature_of_read ho'] at hsame
      rw [Except.ok.inj hsame]
    · intro hkeys
      obtain ⟨keys⟩ := o
      obtain ⟨keys'⟩ := o'
      rw [show keys = keys' from hkeys]

/-- A field may have the name of a direction, and any characters but blanks and commas. -/
theorem read_signature_field_desc :
    ∃ o, read " desc DESC,b.c! " = .ok o ∧ o.signature = "desc desc,b.c! asc" ∧
      read o.signature = .ok o ∧ read "desc desc asc" = .error (.orderItem "desc desc asc") := by
  have hread : read " desc DESC,b.c! " =
      .ok ⟨[⟨"desc", .descending⟩, ⟨"b.c!", .ascending⟩]⟩ := by decide +kernel
  obtain ⟨-, hagain, -, -⟩ := (read_signature " desc DESC,b.c! ").2 _ hread
  exact ⟨_, hread, by decide +kernel, hagain, by decide +kernel⟩

end SortOrder
end IndexedStore
