import IndexedStore.Json.Reader
import IndexedStore.Json.Text
import IndexedStore.Proofs.Delimited
import IndexedStore.Proofs.NumberTexts

/-!
Documents told from their compact texts. A quoted text reads back, a number reads back as what it
was, and brackets and commas show where items end, so documents whose numbers are finite have
different texts when they differ.
-/
namespace IndexedStore.Json

/-! ### Quoted texts -/

theorem takeUnicode_control {n : Nat} (hn : n < 0x20) (r : List Char) :
    takeUnicode ('0' :: '0' :: hexDigit (n / 16) :: hexDigit n :: r) =
      some (Char.ofNat n, r) := by
  interval_cases n <;> rfl

/-- An escaped character is read back. -/
theorem takeQuoted_escapedChar (fuel : Nat) (read : List Char) (c : Char) (r : List Char) :
    takeQuoted (fuel + 1) read (escapedChar c ++ r) = takeQuoted fuel (c :: read) r := by
  unfold escapedChar
  split
  · rfl
  · rfl
  · rfl
  · rfl
  · rfl
  · rfl
  · rfl
  · rename_i hquote hbackslash _ _ _ _ _
    split_ifs with hcontrol
    · have hread := takeUnicode_control hcontrol r
      rw [Char.ofNat_toNat] at hread
      simp only [List.cons_append, List.nil_append, takeQuoted, takeEscape, hread]
    · rw [List.singleton_append]
      have hplain : takeQuoted (fuel + 1) read (c :: r) =
          if c.toNat < 0x20 then none else takeQuoted fuel (c :: read) r := by
        rw [takeQuoted]
        · exact hquote
        · exact hbackslash
      rw [hplain, if_neg hcontrol]

/-- A quoted text is read back, whatever stands behind it. -/
theorem takeQuoted_escaped (s : List Char) (read r : List Char) (fuel : Nat)
    (hfuel : s.length ≤ fuel) :
    takeQuoted fuel read (s.flatMap escapedChar ++ '"' :: r) =
      some (String.ofList (read.reverse ++ s), r) := by
  induction s generalizing read fuel with
  | nil =>
    rw [List.append_nil]
    cases fuel with
    | zero => rfl
    | succ fuel => rfl
  | cons c s ih =>
    rw [List.length_cons] at hfuel
    obtain ⟨fuel, rfl⟩ : ∃ n, fuel = n + 1 := ⟨fuel - 1, by omega⟩
    rw [List.flatMap_cons, List.append_assoc, takeQuoted_escapedChar,
      ih (c :: read) fuel (by omega), List.reverse_cons, List.append_assoc, List.singleton_append]

theorem quotedChars_append_inj {s s' : String} {r r' : List Char}
    (h : quotedChars s ++ r = quotedChars s' ++ r') : s = s' ∧ r = r' := by
  have hread : ∀ (s : String) (r : List Char) (fuel : Nat), s.toList.length ≤ fuel →
      takeQuoted fuel [] ((quotedChars s ++ r).drop 1) = some (s, r) := by
    intro s r fuel hfuel
    have hescaped := takeQuoted_escaped s.toList [] r fuel hfuel
    rw [List.reverse_nil, List.nil_append, String.ofList_toList] at hescaped
    rw [← hescaped]
    congr 1
    simp [quotedChars]
  have hleft := hread s r _ (le_max_left s.toList.length s'.toList.length)
  rw [h, hread s' r' _ (le_max_right _ _)] at hleft
  obtain ⟨hs, hr⟩ := Prod.mk.inj (Option.some.inj hleft)
  exact ⟨hs.symm, hr.symm⟩

/-! ### Documents without parts -/

mutual

def Finite : Json → Prop
  | .float x => x.isFinite = true
  | .array items => FiniteItems items
  | .object members => FiniteMembers members
  | _ => True

def FiniteItems : List Json → Prop
  | [] => True
  | item :: rest => Finite item ∧ FiniteItems rest

def FiniteMembers : List (String × Json) → Prop
  | [] => True
  | (_, item) :: rest => Finite item ∧ FiniteMembers rest

end

def opening : Json → Option Char
  | .text _ => some '"'
  | .array _ => some '['
  | .object _ => some '\x7b'
  | _ => none

theorem finiteItems_iff (items : List Json) : FiniteItems items ↔ ∀ item ∈ items, item.Finite := by
  induction items with
  | nil => simp [FiniteItems]
  | cons item rest ih => rw [FiniteItems, ih, List.forall_mem_cons]

theorem finiteMembers_iff (members : List (String × Json)) :
    FiniteMembers members ↔ ∀ member ∈ members, member.2.Finite := by
  induction members with
  | nil => simp [FiniteMembers]
  | cons member rest ih => rw [FiniteMembers, ih, List.forall_mem_cons]

/-- What holds of a document when it holds of its parts holds of every document with finite
numbers. -/
theorem induction_finite {P : Json → Prop}
    (atom : ∀ j : Json, j.Finite → j.opening = none → P j)
    (text : ∀ s, P (.text s))
    (array : ∀ items : List Json, (∀ item ∈ items, item.Finite) → (∀ item ∈ items, P item) →
      P (.array items))
    (object : ∀ members : List (String × Json), (∀ m ∈ members, m.2.Finite) →
      (∀ m ∈ members, P m.2) → P (.object members)) (j : Json) (hj : j.Finite) : P j := by
  revert hj
  refine @Json.rec (fun j => j.Finite → P j) (fun items => FiniteItems items → ∀ i ∈ items, P i)
    (fun members => FiniteMembers members → ∀ m ∈ members, P m.2) (fun m => m.2.Finite → P m.2)
    ?null ?bool ?int ?float ?text ?array ?object ?noItem ?item ?noMember ?member ?pair j
  case null => exact fun h => atom _ h rfl
  case bool => exact fun _ h => atom _ h rfl
  case int => exact fun _ h => atom _ h rfl
  case float => exact fun _ h => atom _ h rfl
  case text => exact fun s _ => text s
  case array => exact fun items ih h => array items ((finiteItems_iff items).mp h) (ih h)
  case object => exact fun members ih h => object members ((finiteMembers_iff members).mp h) (ih h)
  case noItem => exact fun _ _ hitem => absurd hitem List.not_mem_nil
  case item => exact fun _ _ hitem hrest h => List.forall_mem_cons.mpr ⟨hitem h.1, hrest h.2⟩
  case noMember => exact fun _ _ hmember => absurd hmember List.not_mem_nil
  case member => exact fun _ _ hmember hrest h => List.forall_mem_cons.mpr ⟨hmember h.1, hrest h.2⟩
  case pair => exact fun _ _ hitem => hitem

/-- The characters that order a document, and two that only stand in quoted texts. -/
def marks : List Char := [',', ']', '\x7d', '"', '[', '\x7b', '@', '\\']

def atom? (cs : List Char) : Option Json :=
  if cs = "null".toList then some .null
  else if cs = "true".toList then some (.bool true)
  else if cs = "false".toList then some (.bool false)
  else match Decimal.exponent? cs with
    | some n => some (.int n)
    | none => (Number.read? cs).map .float

variable {j j' : Json} {r r' : List Char}

theorem numeral_of_mem_intChars {n : Int} {c : Char} (hc : c ∈ intChars n) :
    NumberLayout.Numeral c := by
  unfold intChars at hc
  rcases List.mem_append.mp hc with hsign | hdigit
  · split_ifs at hsign
    · rw [List.mem_singleton.mp hsign]
      exact Or.inr (by decide)
    · exact absurd hsign List.not_mem_nil
  · exact Or.inl (Decimal.isDigit_of_mem_toDigits hdigit)

/-- An integer is read back from its text. -/
theorem exponent?_intChars (n : Int) : Decimal.exponent? (intChars n) = some n := by
  have hsigned := Decimal.exponent?_signed n
  unfold intChars
  by_cases hn : n < 0
  · rw [if_pos hn] at hsigned ⊢
    exact hsigned
  · rw [if_neg hn] at hsigned ⊢
    rw [← hsigned]
    have hdigits : ∀ c ∈ Nat.toDigits 10 n.natAbs, Decimal.isDigit c = true := fun c hc =>
      Decimal.isDigit_of_mem_toDigits hc
    have hread := Decimal.unsigned?_whole hdigits Nat.toDigits_ne_nil NumberLayout.tail_nil
    rw [List.append_nil] at hread
    unfold Decimal.exponent?
    rw [List.nil_append, Decimal.takeSign_of_unsigned? hread]
    rfl

/-- A number with a point or an exponent is not taken for an integer. -/
theorem exponent?_chars {x : Number} (hx : x.isFinite = true) :
    Decimal.exponent? (NumberLayout.exchange.chars x) = none := by
  obtain ⟨c, hc, hmark⟩ := NumberLayout.exists_mark_of_chars hx
  have hrest : c ∈ (Decimal.takeSign (NumberLayout.exchange.chars x)).2 := by
    generalize NumberLayout.exchange.chars x = cs at hc
    unfold Decimal.takeSign
    split
    · rcases List.mem_cons.mp hc with rfl | hc
      · exact absurd hmark (by decide)
      · exact hc
    · rcases List.mem_cons.mp hc with rfl | hc
      · exact absurd hmark (by decide)
      · exact hc
    · exact hc
  have hdigit : Decimal.isDigit c = false := by
    rcases hmark with rfl | rfl
    · decide
    · decide
  have hall : (Decimal.takeSign (NumberLayout.exchange.chars x)).2.all Decimal.isDigit = false :=
    List.all_eq_false.mpr ⟨c, hrest, by simp [hdigit]⟩
  unfold Decimal.exponent?
  dsimp only
  rw [hall, Bool.not_false, Bool.or_true, if_pos rfl]

theorem atom?_of_numeral {cs : List Char} (h : ∀ c ∈ cs, NumberLayout.Numeral c) :
    atom? cs = match Decimal.exponent? cs with
      | some n => some (.int n)
      | none => (Number.read? cs).map .float := by
  have hword : ∀ w : List Char, (∃ c ∈ w, ¬ NumberLayout.Numeral c) → cs ≠ w := by
    rintro w ⟨c, hc, hnot⟩ rfl
    exact hnot (h c hc)
  have hnot : ∀ c : Char, Decimal.isDigit c = false → c ∉ ['-', '+', '.', 'e'] →
      ¬ NumberLayout.Numeral c := by
    rintro c hdigit hmem (hc | hc)
    · exact Bool.false_ne_true (hdigit.symm.trans hc)
    · exact hmem hc
  unfold atom?
  rw [if_neg (hword _ ⟨'n', by decide, hnot _ (by decide) (by decide)⟩),
    if_neg (hword _ ⟨'t', by decide, hnot _ (by decide) (by decide)⟩),
    if_neg (hword _ ⟨'f', by decide, hnot _ (by decide) (by decide)⟩)]

/-- A document without parts is read back from its text. -/
theorem atom?_chars (hj : j.Finite) (hopening : j.opening = none) : atom? j.chars = some j := by
  cases j with
  | null => rfl
  | bool b =>
    cases b with
    | true => rfl
    | false => rfl
  | int n =>
    change atom? (intChars n) = _
    rw [atom?_of_numeral fun c hc => numeral_of_mem_intChars hc, exponent?_intChars]
  | float x =>
    change atom? (NumberLayout.exchange.chars x) = _
    rw [atom?_of_numeral fun c hc => NumberLayout.numeral_of_mem_chars hj hc, exponent?_chars hj,
      Number.read?_chars hj]
    rfl
  | text s => exact absurd hopening (by simp [opening])
  | array items => exact absurd hopening (by simp [opening])
  | object members => exact absurd hopening (by simp [opening])

theorem not_mem_marks_of_numeral {c : Char} (h : NumberLayout.Numeral c) : c ∉ marks := by
  have hmarks : ∀ c ∈ marks, Decimal.isDigit c = false ∧ c ∉ ['-', '+', '.', 'e'] := by
    unfold marks
    simp [Decimal.isDigit]
  intro hc
  obtain ⟨hnot, hmem⟩ := hmarks c hc
  rcases h with hdigit | hsign
  · exact Bool.false_ne_true (hnot.symm.trans hdigit)
  · exact hmem hsign

/-- The text of a document without parts has no marks. -/
theorem not_mem_marks_of_atom (hj : j.Finite) (hopening : j.opening = none) :
    ∀ c ∈ j.chars, c ∉ marks := by
  cases j with
  | null => simp [chars, marks]
  | bool b =>
    cases b with
    | true => simp [chars, marks]
    | false => simp [chars, marks]
  | int n => exact fun c hc => not_mem_marks_of_numeral (numeral_of_mem_intChars hc)
  | float x => exact fun c hc => not_mem_marks_of_numeral (NumberLayout.numeral_of_mem_chars hj hc)
  | text s => exact absurd hopening (by simp [opening])
  | array items => exact absurd hopening (by simp [opening])
  | object members => exact absurd hopening (by simp [opening])

/-! ### Documents with parts -/

theorem itemChars_eq (items : List Json) : itemChars items = items.map chars := by
  induction items with
  | nil => rfl
  | cons item rest ih => rw [List.map_cons, ← ih, itemChars]

def memberText (member : String × Json) : List Char := quotedChars member.1 ++ ':' :: member.2.chars

theorem memberChars_eq (members : List (String × Json)) :
    memberChars members = members.map memberText := by
  induction members with
  | nil => rfl
  | cons member rest ih =>
    rw [List.map_cons, ← ih, memberChars]
    rfl

/-- How the text of a document begins. -/
theorem exists_head (hj : j.Finite) : ∃ c rest, j.chars = c :: rest ∧
    (j.opening = some c ∨ j.opening = none ∧ c ∉ marks) := by
  cases hopening : j.opening with
  | none =>
    cases hchars : j.chars with
    | nil =>
      have hread := atom?_chars hj hopening
      have hnothing : atom? [] = none := rfl
      rw [hchars, hnothing] at hread
      exact absurd hread (by simp)
    | cons c rest =>
      refine ⟨c, rest, rfl, Or.inr ⟨rfl, not_mem_marks_of_atom hj hopening c ?_⟩⟩
      rw [hchars]
      exact List.mem_cons_self ..
  | some c =>
    cases j with
    | text s => exact ⟨_, _, rfl, Or.inl hopening.symm⟩
    | array items => exact ⟨_, _, rfl, Or.inl hopening.symm⟩
    | object members => exact ⟨_, _, rfl, Or.inl hopening.symm⟩
    | _ => exact absurd hopening (by simp [opening])

theorem opening_mem_marks {c : Char} (h : j.opening = some c) : c ∈ ['"', '[', '\x7b'] := by
  cases j with
  | text s => exact Option.some.inj h ▸ by decide
  | array items => exact Option.some.inj h ▸ by decide
  | object members => exact Option.some.inj h ▸ by decide
  | _ => exact absurd h (by simp [opening])

/-- Texts that go on alike begin alike. -/
theorem opening_eq (hj : j.Finite) (hj' : j'.Finite) (h : j.chars ++ r = j'.chars ++ r') :
    j.opening = j'.opening := by
  obtain ⟨c, rest, hchars, hopening⟩ := exists_head hj
  obtain ⟨c', rest', hchars', hopening'⟩ := exists_head hj'
  rw [hchars, hchars'] at h
  obtain ⟨rfl, -⟩ := List.cons.inj h
  have hmarks : ∀ c ∈ ['"', '[', '\x7b'], c ∈ marks := by simp [marks]
  rcases hopening with hsome | ⟨hnone, hplain⟩
  · rcases hopening' with hsome' | ⟨-, hplain'⟩
    · rw [hsome, hsome']
    · exact absurd (hmarks c (opening_mem_marks hsome)) hplain'
  · rcases hopening' with hsome' | ⟨hnone', -⟩
    · exact absurd (hmarks c (opening_mem_marks hsome')) hplain
    · rw [hnone, hnone']

/-- What may stand behind a document: nothing, a comma or a closing bracket. -/
def Stops (r : List Char) : Prop := ∀ c rest, r = c :: rest → c ∈ [',', ']', '\x7d']

theorem stops_nil : Stops [] := fun _ _ h => absurd h (by simp)

theorem stops_cons {c : Char} (hc : c ∈ [',', ']', '\x7d']) (r : List Char) : Stops (c :: r) :=
  fun _ _ h => (List.cons.inj h).1 ▸ hc

/-- The text of a document does not begin with what stops it. -/
theorem chars_ne_of_stops (hj : j.Finite) (hr : Stops r) : j.chars ++ r' ≠ r := by
  intro h
  obtain ⟨c, rest, hchars, hopening⟩ := exists_head hj
  rw [hchars] at h
  have hc := hr c _ h.symm
  rcases hopening with hsome | ⟨-, hplain⟩
  · have hdisjoint : ∀ c ∈ ['"', '[', '\x7b'], c ∉ [',', ']', '\x7d'] := by simp
    exact hdisjoint c (opening_mem_marks hsome) hc
  · have hmarks : ∀ c ∈ [',', ']', '\x7d'], c ∈ marks := by simp [marks]
    exact hplain (hmarks c hc)

/-- A document that can be told from its text and from where its text ends. -/
def Reads (j : Json) : Prop :=
  ∀ j' : Json, j'.Finite → ∀ r r', Stops r → Stops r' → j.chars ++ r = j'.chars ++ r' →
    j = j' ∧ r = r'

theorem reads_atom (hj : j.Finite) (hopening : j.opening = none) : j.Reads := by
  intro j' hj' r r' hr hr' h
  have hopening' := (opening_eq hj hj' h).symm.trans hopening
  have hstop : ∀ c ∈ [',', ']', '\x7d'], c ∈ marks := by simp [marks]
  obtain ⟨hchars, hrest⟩ := Delimited.unstopped_piece_eq
    (fun c hc hstops => not_mem_marks_of_atom hj hopening c hc (hstop c hstops))
    (fun c hc hstops => not_mem_marks_of_atom hj' hopening' c hc (hstop c hstops)) hr hr' h
  have hread := atom?_chars hj hopening
  rw [hchars, atom?_chars hj' hopening'] at hread
  exact ⟨(Option.some.inj hread).symm, hrest⟩

theorem reads_text (s : String) : (Json.text s).Reads := by
  intro j' hj' r r' _ _ h
  have hopening := opening_eq (j := .text s) trivial hj' h
  cases j' with
  | text s' =>
    obtain ⟨rfl, hrest⟩ := quotedChars_append_inj h
    exact ⟨rfl, hrest⟩
  | _ => exact absurd hopening (by simp [opening])

/-- Pieces between brackets can be told, and where they end, when each piece can. -/
theorem bracketed_eq {α : Type} {text : α → List Char} {closing : Char}
    (hclosing : closing ∈ [']', '\x7d']) {l l' : List α}
    (hstart : ∀ a ∈ l ++ l', ∀ r r', text a ++ r ≠ closing :: r')
    (hread : ∀ a ∈ l, ∀ b ∈ l', ∀ r r', Stops r → Stops r' → text a ++ r = text b ++ r' →
      a = b ∧ r = r')
    (h : commaSeparated (l.map text) ++ closing :: r =
      commaSeparated (l'.map text) ++ closing :: r') : l = l' ∧ r = r' := by
  have hstops : ∀ r, Stops (closing :: r) := stops_cons (by
    have hmem : ∀ c ∈ [']', '\x7d'], c ∈ [',', ']', '\x7d'] := by simp
    exact hmem closing hclosing)
  have hnot : ∀ r r' : List Char, closing :: r ≠ ',' :: r' := by
    intro r r' heq
    rw [(List.cons.inj heq).1] at hclosing
    exact absurd hclosing (by decide)
  -- an empty list has nothing before the closing bracket
  have hempty : ∀ (a : α) (rest : List α) (r r' : List Char), a ∈ l ++ l' →
      commaSeparated ((a :: rest).map text) ++ closing :: r ≠ closing :: r' := by
    intro a rest r r' ha
    cases rest with
    | nil =>
      unfold commaSeparated
      rw [List.map_singleton, List.intercalate_singleton]
      exact hstart a ha _ _
    | cons b rest =>
      unfold commaSeparated
      rw [List.map_cons, List.map_cons, List.intercalate_cons_cons, List.append_assoc,
        List.append_assoc]
      exact hstart a ha _ _
  cases l with
  | nil =>
    cases l' with
    | nil => exact ⟨rfl, (List.cons.inj h).2⟩
    | cons b rest' => exact absurd h.symm (hempty b rest' _ _ (by simp))
  | cons a rest =>
    cases l' with
    | nil => exact absurd h (hempty a rest _ _ (by simp))
    | cons b rest' =>
      obtain ⟨hpieces, hrest⟩ := Delimited.pieces_eq (R := Eq) (stops_cons (by decide)) hread
        (List.cons_ne_nil a rest) (List.cons_ne_nil b rest') (hstops r) (hstops r') (hnot r)
        (hnot r') h
      rw [List.forall₂_eq_eq_eq] at hpieces
      exact ⟨hpieces, (List.cons.inj hrest).2⟩

theorem reads_array {items : List Json} (hitems : ∀ item ∈ items, item.Finite)
    (hreads : ∀ item ∈ items, item.Reads) : (Json.array items).Reads := by
  intro j' hj' r r' _ _ h
  have hopening := opening_eq (j := .array items) ((finiteItems_iff items).mpr hitems) hj' h
  cases j' with
  | array items' =>
    have hitems' := (finiteItems_iff items').mp hj'
    have hchars : ∀ (items : List Json) (r : List Char), (Json.array items).chars ++ r =
        '[' :: (commaSeparated (items.map chars) ++ ']' :: r) := by
      intro items r
      rw [chars, itemChars_eq, List.cons_append, List.append_assoc, List.singleton_append]
    rw [hchars, hchars] at h
    have hstart : ∀ item ∈ items ++ items', ∀ r r', item.chars ++ r ≠ ']' :: r' := by
      intro item hitem r r'
      rcases List.mem_append.mp hitem with hmem | hmem
      · exact chars_ne_of_stops (hitems item hmem) (stops_cons (by decide) r')
      · exact chars_ne_of_stops (hitems' item hmem) (stops_cons (by decide) r')
    obtain ⟨rfl, hrest⟩ := bracketed_eq (by decide) hstart
      (fun a ha b hb r r' hr hr' => hreads a ha b (hitems' b hb) r r' hr hr')
      (List.cons.inj h).2
    exact ⟨rfl, hrest⟩
  | _ => exact absurd hopening (by simp [opening])

theorem reads_object {members : List (String × Json)} (hmembers : ∀ m ∈ members, m.2.Finite)
    (hreads : ∀ m ∈ members, m.2.Reads) : (Json.object members).Reads := by
  intro j' hj' r r' _ _ h
  have hopening :=
    opening_eq (j := .object members) ((finiteMembers_iff members).mpr hmembers) hj' h
  cases j' with
  | object members' =>
    have hmembers' := (finiteMembers_iff members').mp hj'
    have hchars : ∀ (members : List (String × Json)) (r : List Char),
        (Json.object members).chars ++ r =
          '\x7b' :: (commaSeparated (members.map memberText) ++ '\x7d' :: r) := by
      intro members r
      rw [chars, memberChars_eq, List.cons_append, List.append_assoc, List.singleton_append]
    rw [hchars, hchars] at h
    have hstart : ∀ m ∈ members ++ members', ∀ r r', memberText m ++ r ≠ '\x7d' :: r' := by
      intro m _ r r' heq
      have hquote := (List.cons.inj heq).1
      exact absurd hquote (by decide)
    have hread : ∀ a ∈ members, ∀ b ∈ members', ∀ r r', Stops r → Stops r' →
        memberText a ++ r = memberText b ++ r' → a = b ∧ r = r' := by
      intro a ha b hb r r' hr hr' heq
      unfold memberText at heq
      rw [List.append_assoc, List.append_assoc] at heq
      obtain ⟨hname, hitem⟩ := quotedChars_append_inj heq
      obtain ⟨hvalue, hrest⟩ := hreads a ha b.2 (hmembers' b hb) r r' hr hr' (List.cons.inj hitem).2
      exact ⟨Prod.ext hname hvalue, hrest⟩
    obtain ⟨rfl, hrest⟩ := bracketed_eq (by decide) hstart hread (List.cons.inj h).2
    exact ⟨rfl, hrest⟩
  | _ => exact absurd hopening (by simp [opening])

/-- Documents with finite numbers can be told from their texts. -/
theorem reads (hj : j.Finite) : j.Reads :=
  induction_finite (fun _ => reads_atom) reads_text (fun _ => reads_array)
    (fun _ => reads_object) j hj

/-- Different documents with finite numbers have different compact texts. -/
theorem compact_inj (hj : j.Finite) (hj' : j'.Finite) (h : j.compact = j'.compact) : j = j' := by
  have hchars : j.chars ++ [] = j'.chars ++ [] := by
    rw [String.ofList_injective h]
  exact (reads hj j' hj' [] [] stops_nil stops_nil hchars).1

end IndexedStore.Json
