import IndexedStore.Proofs.DocumentTexts

/-!
Places in the texts of documents. Outside quoted texts a document has no `@`, and reading on from
inside a quoted text never ends where reading on from outside does, so the last `@` before which
a whole document can follow shows where that document begins.
-/
namespace IndexedStore.Json

variable {j j' : Json}

/-- A place in the text of a document: outside quoted texts, inside one, or behind a backslash. -/
inductive Place where
  | outside
  | inside
  | escaped
deriving DecidableEq

/-- The place behind one more character; outside quoted texts there is no backslash and no `@`. -/
def Place.next : Place → Char → Option Place
  | .outside, c =>
    if c = '"' then some .inside else if c = '@' ∨ c = '\\' then none else some .outside
  | .inside, c =>
    if c = '"' then some .outside else if c = '\\' then some .escaped else some .inside
  | .escaped, _ => some .inside

def Place.behind (place : Place) (cs : List Char) : Option Place := cs.foldlM Place.next place

theorem behind_append (place : Place) (cs ds : List Char) :
    place.behind (cs ++ ds) = (place.behind cs).bind fun next => next.behind ds :=
  List.foldlM_append

theorem behind_cons (place : Place) (c : Char) (cs : List Char) :
    place.behind (c :: cs) = (place.next c).bind fun next => next.behind cs :=
  List.foldlM_cons

theorem behind_escapedChar (c : Char) :
    Place.inside.behind (escapedChar c) = some .inside := by
  unfold escapedChar
  split
  · rfl
  · rfl
  · rfl
  · rfl
  · rfl
  · rfl
  · rfl
  · rename_i hquote hbackslash _ _ _ _ _
    split_ifs with hcontrol
    · generalize c.toNat = n at hcontrol
      interval_cases n <;> rfl
    · rw [behind_cons, Place.next, if_neg hquote, if_neg hbackslash]
      rfl

theorem behind_quotedChars (s : String) :
    Place.outside.behind (quotedChars s) = some .outside := by
  have hescaped : ∀ cs : List Char,
      Place.inside.behind (cs.flatMap escapedChar) = some .inside := by
    intro cs
    induction cs with
    | nil => rfl
    | cons c cs ih =>
      rw [List.flatMap_cons, behind_append, behind_escapedChar, Option.bind_some, ih]
  unfold quotedChars
  rw [behind_cons, show Place.outside.next '"' = some .inside from rfl, Option.bind_some,
    behind_append, hescaped]
  rfl

theorem behind_unmarked {cs : List Char} (h : ∀ c ∈ cs, c ∉ marks) :
    Place.outside.behind cs = some .outside := by
  induction cs with
  | nil => rfl
  | cons c cs ih =>
    have hc := h c (List.mem_cons_self ..)
    have hquote : c ≠ '"' := fun heq => hc (heq ▸ by decide)
    have hat : c ≠ '@' := fun heq => hc (heq ▸ by decide)
    have hbackslash : c ≠ '\\' := fun heq => hc (heq ▸ by decide)
    rw [behind_cons, Place.next, if_neg hquote, if_neg (by simp [hat, hbackslash]),
      Option.bind_some, ih fun c hc => h c (List.mem_cons_of_mem _ hc)]

theorem behind_commaSeparated {pieces : List (List Char)}
    (h : ∀ piece ∈ pieces, Place.outside.behind piece = some .outside) :
    Place.outside.behind (commaSeparated pieces) = some .outside := by
  unfold commaSeparated
  induction pieces with
  | nil => rfl
  | cons piece rest ih =>
    have hpiece := h piece (List.mem_cons_self ..)
    have hrest := ih fun p hp => h p (List.mem_cons_of_mem _ hp)
    cases rest with
    | nil => rw [List.intercalate_singleton, hpiece]
    | cons next rest =>
      rw [List.intercalate_cons_cons, behind_append, behind_append, hpiece, Option.bind_some]
      change Place.outside.behind _ = _
      exact hrest

/-- The text of a document ends outside quoted texts. -/
theorem behind_chars (hj : j.Finite) : Place.outside.behind j.chars = some .outside := by
  have hbracketed : ∀ (opening closing : Char) (pieces : List (List Char)),
      Place.outside.next opening = some .outside → Place.outside.next closing = some .outside →
      (∀ piece ∈ pieces, Place.outside.behind piece = some .outside) →
      Place.outside.behind (opening :: (commaSeparated pieces ++ [closing])) = some .outside := by
    intro opening closing pieces hopening hclosing hpieces
    rw [behind_cons, hopening, Option.bind_some, behind_append, behind_commaSeparated hpieces,
      Option.bind_some, behind_cons, hclosing]
    rfl
  refine induction_finite (fun j hj hopening => behind_unmarked (not_mem_marks_of_atom hj hopening))
    behind_quotedChars (fun items _ ih => ?_) (fun members _ ih => ?_) j hj
  · rw [chars, itemChars_eq]
    exact hbracketed '[' ']' _ rfl rfl (by simpa using ih)
  · rw [chars, memberChars_eq]
    refine hbracketed '\x7b' '\x7d' _ rfl rfl ?_
    intro piece hpiece
    obtain ⟨m, hm, rfl⟩ := List.mem_map.mp hpiece
    unfold memberText
    rw [behind_append, behind_quotedChars, Option.bind_some, behind_cons,
      show Place.outside.next ':' = some .outside from rfl, Option.bind_some, ih m hm]

/-- The same text cannot end outside quoted texts when it began outside and when it began inside. -/
theorem behind_ne {cs : List Char} (h : Place.outside.behind cs = some .outside) :
    Place.inside.behind cs ≠ some .outside := by
  -- the two places change together, so which of them comes first is left open
  suffices hpair : ∀ (cs : List Char) (p q : Place),
      (p = .outside ∧ q = .inside) ∨ (p = .inside ∧ q = .outside) →
      p.behind cs = some .outside → q.behind cs ≠ some .outside from
    hpair cs _ _ (Or.inl ⟨rfl, rfl⟩) h
  have hnext : ∀ (c : Char) (p : Place), Place.outside.next c = some p →
      ∃ q, Place.inside.next c = some q ∧
        ((p = .outside ∧ q = .inside) ∨ (p = .inside ∧ q = .outside)) := by
    intro c p hp
    unfold Place.next at hp
    dsimp only at hp
    split_ifs at hp with hquote hforbidden
    · exact ⟨.outside, by simp [Place.next, hquote], Or.inr ⟨(Option.some.inj hp).symm, rfl⟩⟩
    · have hbackslash : c ≠ '\\' := fun heq => hforbidden (Or.inr heq)
      exact ⟨.inside, by simp [Place.next, hquote, hbackslash],
        Or.inl ⟨(Option.some.inj hp).symm, rfl⟩⟩
  intro cs
  induction cs with
  | nil =>
    rintro p q (⟨rfl, rfl⟩ | ⟨rfl, rfl⟩)
    · exact fun _ h => absurd h (by decide)
    · exact fun h => absurd h (by decide)
  | cons c cs ih =>
    rintro p q (⟨rfl, rfl⟩ | ⟨rfl, rfl⟩) hp hq
    · rw [behind_cons] at hp hq
      obtain ⟨p, hpc, hp⟩ := Option.bind_eq_some_iff.mp hp
      obtain ⟨q, hqc, hpair⟩ := hnext c p hpc
      rw [hqc] at hq
      exact ih p q hpair hp hq
    · rw [behind_cons] at hp hq
      obtain ⟨q, hqc, hq⟩ := Option.bind_eq_some_iff.mp hq
      obtain ⟨p, hpc, hpair⟩ := hnext c q hqc
      rw [hpc] at hp
      exact ih q p hpair hq hp

/-- The text of no document ends in `@` and the text of a document. -/
theorem chars_ne_at (hj : j.Finite) (hj' : j'.Finite) (t : List Char) :
    j.chars ≠ t ++ '@' :: j'.chars := by
  intro h
  have hplace := behind_chars hj
  rw [h, behind_append] at hplace
  obtain ⟨place, -, hplace⟩ := Option.bind_eq_some_iff.mp hplace
  rw [behind_cons] at hplace
  obtain ⟨next, hnext, hplace⟩ := Option.bind_eq_some_iff.mp hplace
  have hinside : next = .inside := by
    cases place with
    | outside => exact absurd hnext (by simp [Place.next])
    | inside => exact (Option.some.inj hnext).symm
    | escaped => exact (Option.some.inj hnext).symm
  rw [hinside] at hplace
  exact behind_ne (behind_chars hj') hplace

/-- A text, `@` and the text of a document can be told apart from the whole. -/
theorem at_chars_inj (hj : j.Finite) (hj' : j'.Finite) {t t' : List Char}
    (h : t ++ '@' :: j.chars = t' ++ '@' :: j'.chars) : t = t' ∧ j = j' := by
  have hprefix : ∀ {j j' : Json} (m : List Char), j.Finite → j'.Finite →
      '@' :: j.chars = m ++ '@' :: j'.chars → m = [] := by
    intro j j' m hj hj' h
    cases m with
    | nil => rfl
    | cons c m => exact absurd (List.cons.inj h).2 (chars_ne_at hj hj' m)
  have ht : t = t' := by
    rcases List.append_eq_append_iff.mp h with ⟨m, ht', hm⟩ | ⟨m, ht, hm⟩
    · rw [ht', hprefix m hj hj' hm, List.append_nil]
    · rw [ht, hprefix m hj' hj hm, List.append_nil]
  subst ht
  have hchars := (List.cons.inj (List.append_cancel_left h)).2
  exact ⟨rfl, compact_inj hj hj' (congrArg String.ofList hchars)⟩

end IndexedStore.Json
