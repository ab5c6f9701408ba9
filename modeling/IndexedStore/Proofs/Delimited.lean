import Mathlib.Algebra.GroupWithZero.Nat
import Mathlib.Data.List.Forall2
import Mathlib.Tactic.Common
import IndexedStore.Text.Blank

/-!
Texts made of pieces with a separator between them. When each piece can be told from what stands
behind it, the pieces and the rest of the text can be told from the whole; pieces without the
separator are what the text is taken apart into.
-/
namespace IndexedStore.Delimited

variable {α β : Type} {sep : Char}

/-- Two joined texts that go on behind their last pieces, but not with a separator, agree piece
by piece, if a piece ends in the same place in both whenever it is followed by what stops it. -/
theorem pieces_eq {text : α → List Char} {text' : β → List Char} {R : α → β → Prop}
    {Stops : List Char → Prop} (hsep : ∀ r, Stops (sep :: r)) {l : List α} {l' : List β}
    (hread : ∀ a ∈ l, ∀ b ∈ l', ∀ r r', Stops r → Stops r' →
      text a ++ r = text' b ++ r' → R a b ∧ r = r')
    (hl : l ≠ []) (hl' : l' ≠ []) {t t' : List Char} (ht : Stops t) (ht' : Stops t')
    (hnot : ∀ r, t ≠ sep :: r) (hnot' : ∀ r, t' ≠ sep :: r)
    (h : [sep].intercalate (l.map text) ++ t = [sep].intercalate (l'.map text') ++ t') :
    List.Forall₂ R l l' ∧ t = t' := by
  induction l generalizing l' with
  | nil => exact absurd rfl hl
  | cons a rest ih =>
    cases l' with
    | nil => exact absurd rfl hl'
    | cons b rest' =>
      have hhead := hread a (List.mem_cons_self ..) b (List.mem_cons_self ..)
      rcases rest with _ | ⟨a', rest⟩
      · rcases rest' with _ | ⟨b', rest'⟩
        · simp only [List.map_cons, List.map_nil, List.intercalate_singleton] at h
          obtain ⟨hab, htt⟩ := hhead t t' ht ht' h
          exact ⟨List.Forall₂.cons hab List.Forall₂.nil, htt⟩
        · simp only [List.map_cons, List.map_nil, List.intercalate_singleton,
            List.intercalate_cons_cons, List.append_assoc, List.cons_append, List.nil_append] at h
          obtain ⟨-, htt⟩ := hhead _ _ ht (hsep _) h
          exact absurd htt (hnot _)
      · rcases rest' with _ | ⟨b', rest'⟩
        · simp only [List.map_cons, List.map_nil, List.intercalate_singleton,
            List.intercalate_cons_cons, List.append_assoc, List.cons_append, List.nil_append] at h
          obtain ⟨-, htt⟩ := hhead _ _ (hsep _) ht' h
          exact absurd htt.symm (hnot' _)
        · simp only [List.map_cons, List.intercalate_cons_cons, List.append_assoc,
            List.cons_append, List.nil_append] at h
          obtain ⟨hab, hrest⟩ := hhead _ _ (hsep _) (hsep _) h
          have hread' : ∀ x ∈ a' :: rest, ∀ y ∈ b' :: rest', ∀ r r', Stops r → Stops r' →
              text x ++ r = text' y ++ r' → R x y ∧ r = r' := fun x hx y hy =>
            hread x (List.mem_cons_of_mem _ hx) y (List.mem_cons_of_mem _ hy)
          have htail := List.tail_eq_of_cons_eq hrest
          rw [← List.map_cons (f := text), ← List.map_cons (f := text')] at htail
          obtain ⟨hpieces, htt⟩ := ih hread' (List.cons_ne_nil _ _) (List.cons_ne_nil _ _) htail
          exact ⟨List.Forall₂.cons hab hpieces, htt⟩

def Ends (sep : Char) (r : List Char) : Prop := ∀ c rest, r = c :: rest → c = sep

theorem ends_nil : Ends sep [] := fun _ _ h => absurd h (by simp)

theorem ends_cons (r : List Char) : Ends sep (sep :: r) := fun _ _ h => (List.cons.inj h).1.symm

/-- Joined texts of pieces that end at the separator only come from the same pieces. -/
theorem joined_inj {text : α → List Char} {R : α → α → Prop} {l l' : List α}
    (hread : ∀ a ∈ l, ∀ b ∈ l', ∀ r r', Ends sep r → Ends sep r' →
      text a ++ r = text b ++ r' → R a b ∧ r = r')
    (hl : l ≠ []) (hl' : l' ≠ [])
    (h : [sep].intercalate (l.map text) = [sep].intercalate (l'.map text)) :
    List.Forall₂ R l l' := by
  have happend : [sep].intercalate (l.map text) ++ [] =
      [sep].intercalate (l'.map text) ++ [] := by rw [h]
  have hnot : ∀ r : List Char, ([] : List Char) ≠ sep :: r := fun r => by simp
  exact (pieces_eq ends_cons hread hl hl' ends_nil ends_nil hnot hnot happend).1

/-- Pieces whose characters do not stop a piece end where what stops them is. -/
theorem unstopped_piece_eq {Stop : Char → Prop} {x y r r' : List Char} (hx : ∀ c ∈ x, ¬ Stop c)
    (hy : ∀ c ∈ y, ¬ Stop c) (hr : ∀ c rest, r = c :: rest → Stop c)
    (hr' : ∀ c rest, r' = c :: rest → Stop c) (h : x ++ r = y ++ r') : x = y ∧ r = r' := by
  induction x generalizing y with
  | nil =>
    cases y with
    | nil => exact ⟨rfl, h⟩
    | cons c y => exact absurd (hr c _ h) (hy c (List.mem_cons_self ..))
  | cons c x ih =>
    cases y with
    | nil => exact absurd (hr' c _ h.symm) (hx c (List.mem_cons_self ..))
    | cons d y =>
      obtain ⟨hcd, hrest⟩ := List.cons.inj h
      obtain ⟨hxy, hrr⟩ := ih (fun c hc => hx c (List.mem_cons_of_mem _ hc))
        (fun c hc => hy c (List.mem_cons_of_mem _ hc)) hrest
      exact ⟨by rw [hcd, hxy], hrr⟩

/-- A piece without the separator ends where the separator or the text's end is. -/
theorem plain_piece_eq {x y r r' : List Char} (hx : sep ∉ x) (hy : sep ∉ y)
    (hr : Ends sep r) (hr' : Ends sep r') (h : x ++ r = y ++ r') : x = y ∧ r = r' := by
  have hplain : ∀ {z : List Char}, sep ∉ z → ∀ c ∈ z, ¬ c = sep := fun hz c hc heq => hz (heq ▸ hc)
  exact unstopped_piece_eq (hplain hx) (hplain hy) hr hr' h

/-- The separators of a joined text are those between the pieces and those in them. -/
theorem count_joined (l : List (List Char)) (hl : l ≠ []) :
    ([sep].intercalate l).count sep + 1 = l.length + (l.map (List.count sep)).sum := by
  induction l with
  | nil => exact absurd rfl hl
  | cons x rest ih =>
    cases rest with
    | nil =>
      simp only [List.intercalate_singleton, List.map_cons, List.map_nil, List.sum_singleton,
        List.length_singleton]
      omega
    | cons y rest =>
      have hrest := ih (List.cons_ne_nil _ _)
      rw [List.intercalate_cons_cons, List.count_append, List.count_append,
        List.count_singleton_self, List.map_cons, List.sum_cons, List.length_cons]
      omega

/-! ### Taking apart -/

theorem splitAt_eq_splitOn (cs : List Char) : Text.splitAt sep cs = cs.splitOn sep := by
  induction cs with
  | nil => rfl
  | cons c cs ih =>
    rw [List.splitOn_cons_eq_if_modifyHead, Text.splitAt, ih]
    by_cases hc : c = sep
    · rw [if_pos hc, if_pos (beq_iff_eq.mpr hc)]
    · rw [if_neg hc, if_neg (by simpa using hc)]
      cases hpieces : cs.splitOn sep with
      | nil => exact absurd hpieces (List.splitOn_ne_nil _ _)
      | cons piece pieces => rfl

/-- Pieces without the separator are found again in the text that they are joined to. -/
theorem splitAt_joined {l : List (List Char)} (hl : l ≠ []) (hplain : ∀ piece ∈ l, sep ∉ piece) :
    Text.splitAt sep ([sep].intercalate l) = l := by
  rw [splitAt_eq_splitOn, List.splitOn_intercalate sep hplain hl]

theorem splitAt_ne_nil (cs : List Char) : Text.splitAt sep cs ≠ [] := by
  rw [splitAt_eq_splitOn]
  exact List.splitOn_ne_nil _ _

theorem not_mem_of_mem_splitAt {cs piece : List Char} (h : piece ∈ Text.splitAt sep cs) :
    sep ∉ piece := by
  induction cs generalizing piece with
  | nil =>
    rw [List.mem_singleton.mp h]
    exact List.not_mem_nil
  | cons c cs ih =>
    unfold Text.splitAt at h
    split_ifs at h with hc
    · rcases List.mem_cons.mp h with rfl | hrest
      · exact List.not_mem_nil
      · exact ih hrest
    · split at h
      · rw [List.mem_singleton.mp h, List.mem_singleton]
        exact fun heq => hc heq.symm
      · rename_i first pieces hpieces
        rcases List.mem_cons.mp h with rfl | hrest
        · have hfirst := ih (hpieces ▸ List.mem_cons_self ..)
          exact List.not_mem_cons_of_ne_of_not_mem (fun heq => hc heq.symm) hfirst
        · exact ih (hpieces ▸ List.mem_cons_of_mem _ hrest)

end IndexedStore.Delimited
