import IndexedStore.Proofs.Emissions

/-!
A consumer that polls a store for its events. It starts before the first revision and asks each
time for what came after the last event it was given. As long as the feed still keeps what the
consumer has not seen, no event is left out and none is given twice.
-/
namespace IndexedStore

inductive Turn where
  | perform (w : World) (operation : Operation)
  | poll (limit : Nat)

/-- A store that a consumer follows, with all events told since the consumer began and the pages
of events that it was given. -/
structure Following where
  store : Store
  told : List Event
  /-- The revision of the last event that the consumer was given. -/
  cursor : Nat
  pages : List (List Event)

def Turn.operations : List Turn → List (World × Operation)
  | [] => []
  | .perform w operation :: turns => (w, operation) :: operations turns
  | .poll _ :: turns => operations turns

namespace Following

variable {f : Following} {s : Store}

def start (s : Store) : Following := ⟨s, [], 0, []⟩

def page (f : Following) (limit : Nat) : List Event := f.store.poll f.cursor limit

def turn (f : Following) : Turn → Following
  | .perform w operation =>
    { f with
      store := (f.store.perform w operation).store,
      told := f.told ++ f.store.told w operation }
  | .poll limit =>
    { f with
      cursor := ((f.page limit).getLast?.map Event.revision).getD f.cursor,
      pages := f.pages ++ [f.page limit] }

def after (f : Following) (turns : List Turn) : Following := turns.foldl turn f

/-- The events told since the cursor are no more than the store is set to keep. -/
def InTime (f : Following) : Prop :=
  (f.told.filter (f.cursor < ·.revision)).length ≤ f.store.config.eventHistory

def KeepsUp (f : Following) : List Turn → Prop
  | [] => True
  | .perform w operation :: turns => (f.turn (.perform w operation)).KeepsUp turns
  | .poll limit :: turns => 1 ≤ limit ∧ f.InTime ∧ (f.turn (.poll limit)).KeepsUp turns

/-- All that was told is what the consumer was given, up to its cursor, and the rest, behind its
cursor, of which the feed keeps the latest. -/
structure Tracks (f : Following) (rest : List Event) : Prop where
  sound : f.store.Sound
  limit : f.store.feed.historyLimit = f.store.config.eventHistory
  keeps : f.store.feed.Keeps f.told
  told : f.told = f.pages.flatten ++ rest
  ascends : f.told.Pairwise fun a b => a.revision < b.revision
  bounded : ∀ e ∈ f.told, e.revision ≤ f.store.revision
  reached : f.cursor ≤ f.store.revision
  given : ∀ e ∈ f.pages.flatten, e.revision ≤ f.cursor
  missing : ∀ e ∈ rest, f.cursor < e.revision

theorem tracks_start (hs : s.Fresh) : (start s).Tracks [] := by
  obtain ⟨config, remote, w, hbuild⟩ := hs.exists_build
  obtain ⟨_, -, hconfig, -, -, hfeed, -, -⟩ := Store.build_cases hbuild
  refine ⟨hs.sound.1, ?_, ?_, rfl, List.Pairwise.nil, ?_, Nat.zero_le _, ?_, ?_⟩
  · change s.feed.historyLimit = s.config.eventHistory
    rw [hfeed, hconfig]
    rfl
  · change s.feed.Keeps []
    rw [hfeed]
    exact EventFeed.keeps_empty _
  · exact fun e he => absurd he List.not_mem_nil
  · exact fun e he => absurd he List.not_mem_nil
  · exact fun e he => absurd he List.not_mem_nil

theorem Tracks.filter_told {rest : List Event} (h : f.Tracks rest) :
    f.told.filter (f.cursor < ·.revision) = rest := by
  have hgiven : f.pages.flatten.filter (f.cursor < ·.revision) = [] := by
    rw [List.filter_eq_nil_iff]
    intro e he
    have hle := h.given e he
    simpa using hle
  have hmissing : rest.filter (f.cursor < ·.revision) = rest := by
    rw [List.filter_eq_self]
    intro e he
    simpa using h.missing e he
  rw [h.told, List.filter_append, hgiven, hmissing, List.nil_append]

/-- While it is in time, a consumer is given the first of the events that it has not seen. -/
theorem Tracks.page_eq {rest : List Event} (h : f.Tracks rest) (htime : f.InTime) (limit : Nat) :
    f.page limit = rest.take limit := by
  unfold InTime at htime
  rw [h.filter_told, ← h.limit] at htime
  have hkept : f.store.feed.history =
      f.pages.flatten.drop (f.told.length - f.store.feed.historyLimit) ++ rest := by
    have hlength : f.told.length - f.store.feed.historyLimit ≤ f.pages.flatten.length := by
      rw [h.told, List.length_append]
      omega
    rw [← List.drop_append_of_le_length hlength, ← h.told]
    exact h.keeps
  have hseen : (f.pages.flatten.drop (f.told.length - f.store.feed.historyLimit)).filter
      (f.cursor < ·.revision) = [] := by
    rw [List.filter_eq_nil_iff]
    intro e he
    have hle := h.given e (List.mem_of_mem_drop he)
    simpa using hle
  have hrest : rest.filter (f.cursor < ·.revision) = rest := by
    rw [List.filter_eq_self]
    intro e he
    simpa using h.missing e he
  change (f.store.feed.history.filter (f.cursor < ·.revision)).take limit = rest.take limit
  rw [hkept, List.filter_append, hseen, hrest, List.nil_append]

/-- An operation adds what it tells behind what the consumer has not seen. -/
theorem Tracks.perform {rest : List Event} (h : f.Tracks rest) (w : World)
    (operation : Operation) :
    (f.turn (.perform w operation)).Tracks (rest ++ f.store.told w operation) := by
  obtain ⟨hkeeps, hlimit⟩ := h.sound.perform_feedKeeps h.keeps w operation
  obtain ⟨hle, -⟩ := h.sound.perform_revision w operation
  have hnew : ∀ e ∈ f.store.told w operation, f.store.revision < e.revision ∧
      e.revision ≤ (f.store.perform w operation).store.revision := by
    intro e he
    rcases h.sound.told_revision w operation with hnone | ⟨e', hone, hlt, heq⟩
    · rw [hnone] at he
      exact absurd he List.not_mem_nil
    · rw [hone, List.mem_singleton] at he
      subst he
      exact ⟨hlt, le_of_eq heq⟩
  refine ⟨h.sound.perform w operation, ?_, hkeeps, ?_, ?_, ?_, ?_, h.given, ?_⟩
  · exact hlimit.trans (h.limit.trans
      (congrArg Config.eventHistory (h.sound.perform_config w operation)).symm)
  · change f.told ++ _ = f.pages.flatten ++ (rest ++ _)
    rw [h.told, List.append_assoc]
  · apply List.pairwise_append.mpr
    refine ⟨h.ascends, ?_, fun e he e' he' => ?_⟩
    · rcases h.sound.told_revision w operation with hnone | ⟨e', hone, -⟩
      · rw [hnone]
        exact List.Pairwise.nil
      · rw [hone]
        exact List.pairwise_singleton _ _
    · exact lt_of_le_of_lt (h.bounded e he) (hnew e' he').1
  · intro e he
    rcases List.mem_append.mp he with hold | hlater
    · exact le_trans (h.bounded e hold) hle
    · exact (hnew e hlater).2
  · exact le_trans h.reached hle
  · intro e he
    rcases List.mem_append.mp he with hold | hlater
    · exact h.missing e hold
    · exact lt_of_le_of_lt h.reached (hnew e hlater).1

/-- What was missing may be given up to any revision between. -/
theorem Tracks.advance {given left : List Event} (h : f.Tracks (given ++ left)) {cursor : Nat}
    (hle : f.cursor ≤ cursor) (hreached : cursor ≤ f.store.revision)
    (hgiven : ∀ e ∈ given, e.revision ≤ cursor) (hleft : ∀ e ∈ left, cursor < e.revision) :
    Tracks { f with cursor := cursor, pages := f.pages ++ [given] } left := by
  have hpages : (f.pages ++ [given]).flatten = f.pages.flatten ++ given := by
    rw [List.flatten_append, List.flatten_singleton]
  refine ⟨h.sound, h.limit, h.keeps, ?_, h.ascends, h.bounded, hreached, ?_, hleft⟩
  · exact h.told.trans (by rw [hpages, List.append_assoc])
  · intro e he
    rw [hpages] at he
    rcases List.mem_append.mp he with hold | hnew
    · exact le_trans (h.given e hold) hle
    · exact hgiven e hnew

/-- A poll in time moves the first of the missing events to what the consumer was given. -/
theorem Tracks.poll {rest : List Event} (h : f.Tracks rest) (htime : f.InTime) (limit : Nat) :
    (f.turn (.poll limit)).Tracks (rest.drop limit) := by
  unfold turn
  dsimp only
  rw [h.page_eq htime limit]
  have hsplit := h
  rw [← List.take_append_drop limit rest] at hsplit
  rcases List.eq_nil_or_concat (rest.take limit) with hnone | ⟨front, last, hlast⟩
  · have hsame : rest.drop limit = rest := by
      rw [← List.nil_append (rest.drop limit), ← hnone, List.take_append_drop]
    refine hsplit.advance ?_ ?_ ?_ ?_ <;> rw [hnone]
    · exact le_refl _
    · exact h.reached
    · exact fun e he => absurd he List.not_mem_nil
    · rw [hsame]
      exact h.missing
  · -- The new cursor is the last revision given, which parts the given events from those left.
    rw [List.concat_eq_append] at hlast
    have hcursor : ((rest.take limit).getLast?.map Event.revision).getD f.cursor =
        last.revision := by
      rw [hlast, List.getLast?_append, List.getLast?_singleton]
      rfl
    have hmem : last ∈ rest.take limit := by
      rw [hlast]
      simp
    have hascends := h.ascends
    rw [h.told, ← List.take_append_drop limit rest] at hascends
    obtain ⟨htaken, -, hacross⟩ :=
      List.pairwise_append.mp (List.pairwise_append.mp hascends).2.1
    rw [hcursor]
    refine hsplit.advance ?_ ?_ ?_ (hacross last hmem)
    · exact le_of_lt (h.missing last (List.mem_of_mem_take hmem))
    · apply h.bounded
      rw [h.told]
      exact List.mem_append_right _ (List.mem_of_mem_take hmem)
    · rw [hlast] at htaken ⊢
      intro e he
      rcases List.mem_append.mp he with hfront | hsame
      · exact le_of_lt ((List.pairwise_append.mp htaken).2.2 e hfront last (by simp))
      · rw [List.mem_singleton.mp hsame]

/-! ### Runs -/

theorem told_after (f : Following) (turns : List Turn) :
    (f.after turns).told = f.told ++ f.store.emitted (Turn.operations turns) := by
  induction turns generalizing f with
  | nil => exact (List.append_nil _).symm
  | cons turn turns ih =>
    change ((f.turn turn).after turns).told = _
    rw [ih]
    cases turn with
    | perform w operation => exact List.append_assoc _ _ _
    | poll limit => rfl

theorem KeepsUp.append {turns turns' : List Turn} (h : f.KeepsUp (turns ++ turns')) :
    f.KeepsUp turns ∧ (f.after turns).KeepsUp turns' := by
  induction turns generalizing f with
  | nil => exact ⟨trivial, h⟩
  | cons turn turns ih =>
    cases turn with
    | perform w operation => exact ih h
    | poll limit =>
      obtain ⟨hlimit, htime, hrest⟩ := h
      obtain ⟨hfirst, hsecond⟩ := ih hrest
      exact ⟨⟨hlimit, htime, hfirst⟩, hsecond⟩

/-- A consumer that keeps up tracks the store through any turns. -/
theorem Tracks.after {rest : List Event} (h : f.Tracks rest) {turns : List Turn}
    (hkeeps : f.KeepsUp turns) : ∃ rest, (f.after turns).Tracks rest := by
  induction turns generalizing f rest with
  | nil => exact ⟨rest, h⟩
  | cons turn turns ih =>
    cases turn with
    | perform w operation => exact ih (h.perform w operation) hkeeps
    | poll limit =>
      obtain ⟨-, htime, hrest⟩ := hkeeps
      exact ih (h.poll htime limit) hrest

/-- A consumer follows a new store from its making on, polling each time for at least one event and
never when more events have been told since its cursor than the store keeps. Then all that it was
given, page after page, is a beginning of the events that the operations told of; and whenever a
poll gives nothing, it was given all that was told so far. -/
theorem polled_after_turns (hs : s.Fresh) (turns : List Turn) (hkeeps : (start s).KeepsUp turns) :
    ((start s).after turns).pages.flatten <+: s.emitted (Turn.operations turns) ∧
    ∀ before limit later, turns = before ++ .poll limit :: later →
      ((start s).after before).page limit = [] →
        ((start s).after before).pages.flatten = s.emitted (Turn.operations before) := by
  have htold : ∀ turns, ((start s).after turns).told = s.emitted (Turn.operations turns) :=
    fun turns => told_after (start s) turns
  have hstart := tracks_start hs
  constructor
  · obtain ⟨rest, htracks⟩ := hstart.after hkeeps
    rw [← htold, htracks.told]
    exact List.prefix_append _ _
  · rintro before limit later rfl hempty
    obtain ⟨hbefore, hlimit, htime, -⟩ := hkeeps.append
    obtain ⟨rest, htracks⟩ := hstart.after hbefore
    rw [htracks.page_eq htime limit] at hempty
    have hnone : rest = [] := by
      rcases List.take_eq_nil_iff.mp hempty with hzero | hnil
      · omega
      · exact hnil
    rw [← htold, htracks.told, hnone, List.append_nil]

def brief : Store :=
  { Store.plain with config := { Config.standard with eventHistory := 2 }, feed := .empty 2 }

def polledSingly : List Turn :=
  [.perform .bare (.set (some "a") [] ⟨false, false⟩),
    .perform .bare (.set (some "b") [] ⟨true, false⟩), .poll 1,
    .perform .bare (.set (some "c") [] ⟨false, false⟩), .perform .bare .clear, .poll 1, .poll 1,
    .poll 1]

theorem polled_singly :
    let before := polledSingly.dropLast
    brief.Fresh ∧ (start brief).KeepsUp polledSingly ∧
      ((start brief).after before).pages =
        [[⟨1, .created, some "a"⟩], [⟨3, .created, some "c"⟩], [⟨4, .cleared, none⟩]] ∧
      ((start brief).after before).page 1 = [] ∧
      ((start brief).after before).pages.flatten = brief.emitted (Turn.operations before) ∧
      ((start brief).after polledSingly).pages.flatten <+:
        brief.emitted (Turn.operations polledSingly) := by
  intro before
  have hfresh : brief.Fresh := ⟨brief.config, .bare, Or.inl rfl⟩
  have hkeeps : (start brief).KeepsUp polledSingly := by
    refine ⟨le_refl _, ?_, le_refl _, ?_, le_refl _, ?_, le_refl _, ?_, trivial⟩
    · exact Nat.le_of_ble_eq_true rfl
    · exact Nat.le_of_ble_eq_true rfl
    · exact Nat.le_of_ble_eq_true rfl
    · exact Nat.le_of_ble_eq_true rfl
  have hempty : ((start brief).after before).page 1 = [] := rfl
  obtain ⟨hfirst, hwhole⟩ := polled_after_turns hfresh polledSingly hkeeps
  exact ⟨hfresh, hkeeps, rfl, hempty, hwhole before 1 [] rfl hempty, hfirst⟩

end Following
end IndexedStore
