import IndexedStore.Proofs.ViewKeys
import Mathlib.Data.List.Induction

/-!
Kept views against views made anew. What is kept under a key is what the earlier sorts under that
key answered with, at the same revision and so from the same records. A sort that uses it answers
rightly whenever the key tells what is asked for.
-/
namespace IndexedStore

namespace Store

variable {s s' : Store} {operation : Operation} {order : SortOrder} {filter : Option Where}

/-! ### What becomes of kept views -/

/-- An operation other than a sort keeps the revision, the records and the views, or moves to the
next revision and makes no view. -/
theorem Moves.views (h : s.Moves s' operation) :
    (s'.revision = s.revision ∧ s'.contents.snapshots = s.contents.snapshots ∧
      s'.views = s.views) ∨
    (s'.revision = s.revision + 1 ∧ (s'.views = s.views ∨ s'.views = .empty)) := by
  cases h with
  | same h =>
    left
    unfold revision
    rw [h.contents]
    exact ⟨rfl, rfl, h.views⟩
  | declared c hc hsnapshots hrevision hholes h =>
    left
    unfold revision
    rw [h.contents]
    exact ⟨hrevision, hsnapshots, h.views⟩
  | changed c kind key hc hrevision h =>
    right
    unfold revision
    rw [h.contents, h.views, changed_contents, ← hrevision]
    refine ⟨rfl, ?_⟩
    unfold Store.changed
    cases operation.isQuiet with
    | true => exact Or.inl rfl
    | false => exact Or.inr rfl
  | heard feed _ h =>
    left
    unfold revision
    rw [h.contents]
    exact ⟨rfl, rfl, h.views⟩

/-- The revision does not go back, and moves with the records. -/
theorem Sound.perform_revision (h : s.Sound) (w : World) (operation : Operation) :
    s.revision ≤ (s.perform w operation).store.revision ∧
      ((s.perform w operation).store.revision = s.revision →
        (s.perform w operation).store.contents.snapshots = s.contents.snapshots) := by
  rcases h.perform_cases w operation with ⟨_, _, _, -, _, halike⟩ | ⟨-, hmoves⟩
  · unfold revision
    rw [halike.contents]
    exact ⟨le_refl _, fun _ => rfl⟩
  · rcases hmoves.views with ⟨hrevision, hsnapshots, -⟩ | ⟨hrevision, -⟩
    · exact ⟨by omega, fun _ => hsnapshots⟩
    · exact ⟨by omega, fun heq => by omega⟩

theorem Sound.after_revision (h : s.Sound) (steps : List (World × Operation)) :
    s.revision ≤ (s.after steps).revision ∧
      ((s.after steps).revision = s.revision →
        (s.after steps).contents.snapshots = s.contents.snapshots) := by
  induction steps generalizing s with
  | nil => exact ⟨le_refl _, fun _ => rfl⟩
  | cons step rest ih =>
    obtain ⟨hle, hsame⟩ := h.perform_revision step.1 step.2
    obtain ⟨hle', hsame'⟩ := ih (h.perform step.1 step.2)
    refine ⟨le_trans hle hle', fun heq => ?_⟩
    change (((s.perform step.1 step.2).store.after rest).revision = _) at heq
    change ((s.perform step.1 step.2).store.after rest).contents.snapshots = _
    rw [hsame' (by omega), hsame (by omega)]

def forces : Operation → Bool
  | .sort _ _ anew => anew
  | _ => false

theorem get?_view {views : ViewCache} {key : String} {revision : Nat} {records : List Snapshot} :
    views.get? key revision = some records ↔
      SortedMap.get? views.views key = some ⟨revision, records⟩ := by
  unfold ViewCache.get?
  cases SortedMap.get? views.views key with
  | none => simp
  | some view =>
    obtain ⟨revision', records'⟩ := view
    dsimp only
    by_cases heq : revision' = revision
    · rw [if_pos heq, heq]
      simp
    · rw [if_neg heq]
      simp [heq]

theorem get?_put (views : ViewCache) (key key' : String) (revision : Nat)
    (records : List Snapshot) :
    SortedMap.get? (views.put key revision records).views key' =
      if key' = key then some ⟨revision, records⟩ else SortedMap.get? views.views key' :=
  SortedMap.get?_insert ..

theorem get?_viewsBefore {anew : Bool} {key : String} {view : View}
    (h : SortedMap.get? (s.viewsBefore anew).views key = some view) :
    anew = false ∧ SortedMap.get? s.views.views key = some view := by
  unfold viewsBefore at h
  cases anew with
  | true => exact absurd h (by simp [ViewCache.empty, SortedMap.get?])
  | false => exact ⟨rfl, h⟩

/-- A view that an operation leaves was kept before, or the operation is the sort that made it. -/
theorem Sound.perform_view (h : s.Sound) (w : World) (operation : Operation) {key : String}
    {view : View}
    (hview : SortedMap.get? (s.perform w operation).store.views.views key = some view) :
    (forces operation = false ∧ SortedMap.get? s.views.views key = some view) ∨
    ∃ order filter anew, operation = .sort order filter anew ∧
      ViewCache.keyFor order filter = some key ∧ s.revision = view.revision ∧
      s.contents.sorted order filter = .ok view.records ∧ view.records ≠ [] ∧
      (s.sort w order filter anew).result = .ok view.records := by
  rcases h.perform_cases w operation with ⟨order, filter, anew, rfl, -⟩ | ⟨hnot, hmoves⟩
  · change SortedMap.get? (s.sort w order filter anew).store.views.views key = some view at hview
    rcases sort_cases (w := w) h.usable order filter anew with
      ⟨_, _, hanew, -, -, -, halike⟩ |
      ⟨-, hresult, ⟨halike, -⟩ | ⟨key', records, hkey, hsorted, hsome, halike⟩⟩
    · rw [halike.views] at hview
      exact Or.inl ⟨hanew, hview⟩
    · rw [halike.views] at hview
      exact Or.inl (get?_viewsBefore hview)
    · rw [halike.views] at hview
      change SortedMap.get? ((s.viewsBefore anew).put key' s.revision records).views key =
        some view at hview
      rw [get?_put] at hview
      split_ifs at hview with heq
      · obtain rfl := Option.some.inj hview
        exact Or.inr ⟨order, filter, anew, rfl, heq ▸ hkey, rfl, hsorted, hsome,
          hresult.trans hsorted⟩
      · exact Or.inl (get?_viewsBefore hview)
  · have hforces : forces operation = false := by
      cases operation with
      | sort order filter anew => exact absurd rfl (hnot order filter anew)
      | _ => rfl
    rcases hmoves.views with ⟨-, -, hviews⟩ | ⟨-, hviews | hviews⟩
    · exact Or.inl ⟨hforces, hviews ▸ hview⟩
    · exact Or.inl ⟨hforces, hviews ▸ hview⟩
    · rw [hviews] at hview
      exact absurd hview (by simp [ViewCache.empty, SortedMap.get?])

/-- A sort that answers with records leaves them as the view under its key. -/
theorem Sound.sort_keeps (h : s.Sound) {w : World} {anew : Bool} {key : String}
    {records : List Snapshot} (hkey : ViewCache.keyFor order filter = some key)
    (hresult : (s.sort w order filter anew).result = .ok records) (hsome : records ≠ []) :
    (s.sort w order filter anew).store.views.get? key s.revision = some records := by
  rcases sort_cases (w := w) h.usable order filter anew with
    ⟨key', records', -, hkey', hget, hresult', halike⟩ |
    ⟨-, hresult', ⟨-, hnothing⟩ | ⟨key', records', hkey', hsorted, -, halike⟩⟩
  · obtain rfl := Option.some.inj (hkey.symm.trans hkey')
    obtain rfl := Except.ok.inj (hresult.symm.trans hresult')
    rw [halike.views]
    exact hget
  · rcases hnothing with hnone | hempty
    · exact absurd (hkey.symm.trans hnone) (by simp)
    · exact absurd (hempty records (hresult'.symm.trans hresult)) hsome
  · obtain rfl := Option.some.inj (hkey.symm.trans hkey')
    obtain rfl := Except.ok.inj (hresult.symm.trans (hresult'.trans hsorted))
    rw [get?_view, halike.views]
    change SortedMap.get? ((s.viewsBefore anew).put key s.revision records).views key = _
    rw [get?_put, if_pos rfl]

/-- Unless it forces views to be made anew, an operation at one revision keeps what is kept. -/
theorem Sound.perform_keeps (h : s.Sound) {w : World} {operation : Operation}
    (hforces : forces operation = false)
    (hrevision : (s.perform w operation).store.revision = s.revision) {key : String}
    {records : List Snapshot} (hkept : s.views.get? key s.revision = some records) :
    (s.perform w operation).store.views.get? key s.revision = some records := by
  rcases h.perform_cases w operation with ⟨order, filter, anew, rfl, -⟩ | ⟨-, hmoves⟩
  · obtain rfl : anew = false := hforces
    change (s.sort w order filter false).store.views.get? key s.revision = some records
    rcases sort_cases (w := w) h.usable order filter false with
      ⟨_, _, -, -, -, -, halike⟩ | ⟨hnone, -, ⟨halike, -⟩ | ⟨key', records', hkey', -, -, halike⟩⟩
    · rw [halike.views]
      exact hkept
    · rw [halike.views]
      exact hkept
    · have hother : key ≠ key' := by
        rintro rfl
        rw [hkey'] at hnone
        exact absurd (hnone.symm.trans hkept) (by simp)
      rw [get?_view, halike.views]
      change SortedMap.get? ((s.viewsBefore false).put key' s.revision records').views key = _
      rw [get?_put, if_neg hother]
      exact get?_view.mp hkept
  · rcases hmoves.views with ⟨-, -, hviews⟩ | ⟨hnext, -⟩
    · rw [hviews]
      exact hkept
    · omega

theorem Sound.after_keeps (h : s.Sound) {steps : List (World × Operation)}
    (hforces : ∀ step ∈ steps, forces step.2 = false)
    (hrevision : (s.after steps).revision = s.revision) {key : String}
    {records : List Snapshot} (hkept : s.views.get? key s.revision = some records) :
    (s.after steps).views.get? key s.revision = some records := by
  induction steps generalizing s with
  | nil => exact hkept
  | cons step rest ih =>
    obtain ⟨hstep, hrest⟩ := List.forall_mem_cons.mp hforces
    have hnext := h.perform step.1 step.2
    obtain ⟨hle, -⟩ := h.perform_revision step.1 step.2
    obtain ⟨hle', -⟩ := hnext.after_revision rest
    change ((s.perform step.1 step.2).store.after rest).revision = _ at hrevision
    have hsame : (s.perform step.1 step.2).store.revision = s.revision := by omega
    have hafter := h.perform_keeps hstep hsame hkept
    rw [← hsame] at hafter ⊢
    exact ih hnext hrest (hrevision.trans hsame.symm) hafter

/-! ### What views were made by -/

/-- A sort of the run made a view under a key, and no sort after it was forced. -/
def Made (s : Store) (steps : List (World × Operation)) (key : String) (view : View) : Prop :=
  ∃ before w order filter anew rest,
    steps = before ++ (w, Operation.sort order filter anew) :: rest ∧
    (∀ step ∈ rest, forces step.2 = false) ∧
    ViewCache.keyFor order filter = some key ∧
    (s.after before).revision = view.revision ∧
    (s.after before).contents.sorted order filter = .ok view.records ∧ view.records ≠ [] ∧
    ((s.after before).sort w order filter anew).result = .ok view.records

/-- A sort of the run answered with some records under a key; the revision has not moved since,
and no sort after it was forced. -/
def Answered (s : Store) (steps : List (World × Operation)) (key : String)
    (records : List Snapshot) : Prop :=
  ∃ before w order filter anew rest,
    steps = before ++ (w, Operation.sort order filter anew) :: rest ∧
    (∀ step ∈ rest, forces step.2 = false) ∧
    ViewCache.keyFor order filter = some key ∧
    (s.after before).revision = (s.after steps).revision ∧ records ≠ [] ∧
    ((s.after before).sort w order filter anew).result = .ok records

/-- Every kept view was made by a sort of the run. -/
theorem Fresh.made (hs : s.Fresh) (steps : List (World × Operation)) {key : String} {view : View}
    (hview : SortedMap.get? (s.after steps).views.views key = some view) :
    s.Made steps key view := by
  induction steps using List.reverseRecOn generalizing key view with
  | nil =>
    obtain ⟨_, _, _, hbuild⟩ := hs.exists_build
    obtain ⟨_, -, -, -, hempty, -, -, -⟩ := build_cases hbuild
    change SortedMap.get? s.views.views key = some view at hview
    rw [hempty] at hview
    exact absurd hview (by simp [ViewCache.empty, SortedMap.get?])
  | append_singleton steps step ih =>
    obtain ⟨w, operation⟩ := step
    have hsound := hs.sound.1.after steps
    rw [after_append] at hview
    rcases hsound.perform_view w operation hview with
      ⟨hforces, hbefore⟩ | ⟨order, filter, anew, rfl, hkey, hrevision, hsorted, hsome, hresult⟩
    · obtain ⟨before, w', order, filter, anew, rest, hsteps, hrest, hmade⟩ := ih hbefore
      refine ⟨before, w', order, filter, anew, rest ++ [(w, operation)], ?_, ?_, hmade⟩
      · rw [hsteps, List.append_assoc, List.cons_append]
      · intro step hstep
        rcases List.mem_append.mp hstep with hmem | hmem
        · exact hrest step hmem
        · rw [List.mem_singleton.mp hmem]
          exact hforces
    · exact ⟨steps, w, order, filter, anew, [], rfl, by simp, hkey, hrevision, hsorted, hsome,
        hresult⟩

/-- What is kept under a key is what earlier sorts under the key answered with. -/
theorem Fresh.kept_iff (hs : s.Fresh) (steps : List (World × Operation)) (key : String)
    (records : List Snapshot) :
    (s.after steps).views.get? key (s.after steps).revision = some records ↔
      s.Answered steps key records := by
  constructor
  · intro hkept
    obtain ⟨before, w, order, filter, anew, rest, hsteps, hrest, hkey, hrevision, -, hsome,
      hresult⟩ := hs.made steps (get?_view.mp hkept)
    exact ⟨before, w, order, filter, anew, rest, hsteps, hrest, hkey, hrevision, hsome, hresult⟩
  · rintro ⟨before, w, order, filter, anew, rest, rfl, hrest, hkey, hrevision, hsome, hresult⟩
    have hsound := hs.sound.1.after before
    have hkept := hsound.sort_keeps hkey hresult hsome
    have hafter : s.after (before ++ (w, .sort order filter anew) :: rest) =
        ((s.after before).sort w order filter anew).store.after rest := after_append ..
    have hnext : ((s.after before).sort w order filter anew).store.Sound :=
      hsound.perform w (.sort order filter anew)
    obtain ⟨hle, -⟩ := hsound.perform_revision w (.sort order filter anew)
    change _ ≤ ((s.after before).sort w order filter anew).store.revision at hle
    obtain ⟨hle', -⟩ := hnext.after_revision rest
    rw [hafter] at hrevision ⊢
    have hsame : ((s.after before).sort w order filter anew).store.revision =
        (s.after before).revision := by omega
    rw [← hsame] at hkept hrevision
    rw [← hrevision]
    exact hnext.after_keeps hrest hrevision.symm hkept

/-! ### Sorts that may use kept views -/

theorem sort_anew (hs : s.poisoned = false) (w : World) (order : SortOrder)
    (filter : Option Where) :
    (s.sort w order filter true).result = s.contents.sorted order filter := by
  rcases sort_cases (w := w) hs order filter true with
    ⟨_, _, hanew, -⟩ | ⟨-, hresult, -⟩
  · exact absurd hanew (by decide)
  · exact hresult

/-- A sort gives out what is kept under its key, and otherwise sorts anew. -/
theorem sort_kept (hs : s.poisoned = false) (w : World) (order : SortOrder)
    (filter : Option Where) :
    (∀ key records, ViewCache.keyFor order filter = some key →
      s.views.get? key s.revision = some records →
      (s.sort w order filter false).result = .ok records) ∧
    ((∀ key records, ViewCache.keyFor order filter = some key →
      s.views.get? key s.revision ≠ some records) →
      (s.sort w order filter false).result = s.contents.sorted order filter) := by
  rcases sort_cases (w := w) hs order filter false with
    ⟨key, records, -, hkey, hget, hresult, -⟩ | ⟨hnone, hresult, -⟩
  · constructor
    · intro key' records' hkey' hget'
      obtain rfl := Option.some.inj (hkey.symm.trans hkey')
      rw [hresult, Option.some.inj (hget.symm.trans hget')]
    · intro hnothing
      exact absurd hget (hnothing key records hkey)
  · constructor
    · intro key records hkey hget
      rw [hkey] at hnone
      exact absurd (hnone.symm.trans hget) (by simp)
    · exact fun _ => hresult

/-- Plain requests under one key at one revision have one answer. -/
theorem Fresh.sorted_of_kept (hs : s.Fresh) (steps : List (World × Operation)) {key : String}
    {records : List Snapshot} (hplain : ViewCache.Plain order filter)
    (hothers : ∀ w order' filter' anew, (w, Operation.sort order' filter' anew) ∈ steps →
      ViewCache.keyFor order' filter' = some key → ViewCache.Plain order' filter')
    (hkey : ViewCache.keyFor order filter = some key)
    (hkept : (s.after steps).views.get? key (s.after steps).revision = some records) :
    (s.after steps).contents.sorted order filter = .ok records := by
  obtain ⟨before, w, order', filter', anew, rest, rfl, -, hkey', hrevision, hsorted, -, -⟩ :=
    hs.made steps (get?_view.mp hkept)
  have hplain' : ViewCache.Plain order' filter' :=
    hothers w order' filter' anew (List.mem_append_right _ (List.mem_cons_self ..)) hkey'
  have hbefore := hs.sound.1.after before
  have hafter := after_append s before ((w, Operation.sort order' filter' anew) :: rest)
  obtain ⟨-, hsame⟩ := hbefore.after_revision ((w, Operation.sort order' filter' anew) :: rest)
  rw [← hafter] at hsame
  have hsnapshots := hsame hrevision.symm
  have hsound := hs.sound.1.after (before ++ (w, Operation.sort order' filter' anew) :: rest)
  have heq := hsound.consistent.sorted_eq hbefore.consistent hsnapshots.symm hplain hplain' hkey
    hkey'
  rw [← heq, hsorted]

/-- Where all sorts under one key are plain, a kept view is what sorting anew gives. -/
theorem Fresh.sort_of_plain (hs : s.Fresh) (steps : List (World × Operation)) (w : World)
    (hplain : ViewCache.Plain order filter)
    (hothers : ∀ key w order' filter' forced, ViewCache.keyFor order filter = some key →
      (w, Operation.sort order' filter' forced) ∈ steps →
      ViewCache.keyFor order' filter' = some key → ViewCache.Plain order' filter') :
    ((s.after steps).sort w order filter false).result =
      (s.after steps).contents.sorted order filter := by
  obtain ⟨hserved, hotherwise⟩ := sort_kept (hs.sound.1.after steps).usable w order filter
  by_cases hview : ∃ key records, ViewCache.keyFor order filter = some key ∧
      (s.after steps).views.get? key (s.after steps).revision = some records
  · obtain ⟨key, records, hkey, hget⟩ := hview
    have hsorted := hs.sorted_of_kept steps hplain
      (fun w order' filter' forced => hothers key w order' filter' forced hkey) hkey hget
    exact (hserved key records hkey hget).trans hsorted.symm
  · apply hotherwise
    intro key records hkey hget
    exact hview ⟨key, records, hkey, hget⟩

/-- While orders come from texts that are read and filters are plain, sorting gives the same with
kept views and without. -/
theorem Fresh.sort_of_read (hs : s.Fresh) (steps : List (World × Operation)) (w w' : World)
    {text : String} (horder : SortOrder.read text = .ok order)
    (hfilter : ∀ q, filter = some q → q.Plain)
    (hsteps : ∀ w order' filter' forced, (w, Operation.sort order' filter' forced) ∈ steps →
      (∃ text', SortOrder.read text' = .ok order') ∧ ∀ q, filter' = some q → q.Plain) :
    ((s.after steps).sort w order filter false).result =
      ((s.after steps).sort w' order filter true).result := by
  rw [sort_anew (hs.sound.1.after steps).usable w' order filter]
  apply hs.sort_of_plain steps w ⟨SortOrder.read_plain horder, hfilter⟩
  intro key w order' filter' forced _ hmem _
  obtain ⟨⟨text', horder'⟩, hfilter'⟩ := hsteps w order' filter' forced hmem
  exact ⟨SortOrder.read_plain horder', hfilter'⟩

/-- After any operations, a sort that may use a kept view answers with what earlier sorts under
its key answered with, if the revision has not moved and no sort was forced since. So it answers
as a sort that makes its view anew exactly if all those answers are what sorting anew gives; and
they are whenever this request and the earlier ones under its key are plain. -/
theorem sort_after_operations (hs : s.Fresh) (steps : List (World × Operation)) (w w' : World)
    (order : SortOrder) (filter : Option Where) :
    let t := s.after steps
    let kept := (t.sort w order filter false).result
    let anew := (t.sort w' order filter true).result
    anew = t.contents.sorted order filter ∧
    (∀ key records, ViewCache.keyFor order filter = some key → s.Answered steps key records →
      kept = .ok records) ∧
    (kept = anew ↔ ∀ key records, ViewCache.keyFor order filter = some key →
      s.Answered steps key records → anew = .ok records) ∧
    (ViewCache.Plain order filter →
      (∀ key w order' filter' forced, ViewCache.keyFor order filter = some key →
        (w, .sort order' filter' forced) ∈ steps →
        ViewCache.keyFor order' filter' = some key → ViewCache.Plain order' filter') →
      kept = anew) := by
  intro t kept anew
  have hsound : t.Sound := hs.sound.1.after steps
  have hanew : anew = t.contents.sorted order filter := sort_anew hsound.usable w' order filter
  obtain ⟨hserved, hotherwise⟩ := sort_kept hsound.usable w order filter
  have hanswered : ∀ key records, ViewCache.keyFor order filter = some key →
      s.Answered steps key records → kept = .ok records := by
    intro key records hkey hearlier
    exact hserved key records hkey ((hs.kept_iff steps key records).mpr hearlier)
  have hexact : kept = anew ↔ ∀ key records, ViewCache.keyFor order filter = some key →
      s.Answered steps key records → anew = .ok records := by
    constructor
    · intro heq key records hkey hearlier
      rw [← heq]
      exact hanswered key records hkey hearlier
    · intro hall
      by_cases hview : ∃ key records, ViewCache.keyFor order filter = some key ∧
          t.views.get? key t.revision = some records
      · obtain ⟨key, records, hkey, hget⟩ := hview
        have hearlier := (hs.kept_iff steps key records).mp hget
        exact (hanswered key records hkey hearlier).trans (hall key records hkey hearlier).symm
      · exact (hotherwise fun key records hkey hget =>
          hview ⟨key, records, hkey, hget⟩).trans hanew.symm
  refine ⟨hanew, hanswered, hexact, fun hplain hothers => ?_⟩
  rw [hanew]
  exact hs.sort_of_plain steps w hplain hothers

def byX : SortOrder := ⟨[⟨"x", .ascending⟩]⟩

def sortedOnce (v : Value) : List (World × Operation) :=
  [(.bare, .set (some "r") [("x", v)] ⟨false, false⟩),
    (.bare, .set (some "t") [("y", .bool true)] ⟨false, false⟩),
    (.bare, .sort byX (some (Where.empty.equals "x" v)) false)]

theorem sort_sortedOnce :
    let filter := some (Where.empty.equals "x" (.bool true))
    let t := plain.after (sortedOnce (.bool true))
    plain.Fresh ∧ ViewCache.Plain byX filter ∧
      (t.sort .bare byX filter false).result = .ok [⟨"r", 0, [("x", .bool true)]⟩] := by
  intro filter t
  have hplain : ViewCache.Plain byX filter := by
    constructor
    · intro k hk
      rw [List.mem_singleton.mp hk]
      intro d
      cases d with
      | ascending => decide
      | descending => decide
    · intro q hq
      obtain rfl := Option.some.inj hq
      constructor
      · rintro ⟨name, hname, hmem⟩
        rw [List.mem_singleton.mp hname] at hmem
        exact absurd hmem (by decide)
      · intro field v hv
        have heq := List.mem_singleton.mp hv
        obtain ⟨-, hclause⟩ := Prod.mk.inj heq
        rw [Clause.equals.inj hclause]
        exact trivial
  obtain ⟨hanew, -, -, htransparent⟩ :=
    sort_after_operations plain_fresh (sortedOnce (.bool true)) .bare .bare byX filter
  refine ⟨plain_fresh, hplain, ?_⟩
  have hothers : ∀ key w order' filter' forced, ViewCache.keyFor byX filter = some key →
      (w, Operation.sort order' filter' forced) ∈ sortedOnce (.bool true) →
        ViewCache.keyFor order' filter' = some key → ViewCache.Plain order' filter' := by
    intro key w order' filter' forced _ hmem _
    rcases List.mem_cons.mp hmem with heq | hmem
    · exact absurd (Prod.mk.inj heq).2 (by simp)
    · rcases List.mem_cons.mp hmem with heq | hmem
      · exact absurd (Prod.mk.inj heq).2 (by simp)
      · obtain ⟨horder, hfilter, -⟩ :=
          Operation.sort.inj (Prod.mk.inj (List.mem_singleton.mp hmem)).2
        rw [horder, hfilter]
        exact hplain
  exact (htransparent hplain hothers).trans hanew

/-- Records without the field satisfy the clause that wants null. The view that is kept under its
key has the record of the infinite number instead. -/
theorem sort_mistakes_infinity :
    let t := plain.after (sortedOnce (.number (Number.infinity false)))
    let q := Where.empty.equals "x" .null
    plain.Fresh ∧ q.fault? = none ∧
      (t.sort .bare byX (some q) false).result =
        .ok [⟨"r", 0, [("x", .number (Number.infinity false))]⟩] ∧
      (t.sort .bare byX (some q) true).result = .ok [⟨"t", 1, [("y", .bool true)]⟩] ∧
      (t.sort .bare byX (some q) false).result ≠ (t.sort .bare byX (some q) true).result := by
  intro t q
  have hkept : (t.sort .bare byX (some q) false).result =
      .ok [⟨"r", 0, [("x", .number (Number.infinity false))]⟩] := rfl
  have hanew : (t.sort .bare byX (some q) true).result = .ok [⟨"t", 1, [("y", .bool true)]⟩] := rfl
  refine ⟨plain_fresh, rfl, hkept, hanew, ?_⟩
  rw [hkept, hanew]
  exact fun heq => absurd (Except.ok.inj heq) (by simp)

end Store
end IndexedStore
