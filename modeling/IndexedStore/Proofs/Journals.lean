import IndexedStore.Proofs.Loads
import Mathlib.Logic.Function.Basic

/-!
A list of keys and what stands under them, with what stood under them before, and what operations
make of it. There are no slots, positions or indexes in it. Which key an operation is about, what
fields come to when others are put over them, and which records a batch, a payload or an archive
holds is read off these alone.
-/
namespace IndexedStore

abbrev Cells := String → Option Value

namespace Cells

def of (data : Fields) : Cells := fun name => data.lookup name

/-- Data put over cells. A name that the data has several times counts with its last value. -/
def overlaid (cells : Cells) (data : Fields) : Cells :=
  fun name => (data.reverse.lookup name).or (cells name)

def stored (data : Fields) (overwrite : Bool) : Option Cells → Cells
  | some cells => if overwrite then of data else cells.overlaid data
  | none => of data

theorem of_eq (data : Fields) : of data = SortedMap.get? data := by
  funext name
  unfold of
  induction data with
  | nil => rfl
  | cons e rest ih =>
    obtain ⟨other, v⟩ := e
    rw [List.lookup_cons, SortedMap.get?_cons, ih]
    by_cases hname : name = other
    · simp [hname]
    · have hne : (name == other) = false := by simpa using hname
      simp [hne, Ne.symm hname]

theorem of_insert (data : Fields) (name : String) (v : Value) :
    of (SortedMap.insert data name v) = Function.update (of data) name (some v) := by
  funext other
  rw [of_eq, of_eq, SortedMap.get?_insert, Function.update_apply]

/-- Merging fields is putting the second over the first. -/
theorem of_merge (current data : Fields) :
    of (SortedMap.merge current data) = (of current).overlaid data := by
  induction data generalizing current with
  | nil => rfl
  | cons e rest ih =>
    obtain ⟨other, v⟩ := e
    funext name
    have hrest := congrFun (ih (SortedMap.insert current other v)) name
    unfold overlaid at hrest ⊢
    rw [of_insert, Function.update_apply] at hrest
    rw [List.reverse_cons, List.lookup_append, Option.or_assoc]
    refine hrest.trans (congrArg _ ?_)
    by_cases hname : name = other
    · simp [hname]
    · have hne : (name == other) = false := by simpa using hname
      simp [List.lookup_cons, hname, hne]

/-- Storing data under a key puts it over what the record there gives. -/
theorem of_fieldsAfter (data : Fields) (overwrite : Bool) (before : Option Fields) :
    of (Contents.fieldsAfter data overwrite before) = stored data overwrite (before.map of) := by
  cases before with
  | none => rfl
  | some current =>
    cases overwrite with
    | true => rfl
    | false => exact of_merge current data

end Cells

structure Journal where
  pairs : Ledger Cells
  /-- What stood under each key before, with labels, the latest first. -/
  earlier : String → Ledger Cells
  /-- The number of labels that have been given. -/
  labelled : Nat

namespace Journal

def empty : Journal := ⟨[], fun _ => [], 0⟩

/-- Something stored under a key. What stood there gets the next label, while versions are
kept. -/
def store (j : Journal) (versioning : Bool) (key : String) (next : Option Cells → Cells) :
    Journal :=
  let pairs := j.pairs.put key next
  match j.pairs.lookup key with
  | some cells =>
    if versioning then
      let labelled := ("v" ++ toString j.labelled, cells) :: j.earlier key
      ⟨pairs, Function.update j.earlier key labelled, j.labelled + 1⟩
    else { j with pairs := pairs }
  | none => { j with pairs := pairs }

def storeAll (j : Journal) (versioning : Bool) (pairs : List (String × Fields)) : Journal :=
  pairs.foldl (fun j e => j.store versioning e.1 (Cells.stored e.2 false)) j

def erase (j : Journal) (key : String) : Journal :=
  if key ∈ j.pairs.map Prod.fst then
    { j with pairs := j.pairs.erase key, earlier := Function.update j.earlier key [] }
  else j

/-- Nothing under any key; labels count on. -/
def cleared (j : Journal) : Journal := { j with pairs := [], earlier := fun _ => [] }

/-- What an undo goes back to: what is kept under a label, or the oldest that is kept. -/
def earlier? (j : Journal) (limit : Nat) (key : String) (label : Option String) : Option Cells :=
  let kept := (j.earlier key).take (max limit 1)
  match label with
  | some label => kept.lookup label
  | none => kept.getLast?.map Prod.snd

variable {j : Journal} {key : String} {cells : Cells}

theorem store_of_absent (h : j.pairs.lookup key = none) (versioning : Bool)
    (next : Option Cells → Cells) :
    j.store versioning key next = { j with pairs := j.pairs.put key next } := by
  unfold store
  rw [h]

theorem store_unversioned (j : Journal) (key : String) (next : Option Cells → Cells) :
    j.store false key next = { j with pairs := j.pairs.put key next } := by
  unfold store
  cases j.pairs.lookup key <;> rfl

theorem store_of_present (h : j.pairs.lookup key = some cells) (next : Option Cells → Cells) :
    j.store true key next =
      ⟨j.pairs.put key next,
        Function.update j.earlier key (("v" ++ toString j.labelled, cells) :: j.earlier key),
        j.labelled + 1⟩ := by
  unfold store
  rw [h]
  rfl

theorem erase_of_absent (h : key ∉ j.pairs.map Prod.fst) : j.erase key = j := by
  unfold erase
  rw [if_neg h]

end Journal

/-! ### What operations bring -/

theorem mapM_eq_some_iff {α β : Type} {f : α → Option β} {g : β → α}
    (h : ∀ a b, f a = some b ↔ a = g b) {list : List α} {found : List β} :
    list.mapM f = some found ↔ list = found.map g := by
  induction list generalizing found with
  | nil => cases found <;> simp
  | cons a rest ih =>
    simp only [List.mapM_cons, Option.bind_eq_bind, Option.pure_def, Option.bind_eq_some_iff, h, ih]
    constructor
    · rintro ⟨b, rfl, later, rfl, heq⟩
      exact congrArg (List.map g) (Option.some.inj heq)
    · intro heq
      cases found with
      | nil => exact absurd heq (by simp)
      | cons b later =>
        obtain ⟨ha, hrest⟩ := List.cons.inj heq
        exact ⟨b, ha, later, hrest, rfl⟩

namespace Value

def object? : Value → Option Fields
  | .map data => some data
  | _ => none

/-- The objects of a collection, which is a list of them or a map of them under names. -/
def objects? : Value → Option (List (Option String × Fields))
  | .list items =>
    (items.mapM object?).map fun objects => objects.map fun data => (none, data)
  | .map entries =>
    (entries.mapM fun (e : String × Value) => e.2.object?.map fun data => (e.1, data)).map
      fun objects => objects.map fun e => (some e.1, e.2)
  | _ => none

theorem object?_eq_some_iff {v : Value} {data : Fields} :
    v.object? = some data ↔ v = .map data := by
  cases v <;> simp [object?]

theorem objects?_eq_some_iff {p : Value} {objects : List (Option String × Fields)} :
    p.objects? = some objects ↔ Payload.Collects p objects := by
  have hentry (e : String × Value) (e' : String × Fields) :
      (e.2.object?.map fun data => (e.1, data)) = some e' ↔ e = (e'.1, .map e'.2) := by
    simp [object?_eq_some_iff, Prod.ext_iff]
    tauto
  constructor
  · intro h
    cases p with
    | list items =>
      obtain ⟨datas, hdatas, rfl⟩ := Option.map_eq_some_iff.mp h
      obtain rfl := (mapM_eq_some_iff fun _ _ => object?_eq_some_iff).mp hdatas
      exact .list datas
    | map entries =>
      obtain ⟨pairs, hpairs, rfl⟩ := Option.map_eq_some_iff.mp h
      obtain rfl := (mapM_eq_some_iff hentry).mp hpairs
      exact .map pairs
    | _ => exact absurd h (by simp [objects?])
  · intro h
    cases h with
    | list datas =>
      unfold objects?
      dsimp only
      rw [(mapM_eq_some_iff fun _ _ => object?_eq_some_iff).mpr rfl]
      rfl
    | map pairs =>
      unfold objects?
      dsimp only
      rw [(mapM_eq_some_iff hentry).mpr rfl]
      rfl

def deletedKey? (keyField : Option String) : Value → Option String
  | .map data => broughtKey? keyField none data
  | .null => none
  | v => some v.keyText

end Value

def indexable (names : List String) : Bool :=
  !names.isEmpty && !names.any fun name => name.isEmpty || name.toList.contains '|'

theorem indexable_iff (names : List String) :
    indexable names = true ↔ (Catalog.signature? names).isSome := by
  have hfind : (names.find? fun name =>
      name.isEmpty || name.toList.contains Bucket.separator).isSome =
        names.any fun name => name.isEmpty || name.toList.contains '|' := List.isSome_find?
  unfold indexable Catalog.signature? Catalog.canonicalFields
  rw [← hfind]
  cases names.isEmpty with
  | true => simp [Except.toOption]
  | false =>
    cases names.find? fun name => name.isEmpty || name.toList.contains Bucket.separator with
    | some name => simp [Except.toOption]
    | none => simp [Except.toOption]

def Archive.pairs (archive : Archive) : Ledger Cells :=
  (archive.records.mergeSort fun a b => a.position ≤ b.position).foldl
    (fun l r => l.put r.key fun _ => Cells.of r.fields) []

def Storage.Backend.archive? (storage : Storage.Backend) (name : String) : Option Archive :=
  match storage.get name with
  | .ok (some bytes) =>
    (Cbor.readArchive? bytes).filter fun archive => archive.indexes.all indexable
  | _ => none

namespace Journal

/-- The items of a batch, those passed over that have no key or nothing to store. -/
def batch (j : Journal) (config : Config) (keys : KeySupply) (items : List Value) :
    BatchKind → Journal
  | .set =>
    let objects := (items.filterMap Value.object?).map fun data => (none, data)
    j.storeAll config.versioning (keyedObjects config.keyField keys objects)
  | .delete => (items.filterMap (Value.deletedKey? config.keyField)).foldl erase j

/-- The list after an operation, with the settings of the store, the records that are seen before
the operation, and the world. -/
def step (config : Config) (seen : List Snapshot) (w : World) (j : Journal) : Operation → Journal
  | .set given data options =>
    let key := (given.or (broughtKey? config.keyField none data)).getD (w.keys.key w.keys.used)
    j.store config.versioning key (Cells.stored data options.overwrite)
  | .undo key label =>
    match j.earlier? config.versionLimit key label with
    | some cells => j.store config.versioning key fun _ => cells
    | none => j
  | .delete target _ =>
    match target.named seen with
    | some r => j.erase r.key
    | none => j
  | .batch kind items replace | .batchDetailed kind items replace =>
    (if replace then j.cleared else j).batch config w.keys items kind
  | .load payload =>
    match (Payload.sourced? config.source payload).bind Value.objects? with
    | some objects =>
      j.cleared.storeAll config.versioning (keyedObjects config.keyField w.keys objects)
    | none => j
  | .restore =>
    match w.storage.archive? config.name with
    | some archive => ⟨archive.pairs, fun _ => [], 0⟩
    | none => j
  | .clear => j.cleared
  | _ => j

end Journal
end IndexedStore
