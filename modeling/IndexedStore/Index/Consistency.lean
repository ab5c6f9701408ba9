import IndexedStore.Index.Catalog

/-!
Checks of indexes against the slots of records. Each disagreement is a problem with a text.
-/
namespace IndexedStore.Catalog

inductive Problem where
  | misplaced (key : String) (offset position : Nat)
  | primary (key : String) (held : Option Nat) (position : Nat)
  | missing (signature bucket : String) (position : Nat)
  | primaryCount (held live : Nat)
  | entryCount (held expected : Nat)
deriving DecidableEq, Repr

open Text (quoted)

def Problem.text : Problem → String
  | misplaced key offset position =>
    "record " ++ quoted key ++ s!" at offset {offset} has position {position}"
  | primary key held position =>
    let heldText := match held with
      | some p => s!"Some({p})"
      | none => "None"
    "primary index maps " ++ quoted key ++ s!" to {heldText}, expected {position}"
  | missing signature bucket position =>
    "index " ++ quoted signature ++ " bucket " ++ quoted bucket ++
      s!" is missing position {position}"
  | primaryCount held live => s!"primary index holds {held} keys for {live} records"
  | entryCount held expected =>
    s!"secondary indexes hold {held} positions, expected {expected}"

def slotProblems (c : Catalog) (offset : Nat) (r : Record) : List Problem :=
  (if r.position ≠ offset then [.misplaced r.key offset r.position] else []) ++
  (if c.position? r.key ≠ some r.position then
    [.primary r.key (c.position? r.key) r.position] else []) ++
  c.secondary.filterMap fun (signature, ix) =>
    let bucket := ix.bucketOf r.fields
    if ix.contains bucket r.position then none
    else some (.missing signature bucket r.position)

def slotsProblems (c : Catalog) (offset : Nat) : List (Option Record) → List Problem
  | [] => []
  | none :: rest => slotsProblems c (offset + 1) rest
  | some r :: rest => c.slotProblems offset r ++ slotsProblems c (offset + 1) rest

def problems (c : Catalog) (slots : List (Option Record)) : List Problem :=
  let live := (slots.filter Option.isSome).length
  let held := c.secondary.foldl (fun n (_, ix) => n + ix.count) 0
  c.slotsProblems 0 slots ++
  (if c.primary.length ≠ live then [.primaryCount c.primary.length live] else []) ++
  (if held ≠ live * c.secondary.length then [.entryCount held (live * c.secondary.length)] else [])

end IndexedStore.Catalog
