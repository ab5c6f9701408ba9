import Mathlib.Data.List.Induction
import IndexedStore.Proofs.Steps
import IndexedStore.Proofs.SortedMap
import IndexedStore.Store.Join

/-!
Joins are nested loops. Each record of the driving store is put beside every record of the other
store that it goes with, in the order of positions, and buckets only find those records sooner.
A row keeps the cells of both records apart as long as no column of one store and no column of
the other come to have one name in the rows.
-/
namespace IndexedStore

/-- Whether two records go together by a field: neither value is null, and the two are equal to
queries. -/
def Snapshot.joins (field : String) (r other : Snapshot) : Bool :=
  !(Fields.value r.fields field).isNull && !(Fields.value other.fields field).isNull &&
    (Fields.value other.fields field).looseEq (Fields.value r.fields field)

/-- The counterparts of a record among others. Unless the join is an inner one, a record that
goes with none of them has the missing counterpart. -/
def counterparts (others : List Snapshot) (field : String) (kind : JoinKind) (r : Snapshot) :
    List (Option Snapshot) :=
  match others.filter (r.joins field) with
  | [] => if kind = .inner then [] else [none]
  | found => found.map some

def nestedPairs (driving others : List Snapshot) (field : String) (kind : JoinKind) :
    List (Snapshot × Option Snapshot) :=
  driving.flatMap fun r => (counterparts others field kind r).map fun other => (r, other)

def HasColumn (records : List Snapshot) (column : String) : Prop :=
  ∃ r ∈ records, column ∈ SortedMap.names r.fields

/-- A row made of a record of one store and what was found for it in another: it has a cell for
each column of either store and nothing else, and where a column of each has the same name in the
row, the cell is the other store's. -/
structure Combines (driver other : String) (driving others : List Snapshot) (r : Snapshot)
    (counterpart : Option Snapshot) (row : Fields) : Prop where
  sorted : SortedMap.Sorted row
  found : ∀ column, HasColumn others column →
    SortedMap.get? row (other ++ "_" ++ column) =
      some ((counterpart.map fun r' => Fields.value r'.fields column).getD .null)
  own : ∀ column, HasColumn driving column →
    (∀ column', HasColumn others column' → other ++ "_" ++ column' ≠ driver ++ "_" ++ column) →
    SortedMap.get? row (driver ++ "_" ++ column) = some (Fields.value r.fields column)
  covered : ∀ name ∈ SortedMap.names row,
    (∃ column, HasColumn driving column ∧ name = driver ++ "_" ++ column) ∨
      ∃ column, HasColumn others column ∧ name = other ++ "_" ++ column

/-- No row but one combines two records. -/
theorem Combines.unique {driver other : String} {driving others : List Snapshot} {r : Snapshot}
    {counterpart : Option Snapshot} {row row' : Fields}
    (h : Combines driver other driving others r counterpart row)
    (h' : Combines driver other driving others r counterpart row') : row = row' := by
  refine SortedMap.ext_get? h.sorted h'.sorted fun name => ?_
  by_cases hfound : ∃ column, HasColumn others column ∧ other ++ "_" ++ column = name
  · obtain ⟨column, hcolumn, rfl⟩ := hfound
    rw [h.found column hcolumn, h'.found column hcolumn]
  by_cases hown : ∃ column, HasColumn driving column ∧ driver ++ "_" ++ column = name
  · obtain ⟨column, hcolumn, rfl⟩ := hown
    have hapart : ∀ column', HasColumn others column' →
        other ++ "_" ++ column' ≠ driver ++ "_" ++ column :=
      fun column' hcolumn' heq => hfound ⟨column', hcolumn', heq⟩
    rw [h.own column hcolumn hapart, h'.own column hcolumn hapart]
  have hmissing {row : Fields} (h : Combines driver other driving others r counterpart row) :
      SortedMap.get? row name = none := by
    by_contra hsome
    rcases h.covered name ((SortedMap.mem_names row name).mpr
      (Option.isSome_iff_ne_none.mpr hsome)) with ⟨column, hcolumn, heq⟩ | ⟨column, hcolumn, heq⟩
    · exact hown ⟨column, hcolumn, heq.symm⟩
    · exact hfound ⟨column, hcolumn, heq.symm⟩
  rw [hmissing h, hmissing h']

namespace JoinSide

variable {side driver other : JoinSide}

/-! ### Rows -/

theorem rowName_injective (side : JoinSide) : Function.Injective side.rowName := by
  intro column column' h
  have hchars := congrArg String.toList h
  simp only [rowName, String.toList_append, List.append_right_inj] at hchars
  exact String.toList_injective hchars

theorem mem_columns (s : Store) (column : String) :
    column ∈ (ofStore s).columns ↔ HasColumn s.contents.snapshots column := by
  unfold ofStore HasColumn
  rw [SortedMap.mem_distinct, List.mem_flatMap]

theorem nodup_columns (s : Store) : (ofStore s).columns.Nodup :=
  (SortedMap.pairwise_distinct _).imp ne_of_lt

theorem sorted_write (side : JoinSide) {row : Fields} (h : SortedMap.Sorted row)
    (record : Option Snapshot) : SortedMap.Sorted (side.write row record) := by
  unfold write
  induction side.columns generalizing row with
  | nil => exact h
  | cons column rest ih => exact ih (SortedMap.sorted_insert _ _ h)

theorem get?_write_of_ne (row : Fields) (record : Option Snapshot) {name : String}
    (h : ∀ column ∈ side.columns, side.rowName column ≠ name) :
    SortedMap.get? (side.write row record) name = SortedMap.get? row name := by
  unfold write
  generalize side.columns = columns at h ⊢
  induction columns generalizing row with
  | nil => rfl
  | cons column rest ih =>
    rw [List.foldl_cons, ih _ fun column' h' => h column' (List.mem_cons_of_mem _ h'),
      SortedMap.get?_insert_of_ne _ _ _ _ (h column List.mem_cons_self).symm]

theorem cell_eq (record : Option Snapshot) (column : String) :
    cell record column = (record.map fun r => Fields.value r.fields column).getD .null := by
  cases record <;> rfl

theorem get?_write_of_mem (row : Fields) (record : Option Snapshot) {column : String}
    (h : column ∈ side.columns) :
    SortedMap.get? (side.write row record) (side.rowName column) =
      some (cell record column) := by
  unfold write
  generalize side.columns = columns at h ⊢
  induction columns using List.reverseRecOn with
  | nil => simp at h
  | append_singleton rest last ih =>
    rw [List.foldl_concat, SortedMap.get?_insert]
    split_ifs with heq
    · rw [side.rowName_injective heq]
    · have hne : column ≠ last := fun hlast => heq (congrArg side.rowName hlast)
      exact ih (by simpa [hne] using h)

/-! ### Buckets -/

def fallsInto (field bucket : String) (r : Snapshot) : Bool :=
  !(Fields.value r.fields field).isNull && (Fields.value r.fields field).bucketText == bucket

/-- A bucket is there when some record falls into it, and holds those records in their order. -/
theorem get?_buckets (side : JoinSide) (field bucket : String) :
    SortedMap.get? (side.buckets field) bucket =
      match side.records.filter (fallsInto field bucket) with
      | [] => none
      | filed => some filed := by
  unfold buckets
  induction side.records using List.reverseRecOn with
  | nil => rfl
  | append_singleton records r ih =>
    rw [List.foldl_concat, List.filter_append, addToBucket]
    by_cases hnull : (Fields.value r.fields field).isNull = true
    · have hout : fallsInto field bucket r = false := by
        simp [fallsInto, hnull]
      rw [if_pos hnull, ih, List.filter_cons_of_neg (by simp [hout]), List.filter_nil,
        List.append_nil]
    · rw [if_neg hnull, SortedMap.get?_insert]
      by_cases hbucket : bucket = (Fields.value r.fields field).bucketText
      · have hin : fallsInto field bucket r = true := by
          simp [fallsInto, hnull, hbucket]
        rw [if_pos hbucket, ← hbucket, ih, List.filter_cons_of_pos hin, List.filter_nil]
        cases records.filter (fallsInto field bucket) with
        | nil => rfl
        | cons r' rest => rfl
      · have hout : fallsInto field bucket r = false := by
          simp [fallsInto, Ne.symm hbucket]
        rw [if_neg hbucket, ih, List.filter_cons_of_neg (by simp [hout]), List.filter_nil,
          List.append_nil]

end JoinSide

namespace Store

theorem counterparts_of_null {field : String} {r : Snapshot}
    (h : (Fields.value r.fields field).isNull = true) (others : List Snapshot) (kind : JoinKind) :
    counterparts others field kind r = if kind = .inner then [] else [none] := by
  unfold counterparts
  have hnone : others.filter (r.joins field) = [] :=
    List.filter_eq_nil_iff.mpr fun other _ => by simp [Snapshot.joins, h]
  rw [hnone]

theorem joins_of_not_null {field : String} {r : Snapshot}
    (h : (Fields.value r.fields field).isNull = false) :
    r.joins field = JoinSide.fallsInto field (Fields.value r.fields field).bucketText := by
  funext other
  unfold Snapshot.joins
  rw [h]
  rfl

/-- Looking a bucket up finds the counterparts of a record. -/
theorem joinRows_eq (driver other : JoinSide) (field : String) (kind : JoinKind) (r : Snapshot) :
    joinRows driver other (other.buckets field) field kind r =
      (counterparts other.records field kind r).map (joinRow driver other r) := by
  unfold joinRows
  dsimp only
  cases hnull : (Fields.value r.fields field).isNull with
  | true =>
    rw [counterparts_of_null hnull, if_pos rfl]
    split_ifs <;> rfl
  | false =>
    rw [if_neg Bool.false_ne_true, JoinSide.get?_buckets]
    unfold counterparts
    rw [joins_of_not_null hnull]
    cases other.records.filter (JoinSide.fallsInto field _) with
    | nil => split_ifs <;> rfl
    | cons r' rest => exact (List.map_map ..).symm

/-- The rows of one store driving another are made of the pairs of the nested loop. -/
theorem flatMap_joinRows (driver other : Store) (field : String) (kind : JoinKind) :
    (JoinSide.ofStore driver).records.flatMap (joinRows (.ofStore driver) (.ofStore other)
        ((JoinSide.ofStore other).buckets field) field kind) =
      (nestedPairs driver.contents.snapshots other.contents.snapshots field kind).map fun pair =>
        joinRow (.ofStore driver) (.ofStore other) pair.1 pair.2 := by
  unfold nestedPairs
  rw [List.map_flatMap]
  refine List.flatMap_congr fun r _ => ?_
  rw [joinRows_eq, List.map_map]
  rfl

theorem join_eq (left right : Store) (field : String) (kind : JoinKind) :
    let driver := if kind = .right then right else left
    let other := if kind = .right then left else right
    left.join right field kind =
      (nestedPairs driver.contents.snapshots other.contents.snapshots field kind).map fun pair =>
        joinRow (.ofStore driver) (.ofStore other) pair.1 pair.2 := by
  cases kind with
  | inner => exact flatMap_joinRows left right field .inner
  | left => exact flatMap_joinRows left right field .left
  | right => exact flatMap_joinRows right left field .right

theorem combines_joinRow (driver other : Store) (r : Snapshot) (counterpart : Option Snapshot) :
    Combines driver.name other.name driver.contents.snapshots other.contents.snapshots r
      counterpart (joinRow (.ofStore driver) (.ofStore other) r counterpart) := by
  refine ⟨JoinSide.sorted_write _ (JoinSide.sorted_write _ SortedMap.sorted_nil _) _,
    fun column hcolumn => ?_, fun column hcolumn hapart => ?_, fun name hname => ?_⟩
  · rw [← JoinSide.cell_eq]
    exact JoinSide.get?_write_of_mem _ _ ((JoinSide.mem_columns other column).mpr hcolumn)
  · refine (JoinSide.get?_write_of_ne _ _ fun column' hcolumn' => ?_).trans
      (JoinSide.get?_write_of_mem _ _ ((JoinSide.mem_columns driver column).mpr hcolumn))
    exact hapart column' ((JoinSide.mem_columns other column').mp hcolumn')
  · by_contra hnot
    rw [not_or] at hnot
    rw [SortedMap.mem_names] at hname
    unfold joinRow at hname
    rw [JoinSide.get?_write_of_ne _ _ fun column hcolumn heq =>
        hnot.2 ⟨column, (JoinSide.mem_columns other column).mp hcolumn, heq.symm⟩,
      JoinSide.get?_write_of_ne _ _ fun column hcolumn heq =>
        hnot.1 ⟨column, (JoinSide.mem_columns driver column).mp hcolumn, heq.symm⟩] at hname
    exact absurd hname Bool.false_ne_true

/-- The rows of a join are those of the nested loop: one for each pair, in the order of the
pairs, made of the two records of the pair. -/
theorem joined_after_operations {l r : Store} (hl : l.Fresh) (hr : r.Fresh)
    (steps steps' : List (World × Operation)) (field : String) (kind : JoinKind) :
    let left := l.after steps
    let right := r.after steps'
    let driver := if kind = .right then right else left
    let other := if kind = .right then left else right
    ∃ driving others : List Snapshot,
      (∀ w, (driver.get w .all).result = .ok driving) ∧
      (∀ w, (other.get w .all).result = .ok others) ∧
      driving.Pairwise (fun a b => a.position < b.position) ∧
      others.Pairwise (fun a b => a.position < b.position) ∧
      List.Forall₂
        (fun pair row => Combines driver.name other.name driving others pair.1 pair.2 row)
        (nestedPairs driving others field kind) (left.join right field kind) := by
  intro left right driver other
  have hleft : left.Sound := hl.sound.1.after steps
  have hright : right.Sound := hr.sound.1.after steps'
  have hdriver : driver.Sound := by
    unfold driver
    split_ifs
    · exact hright
    · exact hleft
  have hother : other.Sound := by
    unfold other
    split_ifs
    · exact hleft
    · exact hright
  refine ⟨driver.contents.snapshots, other.contents.snapshots,
    fun w => (get_alike hdriver.usable .all).1, fun w => (get_alike hother.usable .all).1,
    hdriver.consistent.snapshots_ascend, hother.consistent.snapshots_ascend, ?_⟩
  rw [join_eq, List.forall₂_map_right_iff, List.forall₂_same]
  exact fun pair _ => combines_joinRow driver other pair.1 pair.2

def pets : Store := { plain with config := { Config.standard with name := "pets" } }

theorem pets_fresh : pets.Fresh :=
  ⟨{ Config.standard with name := "pets" }, .bare, Or.inl rfl⟩

def ownersStored : List (World × Operation) :=
  [(.bare, .set (some "ann") [("id", .number (Number.ofInt 1))] ⟨false, false⟩),
    (.bare, .set (some "bob") [("id", .null)] ⟨false, false⟩)]

def petsStored : List (World × Operation) :=
  [(.bare, .set (some "rex") [("id", .text "1.0")] ⟨false, false⟩),
    (.bare, .set (some "tom") [("age", .text "3"), ("id", .null)] ⟨false, false⟩),
    (.bare, .set (some "kit") [("id", .text "1")] ⟨false, false⟩)]

theorem joined_after_petsStored :
    let owners := (plain.after ownersStored).contents.snapshots
    let kept := (pets.after petsStored).contents.snapshots
    let pairs := nestedPairs owners kept "id" .left
    plain.Fresh ∧ pets.Fresh ∧
      pairs.map (fun pair => (pair.1.key, pair.2.map Snapshot.key)) =
        [("ann", some "rex"), ("ann", some "kit"), ("bob", none)] ∧
      List.Forall₂ (fun pair row => Combines "store" "pets" owners kept pair.1 pair.2 row) pairs
        ((plain.after ownersStored).join (pets.after petsStored) "id" .left) := by
  intro owners kept pairs
  obtain ⟨driving, others, hdriving, hothers, -, -, hrows⟩ :=
    joined_after_operations plain_fresh pets_fresh ownersStored petsStored "id" .left
  obtain rfl : owners = driving := Except.ok.inj (hdriving .bare)
  obtain rfl : kept = others := Except.ok.inj (hothers .bare)
  exact ⟨plain_fresh, pets_fresh, by decide +kernel, hrows⟩

/-! ### What rows keep -/

def cells (s : Store) (record : Option Snapshot) : Fields :=
  (JoinSide.ofStore s).columns.map fun column =>
    (s.name ++ "_" ++ column, (record.map fun r => Fields.value r.fields column).getD .null)

def joinPairs (left right : Store) (field : String) (kind : JoinKind) :
    List (Option Snapshot × Option Snapshot) :=
  match kind with
  | .right =>
    (nestedPairs right.contents.snapshots left.contents.snapshots field kind).map fun pair =>
      (pair.2, some pair.1)
  | _ =>
    (nestedPairs left.contents.snapshots right.contents.snapshots field kind).map fun pair =>
      (some pair.1, pair.2)

/-- No column of one store has the name in rows that a column of the other has. -/
def Apart (left right : Store) : Prop :=
  ∀ column column', HasColumn left.contents.snapshots column →
    HasColumn right.contents.snapshots column' →
    left.name ++ "_" ++ column ≠ right.name ++ "_" ++ column'

theorem Apart.symm {left right : Store} (h : left.Apart right) : right.Apart left :=
  fun column column' hcolumn hcolumn' heq => h column' column hcolumn' hcolumn heq.symm

theorem mem_cells {s : Store} {record : Option Snapshot} {name : String} {v : Value} :
    (name, v) ∈ s.cells record ↔ ∃ column, HasColumn s.contents.snapshots column ∧
      s.name ++ "_" ++ column = name ∧
        (record.map fun r => Fields.value r.fields column).getD .null = v := by
  unfold cells
  simp only [List.mem_map, Prod.mk.injEq, JoinSide.mem_columns]

theorem nodup_names_cells (s : Store) (record : Option Snapshot) :
    ((s.cells record).map Prod.fst).Nodup := by
  unfold cells
  rw [List.map_map]
  exact (JoinSide.nodup_columns s).map (JoinSide.ofStore s).rowName_injective

/-- The cells of two stores have different names exactly when the stores are apart. -/
theorem nodup_names_append_cells {left right : Store} (record record' : Option Snapshot) :
    ((left.cells record ++ right.cells record').map Prod.fst).Nodup ↔ left.Apart right := by
  rw [List.map_append, List.nodup_append]
  constructor
  · rintro ⟨-, -, hne⟩ column column' hcolumn hcolumn'
    exact hne _ (List.mem_map_of_mem (mem_cells.mpr ⟨column, hcolumn, rfl, rfl⟩)) _
      (List.mem_map_of_mem (mem_cells.mpr ⟨column', hcolumn', rfl, rfl⟩))
  · refine fun hapart => ⟨nodup_names_cells left record, nodup_names_cells right record', ?_⟩
    intro name hname name' hname'
    obtain ⟨e, he, rfl⟩ := List.mem_map.mp hname
    obtain ⟨e', he', rfl⟩ := List.mem_map.mp hname'
    obtain ⟨column, hcolumn, heq, -⟩ := mem_cells.mp he
    obtain ⟨column', hcolumn', heq', -⟩ := mem_cells.mp he'
    rw [← heq, ← heq']
    exact hapart column column' hcolumn hcolumn'

/-- A row has the cells of both records and no more exactly when the stores are apart. -/
theorem joinRow_perm_iff (driver other : Store) (r : Snapshot) (counterpart : Option Snapshot) :
    (joinRow (.ofStore driver) (.ofStore other) r counterpart).Perm
      (driver.cells (some r) ++ other.cells counterpart) ↔ driver.Apart other := by
  have hrow := combines_joinRow driver other r counterpart
  have hnames : ((joinRow (.ofStore driver) (.ofStore other) r counterpart).map Prod.fst).Nodup :=
    (SortedMap.sorted_names hrow.sorted).imp ne_of_lt
  constructor
  · intro hperm
    exact (nodup_names_append_cells _ _).mp ((hperm.map Prod.fst).nodup_iff.mp hnames)
  · intro hapart
    refine (List.perm_ext_iff_of_nodup (.of_map _ hnames)
      (.of_map _ ((nodup_names_append_cells _ _).mpr hapart))).mpr ?_
    rintro ⟨name, v⟩
    have hown (column : String) (hcolumn : HasColumn driver.contents.snapshots column) :=
      hrow.own column hcolumn fun column' hcolumn' => hapart.symm column' column hcolumn' hcolumn
    rw [← SortedMap.get?_eq_some_iff hrow.sorted, List.mem_append, mem_cells, mem_cells]
    constructor
    · intro hget
      rcases hrow.covered name ((SortedMap.mem_names _ name).mpr (by rw [hget]; rfl)) with
        ⟨column, hcolumn, rfl⟩ | ⟨column, hcolumn, rfl⟩
      · exact Or.inl ⟨column, hcolumn, rfl, Option.some.inj ((hown column hcolumn).symm.trans hget)⟩
      · exact Or.inr ⟨column, hcolumn, rfl,
          Option.some.inj ((hrow.found column hcolumn).symm.trans hget)⟩
    · rintro (⟨column, hcolumn, rfl, rfl⟩ | ⟨column, hcolumn, rfl, rfl⟩)
      · exact hown column hcolumn
      · exact hrow.found column hcolumn

/-- Stores of one name are apart when they have no column in common. -/
theorem apart_iff_of_name_eq {left right : Store} (hname : left.name = right.name) :
    left.Apart right ↔ ∀ column, HasColumn left.contents.snapshots column →
      ¬HasColumn right.contents.snapshots column := by
  constructor
  · intro hapart column hcolumn hcolumn'
    exact hapart column column hcolumn hcolumn' (by rw [hname])
  · intro hdiffer column column' hcolumn hcolumn' heq
    rw [hname] at heq
    obtain rfl : column = column' := (JoinSide.ofStore right).rowName_injective heq
    exact hdiffer column hcolumn hcolumn'

/-- Stores are apart when the name of neither, with the underscore, begins the other's. -/
theorem apart_of_not_prefix {left right : Store}
    (hleft : ¬(left.name ++ "_").toList <+: (right.name ++ "_").toList)
    (hright : ¬(right.name ++ "_").toList <+: (left.name ++ "_").toList) :
    left.Apart right := by
  intro column column' _ _ heq
  have hbegins : (left.name ++ "_").toList <+: (right.name ++ "_" ++ column').toList := by
    rw [← heq, String.toList_append (s := left.name ++ "_")]
    exact List.prefix_append _ _
  have hbegins' : (right.name ++ "_").toList <+: (right.name ++ "_" ++ column').toList := by
    rw [String.toList_append (s := right.name ++ "_")]
    exact List.prefix_append _ _
  rcases List.prefix_or_prefix_of_prefix hbegins hbegins' with h | h
  · exact hleft h
  · exact hright h

theorem forall₂_perm_joinRow_iff (driver other : Store) (field : String) (kind : JoinKind) :
    let pairs := nestedPairs driver.contents.snapshots other.contents.snapshots field kind
    let rows := pairs.map fun pair => joinRow (.ofStore driver) (.ofStore other) pair.1 pair.2
    List.Forall₂ (fun pair row => row.Perm (driver.cells (some pair.1) ++ other.cells pair.2))
      pairs rows ↔ rows = [] ∨ driver.Apart other := by
  intro pairs rows
  rw [List.forall₂_map_right_iff, List.forall₂_same, List.map_eq_nil_iff]
  simp only [joinRow_perm_iff]
  constructor
  · intro hall
    exact (List.eq_nil_or_concat' pairs).imp_right fun ⟨rest, pair, hpairs⟩ =>
      hall pair (hpairs ▸ List.mem_concat_self)
  · rintro (hnil | hapart) pair hpair
    · rw [hnil] at hpair
      exact absurd hpair List.not_mem_nil
    · exact hapart

/-- Every row of a join has one cell for each column of either store, and no other, exactly when
there are no rows or no two columns have one name in rows. -/
theorem join_keeps_cells_iff (left right : Store) (field : String) (kind : JoinKind) :
    (List.Forall₂ (fun pair row => row.Perm (left.cells pair.1 ++ right.cells pair.2))
        (left.joinPairs right field kind) (left.join right field kind) ↔
      left.join right field kind = [] ∨ left.Apart right) ∧
    (left.name = right.name → (left.Apart right ↔
      ∀ column, HasColumn left.contents.snapshots column →
        ¬HasColumn right.contents.snapshots column)) ∧
    (¬(left.name ++ "_").toList <+: (right.name ++ "_").toList →
      ¬(right.name ++ "_").toList <+: (left.name ++ "_").toList → left.Apart right) := by
  refine ⟨?_, apart_iff_of_name_eq, apart_of_not_prefix⟩
  rw [join_eq]
  cases kind with
  | inner =>
    exact List.forall₂_map_left_iff.trans (forall₂_perm_joinRow_iff left right field .inner)
  | left =>
    exact List.forall₂_map_left_iff.trans (forall₂_perm_joinRow_iff left right field .left)
  | right =>
    have hswap (row : Fields) (pair : Snapshot × Option Snapshot) :
        row.Perm (left.cells pair.2 ++ right.cells (some pair.1)) ↔
          row.Perm (right.cells (some pair.1) ++ left.cells pair.2) :=
      ⟨fun h => h.trans List.perm_append_comm, fun h => h.trans List.perm_append_comm⟩
    refine List.forall₂_map_left_iff.trans ?_
    simp only [hswap]
    refine (forall₂_perm_joinRow_iff right left field .right).trans (or_congr_right ?_)
    exact ⟨Apart.symm, Apart.symm⟩

theorem join_keeps_cells_petsStored :
    let left := plain.after ownersStored
    let right := pets.after petsStored
    ¬(left.name ++ "_").toList <+: (right.name ++ "_").toList ∧
      ¬(right.name ++ "_").toList <+: (left.name ++ "_").toList ∧
      List.Forall₂ (fun pair row => row.Perm (left.cells pair.1 ++ right.cells pair.2))
        (left.joinPairs right "id" .left) (left.join right "id" .left) := by
  intro left right
  have hleft : ¬(left.name ++ "_").toList <+: (right.name ++ "_").toList := by decide +kernel
  have hright : ¬(right.name ++ "_").toList <+: (left.name ++ "_").toList := by decide +kernel
  obtain ⟨hkeeps, -, hapart⟩ := join_keeps_cells_iff left right "id" .left
  exact ⟨hleft, hright, hkeeps.mpr (Or.inr (hapart hleft hright))⟩

def nameStored : List (World × Operation) :=
  [(.bare, .set (some "a") [("name", .text "Ada")] ⟨false, false⟩)]

/-- A store joined with itself: the null of the missing counterpart takes the place of the
record's own value. -/
theorem join_drops_cells_nameStored :
    let s := plain.after nameStored
    plain.Fresh ∧ s.join s "boss" .left = [[("store_name", .null)]] ∧
      s.cells ((s.joinPairs s "boss" .left).head?.bind Prod.fst) = [("store_name", .text "Ada")] ∧
      ¬List.Forall₂ (fun pair row => row.Perm (s.cells pair.1 ++ s.cells pair.2))
        (s.joinPairs s "boss" .left) (s.join s "boss" .left) := by
  intro s
  have hpairs : nestedPairs s.contents.snapshots s.contents.snapshots "boss" .left =
      [(⟨"a", 0, [("name", .text "Ada")]⟩, none)] := rfl
  have hrow : joinRow (.ofStore (plain.after nameStored)) (.ofStore (plain.after nameStored))
      ⟨"a", 0, [("name", .text "Ada")]⟩ none =
      [("store_name", .null)] := rfl
  have hjoin : s.join s "boss" .left = [[("store_name", .null)]] := by
    refine (flatMap_joinRows s s "boss" .left).trans ?_
    rw [hpairs, List.map_singleton, hrow]
  have hcells : s.cells ((s.joinPairs s "boss" .left).head?.bind Prod.fst) =
      [("store_name", .text "Ada")] := rfl
  refine ⟨plain_fresh, hjoin, hcells, fun hkeeps => ?_⟩
  have hone (record : Option Snapshot) : (s.cells record).length = 1 :=
    (List.length_map ..).trans rfl
  rw [hjoin] at hkeeps
  obtain ⟨pair, -, hperm, -, -⟩ := List.forall₂_cons_right_iff.mp hkeeps
  have hlength := hperm.length_eq
  rw [List.length_append, hone, hone] at hlength
  exact absurd hlength (by decide)

end Store
end IndexedStore
