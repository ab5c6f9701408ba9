import IndexedStore.Proofs.Heads

/-!
Items of the binary form read back. What an item is written as gives the item back when it nests
within the limit that the reader is given, with all that follows left over; what nests deeper is
refused.
-/
namespace IndexedStore.Cbor

mutual

def nesting : Cbor → Nat
  | .array items => nestingItems items + 1
  | .map entries => nestingEntries entries + 1
  | .tagged _ item => nesting item
  | _ => 0

def nestingItems : List Cbor → Nat
  | [] => 0
  | item :: rest => max (nesting item) (nestingItems rest)

def nestingEntries : List (Cbor × Cbor) → Nat
  | [] => 0
  | (key, item) :: rest => max (max (nesting key) (nesting item)) (nestingEntries rest)

end

mutual

/-- Nothing in an item came in chunks, and its numbers have at most 64 bits. -/
def Whole : Cbor → Prop
  | .unsigned n => n < 2 ^ 64
  | .negative n => n < 2 ^ 64
  | .bytes chunked _ => chunked = false
  | .text chunked _ => chunked = false
  | .array items => WholeItems items
  | .map entries => WholeEntries entries
  | .tagged tag item => tag < 2 ^ 64 ∧ Whole item
  | _ => True

def WholeItems : List Cbor → Prop
  | [] => True
  | item :: rest => Whole item ∧ WholeItems rest

def WholeEntries : List (Cbor × Cbor) → Prop
  | [] => True
  | (key, item) :: rest => (Whole key ∧ Whole item) ∧ WholeEntries rest

end

mutual

def Counted : Cbor → Prop
  | .bytes _ bs => bs.length < 2 ^ 64
  | .text _ s => s.utf8ByteSize < 2 ^ 64
  | .array items => items.length < 2 ^ 64 ∧ CountedItems items
  | .map entries => entries.length < 2 ^ 64 ∧ CountedEntries entries
  | .tagged _ item => Counted item
  | _ => True

def CountedItems : List Cbor → Prop
  | [] => True
  | item :: rest => Counted item ∧ CountedItems rest

def CountedEntries : List (Cbor × Cbor) → Prop
  | [] => True
  | (key, item) :: rest => (Counted key ∧ Counted item) ∧ CountedEntries rest

end

/-! ### Lengths -/

attribute [local simp] encode encodeItems encodeEntries

theorem encode_ne_nil (item : Cbor) : 0 < (encode item).length := by
  have hhead := head_ne_nil
  cases item with
  | float x => exact floatBytes_ne_nil x
  | bool b => cases b <;> exact Nat.one_pos
  | _ => simp [hhead]

theorem length_le_encodeItems (items : List Cbor) :
    items.length ≤ (encodeItems items).length := by
  induction items with
  | nil => exact Nat.le_refl 0
  | cons item rest ih =>
    have hitem := encode_ne_nil item
    rw [encodeItems, List.length_append, List.length_cons]
    omega

theorem length_le_encodeEntries (entries : List (Cbor × Cbor)) :
    entries.length ≤ (encodeEntries entries).length := by
  induction entries with
  | nil => exact Nat.le_refl 0
  | cons e rest ih =>
    have hkey := encode_ne_nil e.1
    rw [encodeEntries, List.length_append, List.length_append, List.length_cons]
    omega

/-- Nothing in an item is longer than its bytes are. -/
theorem counted_of_length (item : Cbor) : (encode item).length < 2 ^ 64 → item.Counted := by
  refine @Cbor.rec (fun item => (encode item).length < 2 ^ 64 → item.Counted)
    (fun items => (encodeItems items).length < 2 ^ 64 → CountedItems items)
    (fun entries => (encodeEntries entries).length < 2 ^ 64 → CountedEntries entries)
    (fun e => ((encode e.1).length < 2 ^ 64 → e.1.Counted) ∧
      ((encode e.2).length < 2 ^ 64 → e.2.Counted))
    ?unsigned ?negative ?bytes ?text ?array ?map ?tagged ?bool ?null ?undefined ?float ?noItem
    ?item ?noEntry ?entry ?pair item
  case bytes =>
    intro chunked bs h
    rw [encode, List.length_append] at h
    exact Nat.lt_of_le_of_lt (Nat.le_add_left _ _) h
  case text =>
    intro chunked s h
    rw [encode, List.length_append, Bytes.length_ofText] at h
    exact Nat.lt_of_le_of_lt (Nat.le_add_left _ _) h
  case array =>
    intro items ih h
    have hitems := length_le_encodeItems items
    rw [encode, List.length_append] at h
    exact ⟨by omega, ih (by omega)⟩
  case map =>
    intro entries ih h
    have hentries := length_le_encodeEntries entries
    rw [encode, List.length_append] at h
    exact ⟨by omega, ih (by omega)⟩
  case tagged =>
    intro tag item ih h
    rw [encode, List.length_append] at h
    exact ih (by omega)
  case item =>
    intro item rest hitem hrest h
    rw [encodeItems, List.length_append] at h
    exact ⟨hitem (by omega), hrest (by omega)⟩
  case entry =>
    intro e rest he hrest h
    obtain ⟨key, item⟩ := e
    obtain ⟨hkey, hitem⟩ : ((encode key).length < 2 ^ 64 → key.Counted) ∧
      ((encode item).length < 2 ^ 64 → item.Counted) := he
    rw [encodeEntries, List.length_append, List.length_append] at h
    exact ⟨⟨hkey (by omega), hitem (by omega)⟩, hrest (by omega)⟩
  case pair => exact fun _ _ hkey hitem => ⟨hkey, hitem⟩
  case noItem => exact fun _ => trivial
  case noEntry => exact fun _ => trivial
  case null => exact fun _ => trivial
  case undefined => exact fun _ => trivial
  case unsigned => exact fun _ _ => trivial
  case negative => exact fun _ _ => trivial
  case bool => exact fun _ _ => trivial
  case float => exact fun _ _ => trivial

/-! ### Reading by the head of an item -/

section

variable {fuel depth width n : Nat} {bs rest : Bytes}

theorem takeItem_bytes (h : takeHead bs = some (2, .number width n, rest)) :
    takeItem (fuel + 1) depth bs =
      (Bytes.takeExactly n rest).map fun (chunk, rest) => (.bytes false chunk, rest) := by
  rw [takeItem, h]
  rfl

theorem takeItem_text (h : takeHead bs = some (3, .number width n, rest)) {chunk tail : Bytes}
    (hchunk : Bytes.takeExactly n rest = some (chunk, tail)) :
    takeItem (fuel + 1) depth bs = (Bytes.toText? chunk).map fun s => (.text false s, tail) := by
  simp only [takeItem, h, hchunk]

theorem takeItem_array (h : takeHead bs = some (4, .number width n, rest)) :
    takeItem (fuel + 1) depth bs =
      match depth with
      | 0 => none
      | depth + 1 => takeItems fuel depth n [] rest := by
  rw [takeItem, h]
  cases depth <;> rfl

theorem takeItem_map (h : takeHead bs = some (5, .number width n, rest)) :
    takeItem (fuel + 1) depth bs =
      match depth with
      | 0 => none
      | depth + 1 => takeEntries fuel depth n [] rest := by
  rw [takeItem, h]
  cases depth <;> rfl

theorem takeItem_tagged (h : takeHead bs = some (6, .number width n, rest)) :
    takeItem (fuel + 1) depth bs =
      (takeItem fuel depth rest).map fun (item, rest) => (.tagged n item, rest) := by
  rw [takeItem, h]
  rfl

theorem takeItem_simple (h : takeHead bs = some (7, .number width n, rest)) :
    takeItem (fuel + 1) depth bs = (simple? width n).map fun item => (item, rest) := by
  rw [takeItem, h]
  rfl

end

/-! ### Reading what was written -/

/-- With enough fuel, the bytes of an item give the item within the limit and nothing beyond it. -/
def Reads (item : Cbor) : Prop :=
  item.Whole → item.Counted → ∀ fuel depth rest,
    2 * (encode item).length ≤ fuel + 1 →
      takeItem fuel depth (encode item ++ rest) =
        if item.nesting ≤ depth then some (item, rest) else none

def ReadsItems (items : List Cbor) : Prop :=
  WholeItems items → CountedItems items → ∀ fuel depth read rest,
    2 * (encodeItems items).length ≤ fuel →
      takeItems fuel depth items.length read (encodeItems items ++ rest) =
        if nestingItems items ≤ depth then some (.array (read.reverse ++ items), rest) else none

def ReadsEntries (entries : List (Cbor × Cbor)) : Prop :=
  WholeEntries entries → CountedEntries entries → ∀ fuel depth read rest,
    2 * (encodeEntries entries).length ≤ fuel →
      takeEntries fuel depth entries.length read (encodeEntries entries ++ rest) =
        if nestingEntries entries ≤ depth then some (.map (read.reverse ++ entries), rest) else none

theorem exists_fuel {item : Cbor} {fuel : Nat} (h : 2 * (encode item).length ≤ fuel + 1) :
    ∃ left, fuel = left + 1 := by
  have hitem := encode_ne_nil item
  exact ⟨fuel - 1, by omega⟩

theorem reads_unsigned (n : Nat) : Reads (.unsigned n) := by
  intro hn _ fuel depth rest hfuel
  obtain ⟨fuel, rfl⟩ := exists_fuel hfuel
  rw [takeItem, encode, takeHead_head (by decide) hn]
  rfl

theorem reads_negative (n : Nat) : Reads (.negative n) := by
  intro hn _ fuel depth rest hfuel
  obtain ⟨fuel, rfl⟩ := exists_fuel hfuel
  rw [takeItem, encode, takeHead_head (by decide) hn]
  rfl

theorem reads_bytes (chunked : Bool) (bs : Bytes) : Reads (.bytes chunked bs) := by
  intro hwhole hcounted fuel depth rest hfuel
  obtain ⟨fuel, rfl⟩ := exists_fuel hfuel
  obtain rfl : chunked = false := hwhole
  rw [encode, List.append_assoc, takeItem_bytes (takeHead_head (by decide) hcounted _),
    Bytes.takeExactly_append]
  rfl

theorem reads_text (chunked : Bool) (s : String) : Reads (.text chunked s) := by
  intro hwhole hcounted fuel depth rest hfuel
  obtain ⟨fuel, rfl⟩ := exists_fuel hfuel
  obtain rfl : chunked = false := hwhole
  have hlength : (Bytes.ofText s).length < 2 ^ 64 := (Bytes.length_ofText s).symm ▸ hcounted
  rw [encode, List.append_assoc, takeItem_text (takeHead_head (by decide) hlength _)
    (Bytes.takeExactly_append _ _), Bytes.toText?_ofText]
  rfl

theorem reads_array {items : List Cbor} (h : ReadsItems items) : Reads (.array items) := by
  intro hwhole hcounted fuel depth rest hfuel
  obtain ⟨fuel, rfl⟩ := exists_fuel hfuel
  have hhead := head_ne_nil 4 items.length
  rw [encode, List.length_append] at hfuel
  rw [encode, List.append_assoc, takeItem_array (takeHead_head (by decide) hcounted.1 _)]
  cases depth with
  | zero => exact (if_neg (by unfold nesting; omega)).symm
  | succ depth =>
    dsimp only
    rw [h hwhole hcounted.2 fuel depth [] rest (by omega)]
    unfold nesting
    simp only [Nat.add_le_add_iff_right, List.reverse_nil, List.nil_append]

theorem reads_map {entries : List (Cbor × Cbor)} (h : ReadsEntries entries) :
    Reads (.map entries) := by
  intro hwhole hcounted fuel depth rest hfuel
  obtain ⟨fuel, rfl⟩ := exists_fuel hfuel
  have hhead := head_ne_nil 5 entries.length
  rw [encode, List.length_append] at hfuel
  rw [encode, List.append_assoc, takeItem_map (takeHead_head (by decide) hcounted.1 _)]
  cases depth with
  | zero => exact (if_neg (by unfold nesting; omega)).symm
  | succ depth =>
    dsimp only
    rw [h hwhole hcounted.2 fuel depth [] rest (by omega)]
    unfold nesting
    simp only [Nat.add_le_add_iff_right, List.reverse_nil, List.nil_append]

theorem reads_tagged {tag : Nat} {item : Cbor} (h : Reads item) : Reads (.tagged tag item) := by
  intro hwhole hcounted fuel depth rest hfuel
  obtain ⟨fuel, rfl⟩ := exists_fuel hfuel
  have hhead := head_ne_nil 6 tag
  rw [encode, List.length_append] at hfuel
  rw [encode, List.append_assoc, takeItem_tagged (takeHead_head (by decide) hwhole.1 _),
    h hwhole.2 hcounted fuel depth rest (by omega),
    show (tagged tag item).nesting = item.nesting from rfl]
  split_ifs <;> rfl

theorem reads_float (x : Number) : Reads (.float x) := by
  intro _ _ fuel depth rest hfuel
  obtain ⟨fuel, rfl⟩ := exists_fuel hfuel
  obtain ⟨width, n, hhead, hsimple⟩ := takeHead_floatBytes x rest
  rw [encode, takeItem_simple hhead, hsimple]
  rfl

/-- The items that are written as one byte. -/
theorem reads_simple {item : Cbor} {first : UInt8} {n : Nat} (hencode : encode item = [first])
    (hhead : ∀ rest, takeHead (first :: rest) = some (7, .number 0 n, rest))
    (hsimple : simple? 0 n = some item) (hnesting : item.nesting = 0) : Reads item := by
  intro _ _ fuel depth rest hfuel
  obtain ⟨fuel, rfl⟩ := exists_fuel hfuel
  rw [hencode, List.singleton_append, takeItem_simple (hhead rest), hsimple, hnesting,
    if_pos (Nat.zero_le _)]
  rfl

theorem readsItems_nil : ReadsItems [] := by
  intro _ _ fuel depth read rest _
  rw [encodeItems, List.length_nil, takeItems, List.nil_append, List.append_nil]
  exact (if_pos (Nat.zero_le _)).symm

theorem readsItems_cons {item : Cbor} {items : List Cbor} (hitem : Reads item)
    (hitems : ReadsItems items) : ReadsItems (item :: items) := by
  intro hwhole hcounted fuel depth read rest hfuel
  have hpos := encode_ne_nil item
  rw [encodeItems, List.length_append] at hfuel
  obtain ⟨fuel, rfl⟩ : ∃ left, fuel = left + 1 := ⟨fuel - 1, by omega⟩
  rw [List.length_cons, takeItems, encodeItems, List.append_assoc,
    hitem hwhole.1 hcounted.1 fuel depth _ (by omega)]
  unfold nestingItems
  by_cases hnesting : item.nesting ≤ depth
  · rw [if_pos hnesting]
    dsimp only
    rw [hitems hwhole.2 hcounted.2 fuel depth _ rest (by omega)]
    simp only [Nat.max_le, hnesting, true_and, List.reverse_cons, List.append_assoc,
      List.singleton_append]
  · rw [if_neg hnesting, if_neg fun h => hnesting (Nat.max_le.mp h).1]

theorem readsEntries_nil : ReadsEntries [] := by
  intro _ _ fuel depth read rest _
  rw [encodeEntries, List.length_nil, takeEntries, List.nil_append, List.append_nil]
  exact (if_pos (Nat.zero_le _)).symm

theorem readsEntries_cons {e : Cbor × Cbor} {entries : List (Cbor × Cbor)}
    (he : Reads e.1 ∧ Reads e.2) (hentries : ReadsEntries entries) :
    ReadsEntries (e :: entries) := by
  obtain ⟨key, item⟩ := e
  obtain ⟨hkey, hitem⟩ : Reads key ∧ Reads item := he
  intro hwhole hcounted fuel depth read rest hfuel
  have hpos := encode_ne_nil key
  rw [encodeEntries, List.length_append, List.length_append] at hfuel
  obtain ⟨fuel, rfl⟩ : ∃ left, fuel = left + 1 := ⟨fuel - 1, by omega⟩
  rw [List.length_cons, takeEntries, encodeEntries, List.append_assoc, List.append_assoc,
    hkey hwhole.1.1 hcounted.1.1 fuel depth _ (by omega)]
  unfold nestingEntries
  by_cases hnestingKey : key.nesting ≤ depth
  · rw [if_pos hnestingKey]
    dsimp only
    rw [hitem hwhole.1.2 hcounted.1.2 fuel depth _ (by omega)]
    by_cases hnesting : item.nesting ≤ depth
    · rw [if_pos hnesting]
      dsimp only
      rw [hentries hwhole.2 hcounted.2 fuel depth _ rest (by omega)]
      simp only [Nat.max_le, hnestingKey, hnesting, true_and, List.reverse_cons,
        List.append_assoc, List.singleton_append]
    · rw [if_neg hnesting, if_neg fun h => hnesting (Nat.max_le.mp (Nat.max_le.mp h).1).2]
  · rw [if_neg hnestingKey, if_neg fun h => hnestingKey (Nat.max_le.mp (Nat.max_le.mp h).1).1]

/-- Every item is read back from its bytes, whatever follows them. -/
theorem reads (item : Cbor) : Reads item := by
  refine @Cbor.rec Reads ReadsItems ReadsEntries (fun e => Reads e.1 ∧ Reads e.2)
    reads_unsigned reads_negative reads_bytes reads_text ?array ?map ?tagged ?bool ?null ?undefined
    reads_float readsItems_nil ?item readsEntries_nil ?entry ?pair item
  case array => exact fun _ => reads_array
  case map => exact fun _ => reads_map
  case tagged => exact fun _ _ => reads_tagged
  case bool =>
    intro b
    cases b with
    | false => exact reads_simple (n := 20) rfl (fun _ => rfl) rfl rfl
    | true => exact reads_simple (n := 21) rfl (fun _ => rfl) rfl rfl
  case null => exact reads_simple (n := 22) rfl (fun _ => rfl) rfl rfl
  case undefined => exact reads_simple (n := 23) rfl (fun _ => rfl) rfl rfl
  case item => exact fun _ _ => readsItems_cons
  case entry => exact fun _ _ => readsEntries_cons
  case pair => exact fun _ _ hkey hitem => ⟨hkey, hitem⟩

/-- The bytes of an item give the item back when it nests within the limit, and are refused when
it nests deeper, whatever follows them. -/
theorem read?_encode_append {item : Cbor} (hwhole : item.Whole) (hcounted : item.Counted)
    (rest : Bytes) :
    read? (encode item ++ rest) = if item.nesting ≤ nestingLimit then some item else none := by
  have hread := reads item hwhole hcounted (2 * (encode item ++ rest).length + 2) nestingLimit rest
    (by rw [List.length_append]; omega)
  unfold read?
  rw [hread]
  split_ifs <;> rfl

end IndexedStore.Cbor
