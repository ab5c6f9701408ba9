import IndexedStore.Proofs.SortedMap
import IndexedStore.Storage.Calls
import Mathlib.Data.List.Sort

/-!
A directory as storage against storage in memory. Files keep the bytes of different names apart,
and no draft is ever taken for one of them, so a directory that was empty answers every call as
the memory does, and what was kept in part is never found.
-/
namespace IndexedStore.Storage

/-! ### The names of files -/

namespace Backend

variable {target target' name : String}

theorem not_refused (h : isTarget target = true) : ¬ (!isTarget target) = true := by
  rw [h]
  exact Bool.false_ne_true

theorem fileName_inj (h : fileName target = fileName target') : target = target' := by
  unfold fileName at h
  have hchars := congrArg String.toList h
  rw [String.toList_append, String.toList_append] at hchars
  exact String.toList_inj.mp (List.append_cancel_right hchars)

theorem draftName_inj (h : draftName target = draftName target') : target = target' := by
  unfold draftName at h
  have hchars := congrArg String.toList h
  simp only [String.toList_append, List.append_assoc, List.append_cancel_left_eq] at hchars
  exact String.toList_inj.mp (List.append_cancel_right hchars)

/-- A valid name is not empty and begins with no point. -/
theorem exists_head_of_isTarget (h : isTarget target = true) :
    ∃ c cs, target.toList = c :: cs ∧ c ≠ '.' := by
  unfold isTarget at h
  simp only [Bool.and_eq_true, Bool.not_eq_true', bne_iff_ne, ne_eq] at h
  obtain ⟨⟨⟨hsome, -⟩, -⟩, hhead⟩ := h
  cases hchars : target.toList with
  | nil =>
    rw [String.toList_eq_nil_iff] at hchars
    subst hchars
    exact absurd hsome (by decide)
  | cons c cs =>
    rw [hchars, List.head?_cons] at hhead
    exact ⟨c, cs, rfl, fun heq => hhead (congrArg some heq)⟩

/-- A draft is no file that keeps bytes. -/
theorem draftName_ne_fileName (h : isTarget target' = true) :
    draftName target ≠ fileName target' := by
  obtain ⟨c, cs, hchars, hpoint⟩ := exists_head_of_isTarget h
  intro heq
  have hheads := congrArg (fun name => name.toList.head?) heq
  unfold draftName fileName at hheads
  simp only [String.toList_append, hchars] at hheads
  exact hpoint (Option.some.inj hheads).symm

/-- The file names that stand for a name are those of valid names, with the suffix behind. -/
theorem targetOf?_eq_some_iff :
    targetOf? name = some target ↔ isTarget target = true ∧ name = fileName target := by
  have hsuffix : suffix.length = suffix.toList.length := rfl
  unfold targetOf? fileName
  dsimp only
  constructor
  · intro h
    split_ifs at h with hvalid
    obtain rfl := Option.some.inj h
    rw [Bool.and_eq_true] at hvalid
    obtain ⟨hend, htarget⟩ := hvalid
    refine ⟨htarget, ?_⟩
    obtain ⟨stem, hstem⟩ := List.isSuffixOf_iff_suffix.mp hend
    apply String.toList_inj.mp
    rw [String.toList_append, String.toList_ofList, ← hstem, hsuffix, List.length_append,
      Nat.add_sub_cancel, List.take_left]
  · rintro ⟨htarget, rfl⟩
    have hend : suffix.toList.isSuffixOf (target ++ suffix).toList = true := by
      rw [String.toList_append]
      exact List.isSuffixOf_iff_suffix.mpr (List.suffix_append _ _)
    have hstem : (target ++ suffix).toList.take
        ((target ++ suffix).toList.length - suffix.length) = target.toList := by
      rw [String.toList_append, hsuffix, List.length_append, Nat.add_sub_cancel, List.take_left]
    rw [hstem, String.ofList_toList, hend, htarget]
    rfl

theorem length_fileName (target : String) : 2 < (fileName target).length := by
  unfold fileName
  rw [String.length_append]
  change 2 < target.length + 4
  omega

theorem length_draftName (target : String) : 2 < (draftName target).length := by
  unfold draftName
  rw [String.length_append, String.length_append]
  change 2 < 1 + target.length + 4
  omega

end Backend

/-! ### Files in one directory -/

namespace Files

variable {fs : Files} {directory place other : Place} {name : String} {node : Node}

/-- A name that leads neither up nor to the root names something in a directory. -/
theorem isTop_child (directory : Place) (h : 2 < name.length) :
    Place.isTop (directory ++ [name]) = false := by
  have hup : name ≠ ".." := by
    rintro rfl
    exact absurd h (by decide)
  have hroot : name ≠ "/" := by
    rintro rfl
    exact absurd h (by decide)
  unfold Place.isTop
  rw [List.all_append]
  simp [hup, hroot]

theorem parent_child (directory : Place) (h : 2 < name.length) :
    Place.parent (directory ++ [name]) = directory := by
  have htop := isTop_child directory h
  have hroot : (directory ++ [name] == ["/"]) = false := by
    rw [beq_eq_false_iff_ne]
    intro heq
    rw [heq] at htop
    exact absurd htop (by decide)
  unfold Place.parent
  rw [hroot, htop, List.dropLast_concat]
  rfl

theorem node?_set (fs : Files) {place : Place} (h : place.isTop = false) (node : Node) :
    (fs.set place node).node? place = some node := by
  unfold node? set
  rw [h]
  simp

theorem find?_filter_ne (nodes : List (Place × Node)) (h : other ≠ place) :
    (nodes.filter (·.1 != place)).find? (·.1 == other) = nodes.find? (·.1 == other) := by
  rw [List.find?_filter]
  congr 1
  funext e
  by_cases he : e.1 = other
  · simp [he, h]
  · simp [he]

theorem node?_set_of_ne (fs : Files) (node : Node) (h : other ≠ place) :
    (fs.set place node).node? other = fs.node? other := by
  unfold node? set
  dsimp only
  rw [List.find?_cons_of_neg (by simpa using h.symm), find?_filter_ne _ h]

theorem node?_erase_of_ne (fs : Files) (h : other ≠ place) :
    (fs.erase place).node? other = fs.node? other := by
  unfold node? erase
  dsimp only
  rw [find?_filter_ne _ h]

theorem node?_erase_self (h : place.isTop = false) (fs : Files) :
    (fs.erase place).node? place = none := by
  have hnone : (fs.nodes.filter (·.1 != place)).find? (·.1 == place) = none := by
    rw [List.find?_eq_none]
    intro e he
    simpa using (List.mem_filter.mp he).2
  unfold node? erase
  rw [h]
  dsimp only
  rw [hnone]
  rfl

def nameIn? (directory : Place) (e : Place × Node) : Option String :=
  match e.1.getLast? with
  | some name => if e.1.dropLast = directory then some name else none
  | none => none

theorem nameIn?_eq_some_iff {e : Place × Node} :
    nameIn? directory e = some name ↔ e.1 = directory ++ [name] := by
  obtain ⟨place, node⟩ := e
  unfold nameIn?
  dsimp only
  constructor
  · intro h
    split at h
    · rename_i last hlast
      split_ifs at h with hdirectory
      obtain rfl := Option.some.inj h
      rw [← hdirectory]
      exact (List.dropLast_append_getLast? last hlast).symm
    · exact absurd h (by simp)
  · rintro rfl
    simp

theorem names_eq (fs : Files) (directory : Place) :
    fs.names directory = fs.nodes.filterMap (nameIn? directory) := rfl

theorem names_erase (fs : Files) (directory : Place) (name : String) :
    (fs.erase (directory ++ [name])).names directory =
      (fs.names directory).filter (· != name) := by
  rw [names_eq, names_eq]
  unfold erase
  dsimp only
  induction fs.nodes with
  | nil => rfl
  | cons e rest ih =>
    cases hname : nameIn? directory e with
    | none =>
      have hne : e.1 ≠ directory ++ [name] := by
        intro heq
        rw [nameIn?_eq_some_iff.mpr heq] at hname
        exact absurd hname (by simp)
      rw [List.filter_cons_of_pos (by simpa using hne), List.filterMap_cons_none hname,
        List.filterMap_cons_none hname, ih]
    | some listed =>
      have hplace := nameIn?_eq_some_iff.mp hname
      rw [List.filterMap_cons_some hname]
      by_cases heq : listed = name
      · rw [List.filter_cons_of_neg (by simp [hplace, heq]),
          List.filter_cons_of_neg (by simp [heq]), ih]
      · rw [List.filter_cons_of_pos (by simp [hplace, heq]), List.filterMap_cons_some hname,
          List.filter_cons_of_pos (by simpa using heq), ih]

theorem names_set (fs : Files) (directory : Place) (name : String) (node : Node) :
    (fs.set (directory ++ [name]) node).names directory =
      name :: (fs.names directory).filter (· != name) := by
  have hname : nameIn? directory (directory ++ [name], node) = some name :=
    nameIn?_eq_some_iff.mpr rfl
  have hrest := names_erase fs directory name
  rw [names_eq] at hrest ⊢
  unfold set
  rw [List.filterMap_cons_some hname]
  exact congrArg (List.cons name) hrest

theorem mem_names_iff (h : 2 < name.length) :
    name ∈ fs.names directory ↔ (fs.node? (directory ++ [name])).isSome := by
  rw [names_eq, List.mem_filterMap]
  unfold node?
  rw [isTop_child directory h]
  simp only [Bool.false_eq_true, ↓reduceIte, Option.isSome_map, List.find?_isSome,
    nameIn?_eq_some_iff, beq_iff_eq]

/-- Directories are not found out by what happens to their files. -/
theorem isDirectory_congr {fs' : Files} (h : fs'.node? place = fs.node? place) :
    fs'.isDirectory place = fs.isDirectory place := by
  unfold isDirectory
  rw [h]

theorem isTop_of_not_isDirectory {fs : Files} {place : Place}
    (h : fs.isDirectory place = false) : place.isTop = false := by
  unfold isDirectory node? at h
  cases htop : place.isTop with
  | false => rfl
  | true =>
    rw [htop] at h
    exact absurd h (by simp)

theorem node?_of_write {fs fs' : Files} {place : Place} {contents : Bytes}
    (h : fs.write place contents = some fs') : fs'.node? place = some (.file contents) := by
  unfold write at h
  split_ifs at h with hrefused
  obtain rfl := Option.some.inj h
  rw [Bool.or_eq_true, not_or] at hrefused
  have htop := isTop_of_not_isDirectory (Bool.not_eq_true _ ▸ hrefused.1)
  exact node?_set fs htop _

theorem node?_of_rename {fs fs' : Files} {source target : Place} {contents : Bytes}
    (hsource : fs.node? source = some (.file contents))
    (h : fs.rename source target = some fs') : fs'.node? target = some (.file contents) := by
  unfold rename at h
  rw [hsource] at h
  dsimp only at h
  split_ifs at h with hdirectory
  obtain rfl := Option.some.inj h
  have htop := isTop_of_not_isDirectory (Bool.not_eq_true _ ▸ hdirectory)
  exact node?_set _ htop _

end Files

namespace Backend

variable {b : Backend} {target : String} {bytes : Bytes}

theorem isTarget_of_put (h : (b.put target bytes).1 = .ok ()) : isTarget target = true := by
  unfold put at h
  split_ifs at h with htarget
  simpa using htarget

/-- What was put under a name is what a look-up gives. -/
theorem get_put (h : (b.put target bytes).1 = .ok ()) :
    (b.put target bytes).2.get target = .ok (some bytes) := by
  have htarget := isTarget_of_put h
  have hvalid := not_refused htarget
  unfold put at h ⊢
  rw [if_neg hvalid] at h ⊢
  cases b with
  | memory blobs =>
    unfold get
    rw [if_neg hvalid]
    exact congrArg Except.ok (SortedMap.get?_insert_self blobs target bytes)
  | directory files folder =>
    dsimp only at h ⊢
    split at h
    · rename_i draft place hdraft hplace
      split at h
      · exact absurd h (by simp [refuse])
      · rename_i drafted hdrafted
        split at h
        · rename_i files hfiles
          have hkept := Files.node?_of_rename (Files.node?_of_write hdrafted) hfiles
          unfold get
          rw [if_neg hvalid]
          dsimp only
          rw [hplace]
          dsimp only
          rw [hkept]
        · exact absurd h (by simp [refuse])
    · exact absurd h (by simp [refuse])

/-- Bytes are kept in memory under every valid name. -/
theorem put_memory (blobs : SortedMap Bytes) (h : isTarget target = true) :
    ((Backend.memory blobs).put target bytes).1 = .ok () := by
  unfold put
  rw [h]
  rfl

end Backend
/-! ### What a directory keeps -/

/-- The room for the draft of the longest valid name. -/
def draftLimit : Nat := targetLimit + 5

/-- The files of a directory keep the bytes of a map. There may be drafts. -/
structure Mirrors (files : Files) (folder : Folder) (blobs : SortedMap Bytes) : Prop where
  directory : files.isDirectory folder.place = true
  sorted : SortedMap.Sorted blobs
  valid : ∀ target ∈ SortedMap.names blobs, isTarget target = true
  kept : ∀ target, isTarget target = true →
    files.node? (folder.place ++ [Backend.fileName target]) =
      (SortedMap.get? blobs target).map .file
  drafts : ∀ target, isTarget target = true →
    files.isDirectory (folder.place ++ [Backend.draftName target]) = false
  nodup : (files.names folder.place).Nodup

namespace Mirrors

open Backend

variable {files : Files} {folder : Folder} {blobs : SortedMap Bytes} {target : String}
  {bytes : Bytes}

/-- A directory without files keeps nothing. -/
theorem start (hdirectory : files.isDirectory folder.place = true)
    (hempty : files.names folder.place = []) : Mirrors files folder [] := by
  have hnone : ∀ name : String, 2 < name.length → files.node? (folder.place ++ [name]) = none := by
    intro name hlength
    have hnot : name ∉ files.names folder.place := by
      rw [hempty]
      exact List.not_mem_nil
    rw [Files.mem_names_iff hlength, Option.not_isSome_iff_eq_none] at hnot
    exact hnot
  refine ⟨hdirectory, SortedMap.sorted_nil, fun _ h => absurd h List.not_mem_nil, ?_, ?_, ?_⟩
  · intro target _
    exact hnone _ (length_fileName target)
  · intro target _
    unfold Files.isDirectory
    rw [hnone _ (length_draftName target)]
  · rw [hempty]
    exact List.nodup_nil

theorem child_ne_place (folder : Folder) (name : String) : folder.place ≠ folder.place ++ [name] :=
  fun heq => absurd (congrArg List.length heq) (by simp)

theorem child_inj {name name' : String} :
    folder.place ++ [name] = folder.place ++ [name'] ↔ name = name' := by
  simp

theorem nodup_erased (h : Mirrors files folder blobs) (name : String) :
    ((files.names folder.place).filter (· != name)).Nodup := h.nodup.filter _

theorem nodup_set (h : Mirrors files folder blobs) (name : String) (node : Node) :
    ((files.set (folder.place ++ [name]) node).names folder.place).Nodup := by
  rw [Files.names_set]
  exact List.nodup_cons.mpr ⟨by simp, h.nodup_erased name⟩

theorem nodup_erase (h : Mirrors files folder blobs) (name : String) :
    ((files.erase (folder.place ++ [name])).names folder.place).Nodup := by
  rw [Files.names_erase]
  exact h.nodup_erased name

/-- A draft is not found among the bytes kept, whatever it holds. -/
theorem drafted (h : Mirrors files folder blobs) (target : String) (bytes : Bytes) :
    Mirrors (files.set (folder.place ++ [draftName target]) (.file bytes)) folder blobs := by
  refine ⟨?_, h.sorted, h.valid, ?_, ?_, h.nodup_set _ _⟩
  · rw [Files.isDirectory_congr (Files.node?_set_of_ne _ _ (child_ne_place folder _))]
    exact h.directory
  · intro other hother
    rw [Files.node?_set_of_ne _ _ (fun heq =>
      draftName_ne_fileName hother (child_inj.mp heq).symm)]
    exact h.kept other hother
  · intro other hother
    by_cases heq : other = target
    · subst heq
      unfold Files.isDirectory
      rw [Files.node?_set _ (Files.isTop_child _ (length_draftName other))]
    · rw [Files.isDirectory_congr (Files.node?_set_of_ne _ _ (fun hplace =>
        heq (draftName_inj (child_inj.mp hplace))))]
      exact h.drafts other hother

theorem undrafted (h : Mirrors files folder blobs) (target : String) :
    Mirrors (files.erase (folder.place ++ [draftName target])) folder blobs := by
  refine ⟨?_, h.sorted, h.valid, ?_, ?_, h.nodup_erase _⟩
  · rw [Files.isDirectory_congr (Files.node?_erase_of_ne _ (child_ne_place folder _))]
    exact h.directory
  · intro other hother
    rw [Files.node?_erase_of_ne _ (fun heq =>
      draftName_ne_fileName hother (child_inj.mp heq).symm)]
    exact h.kept other hother
  · intro other hother
    by_cases heq : other = target
    · subst heq
      unfold Files.isDirectory
      rw [Files.node?_erase_self (Files.isTop_child _ (length_draftName other))]
    · rw [Files.isDirectory_congr (Files.node?_erase_of_ne _ (fun hplace =>
        heq (draftName_inj (child_inj.mp hplace))))]
      exact h.drafts other hother

theorem keep (h : Mirrors files folder blobs) (htarget : isTarget target = true)
    (bytes : Bytes) :
    Mirrors (files.set (folder.place ++ [fileName target]) (.file bytes)) folder
      (SortedMap.insert blobs target bytes) := by
  refine ⟨?_, SortedMap.sorted_insert _ _ h.sorted, ?_, ?_, ?_, h.nodup_set _ _⟩
  · rw [Files.isDirectory_congr (Files.node?_set_of_ne _ _ (child_ne_place folder _))]
    exact h.directory
  · intro other hother
    rcases (SortedMap.mem_names_insert blobs target other bytes).mp hother with rfl | hother
    · exact htarget
    · exact h.valid other hother
  · intro other hother
    rw [SortedMap.get?_insert]
    by_cases heq : other = target
    · subst heq
      rw [Files.node?_set _ (Files.isTop_child _ (length_fileName other)), if_pos rfl]
      rfl
    · rw [Files.node?_set_of_ne _ _ (fun hplace => heq (fileName_inj (child_inj.mp hplace))),
        if_neg heq]
      exact h.kept other hother
  · intro other hother
    rw [Files.isDirectory_congr (Files.node?_set_of_ne _ _ (fun heq =>
      draftName_ne_fileName htarget (child_inj.mp heq)))]
    exact h.drafts other hother

theorem forget (h : Mirrors files folder blobs) (htarget : isTarget target = true) :
    Mirrors (files.erase (folder.place ++ [fileName target])) folder
      (SortedMap.erase blobs target) := by
  refine ⟨?_, SortedMap.sorted_erase _ h.sorted, ?_, ?_, ?_, h.nodup_erase _⟩
  · rw [Files.isDirectory_congr (Files.node?_erase_of_ne _ (child_ne_place folder _))]
    exact h.directory
  · intro other hother
    obtain ⟨e, he, rfl⟩ := List.mem_map.mp hother
    exact h.valid e.1 (List.mem_map_of_mem (List.mem_filter.mp he).1)
  · intro other hother
    rw [SortedMap.get?_erase]
    by_cases heq : other = target
    · subst heq
      rw [Files.node?_erase_self (Files.isTop_child _ (length_fileName other)), if_pos rfl]
      rfl
    · rw [Files.node?_erase_of_ne _ (fun hplace => heq (fileName_inj (child_inj.mp hplace))),
        if_neg heq]
      exact h.kept other hother
  · intro other hother
    rw [Files.isDirectory_congr (Files.node?_erase_of_ne _ (fun heq =>
      draftName_ne_fileName htarget (child_inj.mp heq)))]
    exact h.drafts other hother

/-! ### Calls -/

theorem file?_of_isTarget (hroom : draftLimit ≤ folder.room) (htarget : isTarget target = true) :
    folder.file? (fileName target) = some (folder.place ++ [fileName target]) ∧
      folder.file? (draftName target) = some (folder.place ++ [draftName target]) := by
  have hsize : target.utf8ByteSize ≤ targetLimit := by
    unfold isTarget at htarget
    simp only [Bool.and_eq_true, decide_eq_true_eq] at htarget
    exact htarget.1.1.2
  have hfile : (fileName target).utf8ByteSize = target.utf8ByteSize + 4 :=
    String.utf8ByteSize_append
  have hdraft : (draftName target).utf8ByteSize = 1 + target.utf8ByteSize + 4 := by
    unfold draftName
    rw [String.utf8ByteSize_append, String.utf8ByteSize_append]
    rfl
  unfold draftLimit at hroom
  unfold Folder.file?
  exact ⟨if_pos (by omega), if_pos (by omega)⟩

theorem get_eq (h : Mirrors files folder blobs) (hroom : draftLimit ≤ folder.room)
    (htarget : isTarget target = true) :
    (Backend.directory files folder).get target = .ok (SortedMap.get? blobs target) := by
  unfold Backend.get
  rw [if_neg (not_refused htarget)]
  dsimp only
  rw [(file?_of_isTarget hroom htarget).1]
  dsimp only
  rw [h.kept target htarget]
  cases SortedMap.get? blobs target <;> rfl

theorem write_draft (h : Mirrors files folder blobs) (htarget : isTarget target = true)
    (bytes : Bytes) :
    files.write (folder.place ++ [draftName target]) bytes =
      some (files.set (folder.place ++ [draftName target]) (.file bytes)) := by
  unfold Files.write
  rw [h.drafts target htarget, Files.parent_child _ (length_draftName target), h.directory]
  rfl

theorem put_eq (h : Mirrors files folder blobs) (hroom : draftLimit ≤ folder.room)
    (htarget : isTarget target = true) (bytes : Bytes) :
    ∃ files', (Backend.directory files folder).put target bytes =
        (.ok (), .directory files' folder) ∧
      Mirrors files' folder (SortedMap.insert blobs target bytes) := by
  obtain ⟨hplace, hdraft⟩ := file?_of_isTarget hroom htarget
  have hdrafted := h.drafted target bytes
  have hsource : (files.set (folder.place ++ [draftName target]) (.file bytes)).node?
      (folder.place ++ [draftName target]) = some (.file bytes) :=
    Files.node?_set _ (Files.isTop_child _ (length_draftName target)) _
  have hfree : (files.set (folder.place ++ [draftName target]) (.file bytes)).isDirectory
      (folder.place ++ [fileName target]) = false := by
    unfold Files.isDirectory
    rw [hdrafted.kept target htarget]
    cases SortedMap.get? blobs target <;> rfl
  refine ⟨_, ?_, (hdrafted.undrafted target).keep htarget bytes⟩
  unfold Backend.put
  rw [if_neg (not_refused htarget)]
  dsimp only
  rw [hdraft, hplace]
  dsimp only
  rw [h.write_draft htarget]
  dsimp only
  unfold Files.rename
  rw [hsource]
  dsimp only
  rw [hfree]
  rfl

/-- Whatever is left of keeping bytes that breaks off, the bytes kept before are kept, and no
others. -/
theorem putBroken_eq (h : Mirrors files folder blobs) (target : String) (bytes : Bytes)
    (fault : PutFault) (reason : String) :
    ∃ e files', (Backend.directory files folder).putBroken target bytes fault reason =
        (.error e, .directory files' folder) ∧
      Mirrors files' folder blobs := by
  unfold Backend.putBroken
  by_cases htarget : isTarget target = true
  · rw [if_neg (not_refused htarget)]
    dsimp only
    unfold Folder.file?
    by_cases hfits : (draftName target).utf8ByteSize ≤ folder.room
    · rw [if_pos hfits]
      cases fault.draft? bytes with
      | none => exact ⟨_, files, rfl, h⟩
      | some written =>
        dsimp only
        rw [h.write_draft htarget]
        exact ⟨_, _, rfl, h.drafted target written⟩
    · rw [if_neg hfits]
      exact ⟨_, files, rfl, h⟩
  · rw [if_pos (by simpa using htarget)]
    exact ⟨_, files, rfl, h⟩

theorem remove_eq (h : Mirrors files folder blobs) (hroom : draftLimit ≤ folder.room)
    (htarget : isTarget target = true) :
    ∃ files', (Backend.directory files folder).remove target =
        (.ok (SortedMap.contains blobs target), .directory files' folder) ∧
      Mirrors files' folder (SortedMap.erase blobs target) := by
  unfold Backend.remove
  rw [if_neg (not_refused htarget), SortedMap.contains_eq_isSome]
  dsimp only
  rw [(file?_of_isTarget hroom htarget).1]
  dsimp only
  rw [h.kept target htarget]
  cases hkept : SortedMap.get? blobs target with
  | none =>
    refine ⟨files, rfl, ?_⟩
    rw [SortedMap.erase_of_get?_none hkept]
    exact h
  | some bytes => exact ⟨_, rfl, h.forget htarget⟩

/-- A call with a name that is not valid is refused and changes nothing. -/
theorem answer_refused {c : Call} (hc : c.target? = some target) (h : ¬ isTarget target = true)
    (b : Backend) : b.answer c = (.error (.invalidTarget target), b) := by
  have hrefused : (!isTarget target) = true := by simpa using h
  cases c with
  | targets => exact absurd hc (by simp [Call.target?])
  | get name =>
    obtain rfl := Option.some.inj hc
    have hget : b.get name = .error (.invalidTarget name) := if_pos hrefused
    rw [answer, hget]
    rfl
  | put name bytes =>
    obtain rfl := Option.some.inj hc
    have hput : b.put name bytes = (.error (.invalidTarget name), b) := if_pos hrefused
    rw [answer, hput]
    rfl
  | remove name =>
    obtain rfl := Option.some.inj hc
    have hremove : b.remove name = (.error (.invalidTarget name), b) := if_pos hrefused
    rw [answer, hremove]
    rfl

/-- The names in use are those of the map, and in their order. -/
theorem targets_eq (h : Mirrors files folder blobs) :
    (Backend.directory files folder).targets = SortedMap.names blobs := by
  have hmem : ∀ target, target ∈ (files.names folder.place).filterMap targetOf? ↔
      target ∈ SortedMap.names blobs := by
    intro target
    rw [List.mem_filterMap]
    constructor
    · rintro ⟨name, hname, hof⟩
      obtain ⟨htarget, rfl⟩ := targetOf?_eq_some_iff.mp hof
      rw [Files.mem_names_iff (length_fileName target), h.kept target htarget,
        Option.isSome_map] at hname
      exact (SortedMap.mem_names blobs target).mpr hname
    · intro hname
      have htarget := h.valid target hname
      refine ⟨fileName target, ?_, targetOf?_eq_some_iff.mpr ⟨htarget, rfl⟩⟩
      rw [Files.mem_names_iff (length_fileName target), h.kept target htarget, Option.isSome_map]
      exact (SortedMap.mem_names blobs target).mp hname
  have hnodup : ((files.names folder.place).filterMap targetOf?).Nodup := by
    refine h.nodup.filterMap ?_
    intro name name' target hname hname'
    rw [(targetOf?_eq_some_iff.mp hname).2, (targetOf?_eq_some_iff.mp hname').2]
  have hascending := SortedMap.sorted_names h.sorted
  have hperm : ((files.names folder.place).filterMap targetOf?).Perm (SortedMap.names blobs) :=
    (List.perm_ext_iff_of_nodup hnodup hascending.nodup).mpr hmem
  refine ((List.mergeSort_perm _ _).trans hperm).eq_of_pairwise
    (fun _ _ _ _ hab hba => le_antisymm hab hba) ?_ (hascending.imp le_of_lt)
  have hsorted := @List.pairwise_mergeSort String (fun a b => decide (a ≤ b))
    (fun a b c hab hbc => by simpa using le_trans (of_decide_eq_true hab) (of_decide_eq_true hbc))
    (fun a b => by simpa using le_total a b) ((files.names folder.place).filterMap targetOf?)
  exact hsorted.imp of_decide_eq_true

/-- A directory gives the answer to a call that the memory gives, and keeps on mirroring it. -/
theorem answer_eq (h : Mirrors files folder blobs) (hroom : draftLimit ≤ folder.room) (c : Call) :
    ∃ reply files' blobs', (Backend.directory files folder).answer c =
        (reply, .directory files' folder) ∧
      (Backend.memory blobs).answer c = (reply, .memory blobs') ∧
      Mirrors files' folder blobs' := by
  by_cases hvalid : ∀ target, c.target? = some target → isTarget target = true
  · cases c with
    | targets =>
      refine ⟨_, files, blobs, rfl, ?_, h⟩
      exact congrArg (fun list => (Except.ok (Reply.names list), Backend.memory blobs))
        h.targets_eq.symm
    | get target =>
      have hget := h.get_eq hroom (hvalid target rfl)
      have hmemory : (Backend.memory blobs).get target = .ok (SortedMap.get? blobs target) :=
        if_neg (not_refused (hvalid target rfl))
      exact ⟨.ok (.found (SortedMap.get? blobs target)), files, blobs, by rw [answer, hget]; rfl,
        by rw [answer, hmemory]; rfl, h⟩
    | put target bytes =>
      obtain ⟨files', hput, hmirrors⟩ := h.put_eq hroom (hvalid target rfl) bytes
      have hmemory : (Backend.memory blobs).put target bytes =
          (.ok (), .memory (SortedMap.insert blobs target bytes)) :=
        if_neg (not_refused (hvalid target rfl))
      exact ⟨.ok .done, files', _, by rw [answer, hput]; rfl, by rw [answer, hmemory]; rfl,
        hmirrors⟩
    | remove target =>
      obtain ⟨files', hremove, hmirrors⟩ := h.remove_eq hroom (hvalid target rfl)
      have hmemory : (Backend.memory blobs).remove target =
          (.ok (SortedMap.contains blobs target), .memory (SortedMap.erase blobs target)) :=
        if_neg (not_refused (hvalid target rfl))
      exact ⟨.ok (.flag (SortedMap.contains blobs target)), files', _,
        by rw [answer, hremove]; rfl, by rw [answer, hmemory]; rfl, hmirrors⟩
  · push Not at hvalid
    obtain ⟨target, hc, htarget⟩ := hvalid
    exact ⟨_, files, blobs, answer_refused hc htarget _, answer_refused hc htarget _, h⟩

/-- An attempt on a directory that mirrors the memory leaves one that does, at the bytes that the
memory has when only calls that do not break off are made on it. -/
theorem attempted_eq (h : Mirrors files folder blobs) (hroom : draftLimit ≤ folder.room)
    (attempt : Attempt) :
    ∃ files' blobs', (Backend.directory files folder).attempted attempt =
        .directory files' folder ∧
      (Backend.memory blobs).after ([attempt].filter Attempt.isCall) = .memory blobs' ∧
      Mirrors files' folder blobs' := by
  cases attempt with
  | call c =>
    obtain ⟨_, files', blobs', hdirectory, hmemory, hmirrors⟩ := h.answer_eq hroom c
    exact ⟨files', blobs', congrArg Prod.snd hdirectory, congrArg Prod.snd hmemory, hmirrors⟩
  | broken target bytes fault reason =>
    obtain ⟨_, files', hbroken, hmirrors⟩ := h.putBroken_eq target bytes fault reason
    exact ⟨files', blobs, congrArg Prod.snd hbroken, rfl, hmirrors⟩

/-- A directory that mirrors the memory answers the calls of any attempts as the memory does
without those that break off. -/
theorem answers_eq (h : Mirrors files folder blobs) (hroom : draftLimit ≤ folder.room)
    (attempts : List Attempt) :
    (Backend.directory files folder).answers attempts =
      (Backend.memory blobs).answers (attempts.filter Attempt.isCall) := by
  induction attempts generalizing files blobs with
  | nil => rfl
  | cons attempt rest ih =>
    obtain ⟨files', blobs', hdirectory, hmemory, hmirrors⟩ := h.attempted_eq hroom attempt
    cases attempt with
    | call c =>
      obtain ⟨reply, _, _, hdirectory', hmemory', -⟩ := h.answer_eq hroom c
      have hnext : (Backend.memory blobs).attempted (.call c) = .memory blobs' := hmemory
      rw [List.filter_cons_of_pos rfl, answers, answers, hdirectory, hnext, hdirectory', hmemory',
        ih hmirrors]
    | broken target bytes fault reason =>
      obtain rfl : blobs = blobs' := Backend.memory.inj hmemory
      rw [List.filter_cons_of_neg (by simp [Attempt.isCall]), answers, hdirectory]
      exact ih hmirrors

theorem after_eq (h : Mirrors files folder blobs) (hroom : draftLimit ≤ folder.room)
    (attempts : List Attempt) :
    ∃ files' blobs', (Backend.directory files folder).after attempts = .directory files' folder ∧
      Mirrors files' folder blobs' := by
  induction attempts generalizing files blobs with
  | nil => exact ⟨files, blobs, rfl, h⟩
  | cons attempt rest ih =>
    obtain ⟨files', blobs', hdirectory, -, hmirrors⟩ := h.attempted_eq hroom attempt
    obtain ⟨files'', blobs'', hrest, hlast⟩ := ih hmirrors
    refine ⟨files'', blobs'', ?_, hlast⟩
    rw [Backend.after, List.foldl_cons, hdirectory]
    exact hrest

end Mirrors

namespace Backend

/-! ### Interchangeable storage -/

/-- A directory without files, with room for the longest names, and storage in memory give the
same answers to any calls, with any names and bytes. Calls to keep bytes that break off before the
file is moved to its place always fail on the directory, and the answers to all other calls are
those without them. -/
theorem same_as_memory {files : Files} {folder : Folder}
    (hdirectory : files.isDirectory folder.place = true)
    (hempty : files.names folder.place = []) (hroom : draftLimit ≤ folder.room)
    (attempts : List Attempt) :
    let b := Backend.directory files folder
    b.answers attempts = (Backend.memory []).answers (attempts.filter Attempt.isCall) ∧
      b.answers attempts = b.answers (attempts.filter Attempt.isCall) ∧
      ∀ target bytes fault reason,
        ∃ e, ((b.after attempts).putBroken target bytes fault reason).1 = .error e := by
  intro b
  have hstart := Mirrors.start hdirectory hempty
  refine ⟨hstart.answers_eq hroom attempts, ?_, ?_⟩
  · rw [hstart.answers_eq hroom attempts, hstart.answers_eq hroom, List.filter_filter]
    simp only [Bool.and_self]
  · intro target bytes fault reason
    obtain ⟨files', _, hafter, hmirrors⟩ := hstart.after_eq hroom attempts
    obtain ⟨e, _, hbroken, -⟩ := hmirrors.putBroken_eq target bytes fault reason
    exact ⟨e, by rw [hafter, hbroken]⟩

/-- Bytes are kept, then others are half written, and the name is kept under another that ends
like a file. -/
def halfWritten : List Attempt :=
  [.call (.put "a" [1]), .broken "a" [2, 3] (.writing 1) "disk full",
    .broken "b.tbl" [4] .moving "disk full", .call (.get "a"), .call .targets,
    .call (.put "a.tbl" [5]), .call (.get "b.tbl"), .call .targets]

theorem same_as_memory_halfWritten :
    Files.empty.isDirectory [] = true ∧ Files.empty.names [] = [] ∧
      draftLimit ≤ Path.room ⟨""⟩ ∧
      emptyDirectory.answers halfWritten =
        [.ok .done, .ok (.found (some [1])), .ok (.names ["a"]), .ok .done, .ok (.found none),
          .ok (.names ["a", "a.tbl"])] := by
  have hroom : draftLimit ≤ Path.room ⟨""⟩ := by decide
  have hdirectory : Files.empty.isDirectory (Folder.mk [] (Path.room ⟨""⟩)).place = true := rfl
  obtain ⟨hanswers, -, -⟩ := same_as_memory hdirectory rfl hroom halfWritten
  refine ⟨rfl, rfl, hroom, hanswers.trans ?_⟩
  decide +kernel

end Backend
end IndexedStore.Storage
