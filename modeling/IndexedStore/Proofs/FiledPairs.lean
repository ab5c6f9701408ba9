import Mathlib.Data.Finset.Card
import IndexedStore.Proofs.Searches

/-!
An index after any calls. It goes with a set of pairs of a bucket and a position, on which the same
calls only add and remove pairs: what is looked up, counted and answered is read off that set, and
the set fixes the index.
-/
namespace IndexedStore

namespace SecondaryIndex

/-! ### Calls -/

inductive Call where
  | insert (bucket : String) (position : Nat)
  | remove (bucket : String) (position : Nat)
  | reposition (bucket : String) (source target : Nat)
  | clear

def called (ix : SecondaryIndex) : Call → Option Bool × SecondaryIndex
  | .insert bucket position => (ix.insert bucket position).map some id
  | .remove bucket position => (ix.remove bucket position).map some id
  | .reposition bucket source target => (ix.reposition bucket source target).map some id
  | .clear => (none, ix.clear)

def calledBy (find : Finder) (ix : SecondaryIndex) : Call → Option Bool × SecondaryIndex
  | .insert bucket position => (ix.insertBy find bucket position).map some id
  | .remove bucket position => (ix.removeBy find bucket position).map some id
  | .reposition bucket source target => (ix.repositionBy find bucket source target).map some id
  | .clear => (none, ix.clear)

def run {σ : Type} (step : σ → Call → Option Bool × σ) (start : σ) :
    List Call → List (Option Bool) × σ
  | [] => ([], start)
  | call :: rest =>
    let next := step start call
    let last := run step next.2 rest
    (next.1 :: last.1, last.2)

/-- Steps that answer alike and keep a relation lead to runs that do. -/
theorem run_related {σ τ : Type} {step : σ → Call → Option Bool × σ}
    {step' : τ → Call → Option Bool × τ} {R : σ → τ → Prop}
    (hstep : ∀ {s t}, R s t → ∀ call,
      (step s call).1 = (step' t call).1 ∧ R (step s call).2 (step' t call).2)
    {s : σ} {t : τ} (h : R s t) (calls : List Call) :
    (run step s calls).1 = (run step' t calls).1 ∧
      R (run step s calls).2 (run step' t calls).2 := by
  induction calls generalizing s t with
  | nil => exact ⟨rfl, h⟩
  | cons call rest ih =>
    obtain ⟨hanswer, hnext⟩ := hstep h call
    obtain ⟨hanswers, hlast⟩ := ih hnext
    exact ⟨congrArg₂ List.cons hanswer hanswers, hlast⟩

end SecondaryIndex

/-! ### Sets of pairs -/

abbrev FiledPairs := Finset (String × Nat)

namespace FiledPairs

open SecondaryIndex (Call run)

/-- What a call asks of a set of pairs, and whether the pair that it adds or removes was not there
or was. A pair that is not there is not moved; one that is moved onto another is removed. -/
def called (pairs : FiledPairs) : Call → Option Bool × FiledPairs
  | .insert bucket position =>
    (some ((bucket, position) ∉ pairs), insert (bucket, position) pairs)
  | .remove bucket position =>
    (some ((bucket, position) ∈ pairs), pairs.erase (bucket, position))
  | .reposition bucket source target =>
    if (bucket, source) ∈ pairs then
      let left := pairs.erase (bucket, source)
      (some ((bucket, target) ∉ left), insert (bucket, target) left)
    else (some false, pairs)
  | .clear => (none, ∅)

end FiledPairs

namespace SecondaryIndex

structure Represents (fields : List String) (ix : SecondaryIndex) (pairs : FiledPairs) : Prop where
  declared : ix.fields = fields
  wellFormed : ix.WellFormed
  mem_lookup : ∀ b p, p ∈ ix.lookup b ↔ (b, p) ∈ pairs

namespace Represents

variable {fields : List String} {ix : SecondaryIndex} {pairs : FiledPairs}

theorem empty (fields : List String) : Represents fields (.empty fields) ∅ :=
  ⟨rfl, wellFormed_empty fields, by simp⟩

theorem contains_eq (h : Represents fields ix pairs) (b : String) (p : Nat) :
    ix.contains b p = decide ((b, p) ∈ pairs) := by
  rw [Bool.eq_iff_iff, decide_eq_true_iff, contains_iff, h.mem_lookup]

theorem insert (h : Represents fields ix pairs) (b : String) (p : Nat) :
    (ix.insert b p).1 = decide ((b, p) ∉ pairs) ∧
      Represents fields (ix.insert b p).2 (Insert.insert (b, p) pairs) := by
  constructor
  · rw [decide_not, ← h.contains_eq]
    unfold SecondaryIndex.insert
    cases ix.contains b p <;> rfl
  · refine ⟨(fields_insert ix b p).trans h.declared, wellFormed_insert h.wellFormed b p,
      fun b' q => ?_⟩
    rw [mem_lookup_insert, h.mem_lookup, Finset.mem_insert, Prod.mk.injEq]

theorem remove (h : Represents fields ix pairs) (b : String) (p : Nat) :
    (ix.remove b p).1 = decide ((b, p) ∈ pairs) ∧
      Represents fields (ix.remove b p).2 (pairs.erase (b, p)) := by
  constructor
  · rw [← h.contains_eq]
    unfold SecondaryIndex.remove
    cases ix.contains b p <;> rfl
  · refine ⟨(fields_remove ix b p).trans h.declared, wellFormed_remove h.wellFormed b p,
      fun b' q => ?_⟩
    rw [mem_lookup_remove h.wellFormed, h.mem_lookup, Finset.mem_erase, ne_eq, Prod.mk.injEq,
      and_comm]

/-- A move is a removal and, if there was something to remove, an addition. -/
theorem reposition (h : Represents fields ix pairs) (b : String) (source target : Nat) :
    (some (ix.reposition b source target).1 =
        (pairs.called (.reposition b source target)).1) ∧
      Represents fields (ix.reposition b source target).2
        (pairs.called (.reposition b source target)).2 := by
  obtain ⟨hanswer, hleft⟩ := h.remove b source
  unfold SecondaryIndex.reposition FiledPairs.called
  dsimp only
  cases hremoved : ix.remove b source with
  | mk removed left =>
    rw [hremoved] at hanswer hleft
    dsimp only at hanswer hleft
    split_ifs with hmem
    · obtain rfl : removed = true := hanswer.trans (decide_eq_true hmem)
      obtain ⟨hfiled, htarget⟩ := hleft.insert b target
      exact ⟨congrArg some hfiled, htarget⟩
    · obtain rfl : removed = false := hanswer.trans (decide_eq_false hmem)
      rw [Finset.erase_eq_of_notMem hmem] at hleft
      exact ⟨rfl, hleft⟩

/-- Each call answers what it answers on the set, and the index goes on with the set. -/
theorem called (h : Represents fields ix pairs) (call : Call) :
    (ix.called call).1 = (pairs.called call).1 ∧
      Represents fields (ix.called call).2 (pairs.called call).2 := by
  cases call with
  | insert b p =>
    obtain ⟨hanswer, hnext⟩ := h.insert b p
    exact ⟨congrArg some hanswer, hnext⟩
  | remove b p =>
    obtain ⟨hanswer, hnext⟩ := h.remove b p
    exact ⟨congrArg some hanswer, hnext⟩
  | reposition b source target => exact h.reposition b source target
  | clear => exact ⟨rfl, h.declared ▸ empty ix.fields⟩

/-! ### What is read from an index -/

theorem count_eq (h : Represents fields ix pairs) : ix.count = pairs.card := by
  rw [h.wellFormed.count_eq pairs.nodup_toList fun b p => ?_, Finset.length_toList]
  rw [Finset.mem_toList, h.mem_lookup]

theorem bucketCount_eq (h : Represents fields ix pairs) :
    ix.bucketCount = (pairs.image Prod.fst).card := by
  have hnodup : (SortedMap.names ix.buckets).Nodup :=
    (SortedMap.sorted_names h.wellFormed.sorted).imp ne_of_lt
  have hnames : (SortedMap.names ix.buckets).toFinset = pairs.image Prod.fst := by
    ext b
    rw [List.mem_toFinset, h.wellFormed.mem_names, ← List.length_pos_iff,
      List.length_pos_iff_exists_mem, Finset.mem_image]
    simp [h.mem_lookup]
  rw [← hnames, List.toFinset_card_of_nodup hnodup]
  exact (List.length_map _).symm

/-- Indexes over the same fields are the same exactly if they hold the same pairs. -/
theorem eq_iff {ix' : SecondaryIndex} {pairs' : FiledPairs} (h : Represents fields ix pairs)
    (h' : Represents fields ix' pairs') : ix' = ix ↔ pairs' = pairs := by
  constructor
  · rintro rfl
    ext ⟨b, p⟩
    rw [← h.mem_lookup, h'.mem_lookup]
  · rintro rfl
    refine h.wellFormed.determined h'.wellFormed (h'.declared.trans h.declared.symm) fun b p => ?_
    rw [h.mem_lookup, h'.mem_lookup]

end Represents

/-! ### Runs -/

theorem wellFormed_called {ix : SecondaryIndex} (h : ix.WellFormed) (call : Call) :
    (ix.called call).2.WellFormed := by
  cases call with
  | insert b p => exact wellFormed_insert h b p
  | remove b p => exact wellFormed_remove h b p
  | reposition b source target => exact wellFormed_reposition h b source target
  | clear => exact wellFormed_empty ix.fields

/-- It makes no difference to a call how the places in the buckets are found. -/
theorem calledBy_eq {find : Finder} (hfind : find.Reliable) {ix : SecondaryIndex}
    (h : ix.WellFormed) (call : Call) : ix.calledBy find call = ix.called call := by
  cases call with
  | insert b p => exact congrArg (Prod.map some id) (insertBy_eq hfind h b p)
  | remove b p => exact congrArg (Prod.map some id) (removeBy_eq hfind h b p)
  | reposition b source target =>
    exact congrArg (Prod.map some id) (repositionBy_eq hfind h b source target)
  | clear => rfl

theorem run_calledBy {find : Finder} (hfind : find.Reliable) {ix : SecondaryIndex}
    (h : ix.WellFormed) (calls : List Call) :
    run (calledBy find) ix calls = run called ix calls := by
  induction calls generalizing ix with
  | nil => rfl
  | cons call rest ih =>
    have hnext := ih (wellFormed_called h call)
    rw [run, run, calledBy_eq hfind h, hnext]

theorem represents_run (fields : List String) (calls : List Call) :
    (run called (empty fields) calls).1 = (run FiledPairs.called ∅ calls).1 ∧
      Represents fields (run called (empty fields) calls).2 (run FiledPairs.called ∅ calls).2 :=
  run_related (fun h call => h.called call) (Represents.empty fields) calls

/-- After any calls an index has answered as the set of pairs does and represents it. Its look-ups
are the ascending lists of what is paired with a bucket, no bucket is empty, the counts are those
of pairs and of buckets, and other calls lead to the same index just when they lead to the same set.
All that holds too where places in buckets are searched for, by halving for instance. -/
theorem pairs_after_calls (fields : List String) (calls : List Call) :
    let ix := (run called (empty fields) calls).2
    let pairs := (run FiledPairs.called ∅ calls).2
    (run called (empty fields) calls).1 = (run FiledPairs.called ∅ calls).1 ∧
    (∀ b, (ix.lookup b).Pairwise (· < ·) ∧ ∀ p, p ∈ ix.lookup b ↔ (b, p) ∈ pairs) ∧
    (∀ b p, ix.contains b p = true ↔ (b, p) ∈ pairs) ∧
    (∀ e ∈ ix.buckets, e.2 ≠ []) ∧
    ix.count = pairs.card ∧
    ix.bucketCount = (pairs.image Prod.fst).card ∧
    (∀ others, (run called (empty fields) others).2 = ix ↔
      (run FiledPairs.called ∅ others).2 = pairs) ∧
    Finder.halving.Reliable ∧
    ∀ find : Finder, find.Reliable →
      run (calledBy find) (empty fields) calls = run called (empty fields) calls ∧
      ∀ b p, ix.containsBy find b p = ix.contains b p := by
  intro ix pairs
  obtain ⟨hanswers, hix⟩ := represents_run fields calls
  refine ⟨hanswers, fun b => ⟨lookup_ascending hix.wellFormed.ascending b, hix.mem_lookup b⟩,
    fun b p => ?_, hix.wellFormed.nonempty, hix.count_eq, hix.bucketCount_eq,
    fun others => hix.eq_iff (represents_run fields others).2, Finder.reliable_halving,
    fun find hfind => ⟨?_, containsBy_eq hfind hix.wellFormed⟩⟩
  · rw [hix.contains_eq, decide_eq_true_iff]
  · exact run_calledBy hfind (wellFormed_empty fields) calls

-- A move onto a position that is taken leaves one position fewer and answers no.
example : run called (empty ["age"])
    [.insert "25" 2, .insert "25" 1, .insert "25" 1, .reposition "25" 2 1, .remove "30" 1] =
      ([some true, some true, some false, some false, some false],
        ⟨["age"], [("25", [1])], 1⟩) := by
  decide

end SecondaryIndex
end IndexedStore
