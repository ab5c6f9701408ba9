import IndexedStore.Store.Loading
import IndexedStore.Store.Querying
import IndexedStore.Store.Saving

/-!
The operations of a store as data, so that a run of any operations is a list.
-/
namespace IndexedStore

inductive Operation where
  | declareIndex (fields : List String)
  | get (selector : Selector)
  | record (key : String)
  | set (key : Option String) (data : Fields) (options : SetOptions)
  | delete (target : Target) (options : DeleteOptions)
  | undo (key : String) (label : Option String)
  | reindex
  | clear
  | select (filter : Where)
  | sort (order : SortOrder) (filter : Option Where) (anew : Bool)
  | batch (kind : BatchKind) (items : List Value) (replace : Bool)
  | batchDetailed (kind : BatchKind) (items : List Value) (replace : Bool)
  | load (payload : Value)
  | sync
  /-- Saves under a name, or under the store's own. -/
  | save (name : Option String)
  | restore
  | purge
  | versions (key : String)
  | unique (field : String)
  | only (field : String)
  | poll (cursor limit : Nat)
  | subscribe
  | drain (inbox : Nat)

inductive Answer where
  | done
  | flag (b : Bool)
  | name (text : String)
  | names (texts : List String)
  | snapshot (r : Snapshot)
  | snapshots (records : List Snapshot)
  | values (found : List Value)
  | report (r : BatchReport)
  | inbox (number : Nat)
  | events (list : Option (List Event))

def Outcome.map {α β : Type} (f : α → β) (o : Outcome α) : Outcome β :=
  ⟨o.result.map f, o.store, o.world⟩

namespace Store

def perform (s : Store) (w : World) : Operation → Outcome Answer
  | .declareIndex fields => (s.declareIndex w fields).map .name
  | .get selector => (s.get w selector).map .snapshots
  | .record key => (s.record w key).map .snapshot
  | .set key data options => (s.set w key data options).map .snapshot
  | .delete target options => (s.delete w target options).map .snapshot
  | .undo key label => (s.undo w key label).map .snapshot
  | .reindex => (s.reindex w).map fun _ => .done
  | .clear => ⟨.ok .done, s.clear, w⟩
  | .select filter => (s.select w filter).map .snapshots
  | .sort order filter anew => (s.sort w order filter anew).map .snapshots
  | .batch kind items replace => (s.batch w kind items replace).map .report
  | .batchDetailed kind items replace => (s.batchDetailed w kind items replace).map .report
  | .load payload => (s.load w payload).map .names
  | .sync => (s.sync w).map .names
  | .save (some name) => (s.saveAs w name).map fun _ => .done
  | .save none => (s.save w).map fun _ => .done
  | .restore => (s.restore w).map .flag
  | .purge => (s.purge w).map .flag
  | .versions key => ⟨.ok (.names (s.labels key)), s, w⟩
  | .unique field => ⟨.ok (.values (s.unique field)), s, w⟩
  | .only field => ⟨.ok (.values (s.only field)), s, w⟩
  | .poll cursor limit => ⟨.ok (.events (some (s.poll cursor limit))), s, w⟩
  | .subscribe =>
    let (inbox, s) := s.subscribe
    ⟨.ok (.inbox inbox), s, w⟩
  | .drain inbox =>
    let (events, s) := s.drain inbox
    ⟨.ok (.events events), s, w⟩

def performAll (s : Store) (w : World) :
    List Operation → List (Except StoreError Answer) × Store × World
  | [] => ([], s, w)
  | operation :: rest =>
    let o := s.perform w operation
    let (results, s, w) := performAll o.store o.world rest
    (o.result :: results, s, w)

end Store
end IndexedStore
