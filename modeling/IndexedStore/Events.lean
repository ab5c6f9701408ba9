/-!
Events of a store: one for each change, with the revision it led to. The latest events are kept
for polling, and each subscriber has an inbox of its own.
-/
namespace IndexedStore

inductive EventKind where
  | created
  | updated
  | deleted
  | reindexed
  | cleared
  | batch
deriving DecidableEq, Repr

namespace EventKind

def all : List EventKind := [created, updated, deleted, reindexed, cleared, batch]

def name : EventKind → String
  | created => "Created"
  | updated => "Updated"
  | deleted => "Deleted"
  | reindexed => "Reindexed"
  | cleared => "Cleared"
  | batch => "Batch"

def ofName? (name : String) : Option EventKind := all.find? (·.name == name)

end EventKind

structure Event where
  revision : Nat
  kind : EventKind
  key : Option String
deriving DecidableEq, Repr

/-- The events waiting for a subscriber. A closed inbox is detached when the next event comes. -/
structure Inbox where
  attached : Bool
  closed : Bool
  waiting : List Event

def Inbox.deliver (inbox : Inbox) (e : Event) : Inbox :=
  if inbox.closed then { inbox with attached := false }
  else if inbox.attached then { inbox with waiting := inbox.waiting ++ [e] }
  else inbox

structure EventFeed where
  inboxes : List Inbox
  history : List Event
  historyLimit : Nat

namespace EventFeed

def empty (historyLimit : Nat) : EventFeed := ⟨[], [], historyLimit⟩

/-- Adds an inbox; its number is the count of those before. -/
def subscribe (f : EventFeed) : Nat × EventFeed :=
  (f.inboxes.length, { f with inboxes := f.inboxes ++ [⟨true, false, []⟩] })

def unsubscribe (f : EventFeed) (n : Nat) : EventFeed :=
  { f with inboxes := f.inboxes.modify n fun inbox => { inbox with closed := true } }

/-- Keeps an event, dropping the oldest beyond the limit, and delivers it. -/
def emit (f : EventFeed) (e : Event) : EventFeed :=
  let history := f.history ++ [e]
  { f with
    inboxes := f.inboxes.map (·.deliver e),
    history := history.drop (history.length - f.historyLimit) }

def poll (f : EventFeed) (cursor limit : Nat) : List Event :=
  (f.history.filter (cursor < ·.revision)).take limit

def drain (f : EventFeed) (n : Nat) : Option (List Event) × EventFeed :=
  match f.inboxes[n]? with
  | some inbox =>
    if inbox.closed then (none, f)
    else
      (some inbox.waiting,
        { f with inboxes := f.inboxes.modify n fun inbox => { inbox with waiting := [] } })
  | none => (none, f)

def latestRevision (f : EventFeed) : Nat := (f.history.getLast?.map (·.revision)).getD 0

def subscriberCount (f : EventFeed) : Nat := f.inboxes.countP (·.attached)

def summary (f : EventFeed) : String :=
  let subscribers := f.subscriberCount
  let held := f.history.length
  let limit := f.historyLimit
  s!"EventFeed \x7b subscribers: {subscribers}, history: {held}, max_history: {limit} \x7d"

end EventFeed
end IndexedStore
