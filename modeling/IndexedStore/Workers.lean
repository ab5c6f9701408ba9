/-!
Work handed to other threads. A job gives the same value wherever it runs; a job that fails on a
worker is run once more by the caller, and after that no job goes to a worker.
-/
namespace IndexedStore

inductive JobPath where
  | worker
  | fallback
  | inline
deriving DecidableEq, Repr

structure Workers where
  /-- The size of the pool in use. -/
  threads : Option Nat
  /-- Whether threads can be started. -/
  startable : Bool
  /-- Whether workers have been given up. -/
  disabled : Bool
  /-- Which of the next jobs on a worker are lost, whatever they do. -/
  losses : List Bool
  /-- The paths of the jobs so far, the latest first. -/
  paths : List JobPath
deriving DecidableEq, Repr

namespace Workers

def fresh : Workers := ⟨none, true, false, [], []⟩

/-- The pool that all share: the one in use, or else a new one of some threads, at least one. The
first part tells whether there is a pool. Workers whose threads cannot be started are given up. -/
def shared (w : Workers) (threads : Nat) : Bool × Workers :=
  if w.disabled then (false, w)
  else if w.threads.isNone && !w.startable then (false, { w with disabled := true })
  else (true, { w with threads := some (w.threads.getD (max threads 1)) })

def logged (w : Workers) (path : JobPath) : JobPath × Workers :=
  (path, { w with paths := path :: w.paths })

/-- What a worker gives back of a job that is made for it; a job that is lost gives nothing. -/
def attempt {α : Type} (w : Workers) (fails : Bool) (make : Unit → α) : Option α × Workers :=
  let lost := fails || w.losses.headD false
  (if lost then none else some (make ()), { w with losses := w.losses.tail })

/-- The value of a job and its path. A caller without a pool runs the job itself; a job that a
worker has lost is made anew and run by the caller, and workers are given up. -/
def run {α : Type} (w : Workers) (hasPool fails : Bool) (make : Unit → α) :
    α × JobPath × Workers :=
  if !hasPool || w.disabled then (make (), w.logged .inline)
  else
    match w.attempt fails make with
    | (some x, w) => (x, w.logged .worker)
    | (none, w) => (make (), { w with disabled := true }.logged .fallback)

def offload (w : Workers) (hasPool fails : Bool) : JobPath × Workers :=
  (w.run hasPool fails fun _ => ()).2

end Workers

def JobPath.jobs : JobPath → Nat
  | worker => 1
  | fallback => 2
  | inline => 1

def JobPath.name : JobPath → String
  | worker => "worker"
  | fallback => "fallback"
  | inline => "inline"

end IndexedStore
