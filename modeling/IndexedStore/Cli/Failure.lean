import IndexedStore.Error

/-!
Failures of the program, and the outlines in which they are shown: the name of the cause with its
particulars.
-/
namespace IndexedStore

open Text (quoted)

namespace Outline

def record (name : String) (particulars : List (String × String)) : String :=
  let written := particulars.map fun (field, text) => field ++ ": " ++ text
  name ++ " \x7b " ++ ", ".intercalate written ++ " \x7d"

def single (name text : String) : String := name ++ "(" ++ text ++ ")"

end Outline

open Outline

def StorageError.outline (e : StorageError) : String :=
  match e with
  | .io reason => single e.name (quoted reason)
  | .invalidTarget target => single e.name (quoted target)
  | .unavailable reason => single e.name (quoted reason)

def ValueError.outline (e : ValueError) : String :=
  match e with
  | .encodingFailed reason => record e.name [("message", quoted reason)]
  | .decodingFailed reason => record e.name [("message", quoted reason)]
  | .nonFinite => e.name
  | .expectedObject found => record e.name [("found", quoted found.name)]

def StoreError.outline (e : StoreError) : String :=
  match e with
  | .invalidArguments fault => record e.name [("message", quoted fault.message)]
  | .noPreviousVersion key => record e.name [("key", quoted key)]
  | .expectedObject fault => record e.name [("message", quoted fault.message)]
  | .serverError status reason =>
    record e.name [("status", toString status), ("message", quoted reason)]
  | .forbidden uri => record e.name [("uri", quoted uri)]
  | .unauthorized uri => record e.name [("uri", quoted uri)]
  | .methodNotAllowed uri method =>
    record e.name [("uri", quoted uri), ("method", quoted method)]
  | .recordNotFound target => record e.name [("target", quoted target)]
  | .transport reason => single e.name (quoted reason)
  | .batchFailed failed total =>
    record e.name [("failed", toString failed), ("total", toString total)]
  | .poisoned => e.name
  | .storage inner => single e.name inner.outline
  | .value inner => single e.name inner.outline

namespace Cli

inductive Failure where
  | unknownFormat (word : String)
  | fileMissing
  | unreadable (path reason : String)
  | filterNotJson
  | noSnapshot (name directory : String)
  | store (e : StoreError)
  | storage (e : StorageError)
  | value (e : ValueError)
deriving DecidableEq, Repr

def Failure.outline : Failure → String
  | unknownFormat word =>
    quoted ("unknown output format " ++ quoted word ++ " (expected text or json)")
  | fileMissing => quoted "Record file required (--file)"
  | unreadable path reason => quoted s!"cannot read {path}: {reason}"
  | filterNotJson => quoted "where clause is not JSON: malformed"
  | noSnapshot name directory =>
    quoted ("No snapshot " ++ quoted name ++ s!" found in {directory}")
  | store e => e.outline
  | storage e => e.outline
  | value e => e.outline

end Cli
end IndexedStore
