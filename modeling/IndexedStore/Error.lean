import IndexedStore.Value
import IndexedStore.Text.Quoted

/-!
Why operations fail. Each error is a cause; its wording is written once, in `message`.
-/
namespace IndexedStore

open Text (quoted)

inductive ArgumentFault where
  | indexWithoutFields
  | indexFieldEmpty
  | indexFieldSeparated (field : String)
  | misplacedRecord (key : String) (offset position : Nat)
  | duplicateKey (key : String)
  | whereNotObject
  | whereEmpty
  | whereFieldEmpty
  | selectorEmpty
  | selectorToken (text : String)
  | orderEmpty
  | orderDirection (word : String)
  | orderItemEmpty (text : String)
  | orderItem (item : String)
  | remoteWithoutUri
  | withoutRemote
  | deleteKeyless
  | deleteNull
  | stated (reason : String)
deriving DecidableEq, Repr

def ArgumentFault.message : ArgumentFault → String
  | indexWithoutFields => "index needs at least one field"
  | indexFieldEmpty => "index field name is empty"
  | indexFieldSeparated field => "index field " ++ quoted field ++ " contains '|'"
  | misplacedRecord key offset position =>
    "record " ++ quoted key ++ s!" at offset {offset} claims position {position}"
  | duplicateKey key => "duplicate record key " ++ quoted key
  | whereNotObject => "where clause must be a JSON object"
  | whereEmpty => "where clause is empty"
  | whereFieldEmpty => "where clause has an empty field name"
  | selectorEmpty => "empty selector"
  | selectorToken text => "empty token in selector " ++ quoted text
  | orderEmpty => "empty sort specification"
  | orderDirection word => "unknown sort direction " ++ quoted word
  | orderItemEmpty text => "empty item in sort specification " ++ quoted text
  | orderItem item => "malformed sort item " ++ quoted item
  | remoteWithoutUri => "a remote store needs a uri"
  | withoutRemote => "store has no remote collection"
  | deleteKeyless => "batch delete item carries no key"
  | deleteNull => "batch delete item is null"
  | stated reason => reason

inductive ShapeFault where
  | missingField (name : String)
  | unreadableField (name : String) (kind : Value.Kind)
  | listItem (kind : Value.Kind)
  | mapEntry (key : String) (kind : Value.Kind)
  | payload (kind : Value.Kind)
  | batchItem (kind : Value.Kind)
  | stated (reason : String)
deriving DecidableEq, Repr

def ShapeFault.message : ShapeFault → String
  | missingField name => "payload has no field " ++ quoted name
  | unreadableField name kind => "cannot read " ++ quoted name ++ " from " ++ kind.name
  | listItem kind => "list item is " ++ kind.name
  | mapEntry key kind => "entry " ++ quoted key ++ " is " ++ kind.name
  | payload kind => "payload is " ++ kind.name
  | batchItem kind => "batch set item is " ++ kind.name
  | stated reason => reason

inductive StorageError where
  | io (reason : String)
  | invalidTarget (target : String)
  | unavailable (reason : String)
deriving DecidableEq, Repr

def StorageError.message : StorageError → String
  | io reason => "I/O error: " ++ reason
  | invalidTarget target => "invalid storage target: " ++ quoted target
  | unavailable reason => "storage unavailable: " ++ reason

def StorageError.name : StorageError → String
  | io _ => "Io"
  | invalidTarget _ => "InvalidTarget"
  | unavailable _ => "Unavailable"

inductive ValueError where
  | encodingFailed (reason : String)
  | decodingFailed (reason : String)
  | nonFinite
  | expectedObject (found : Value.Kind)
deriving DecidableEq, Repr

def ValueError.message : ValueError → String
  | encodingFailed reason => "encoding failed: " ++ reason
  | decodingFailed reason => "decoding failed: " ++ reason
  | nonFinite => "non-finite numbers cannot be represented"
  | expectedObject found => "expected an object, found " ++ found.name

def ValueError.name : ValueError → String
  | encodingFailed _ => "EncodingFailed"
  | decodingFailed _ => "DecodingFailed"
  | nonFinite => "NonFinite"
  | expectedObject _ => "ExpectedObject"

inductive StoreError where
  | invalidArguments (fault : ArgumentFault)
  | noPreviousVersion (key : String)
  | expectedObject (fault : ShapeFault)
  | serverError (status : Nat) (reason : String)
  | forbidden (uri : String)
  | unauthorized (uri : String)
  | methodNotAllowed (uri method : String)
  | recordNotFound (target : String)
  | transport (reason : String)
  | batchFailed (failed total : Nat)
  | poisoned
  | storage (error : StorageError)
  | value (error : ValueError)
deriving DecidableEq, Repr

namespace StoreError

def message : StoreError → String
  | invalidArguments fault => "invalid arguments: " ++ fault.message
  | noPreviousVersion key => "no previous version for record " ++ quoted key
  | expectedObject fault => "expected an object: " ++ fault.message
  | serverError status reason => s!"server error {status}: {reason}"
  | forbidden uri => s!"forbidden: {uri}"
  | unauthorized uri => s!"unauthorized: {uri}"
  | methodNotAllowed uri method => s!"method {method} not allowed on {uri}"
  | recordNotFound target => s!"record not found: {target}"
  | transport reason => s!"transport error: {reason}"
  | batchFailed failed total => s!"batch failed: {failed} of {total} items"
  | poisoned => "store is poisoned by a failed reindex"
  | storage error => "storage error: " ++ error.message
  | value error => "value error: " ++ error.message

/-- The name of a cause, without its particulars; a failure below the store is named by its
part. -/
def name : StoreError → String
  | invalidArguments _ => "InvalidArguments"
  | noPreviousVersion _ => "NoPreviousVersion"
  | expectedObject _ => "ExpectedObject"
  | serverError _ _ => "ServerError"
  | forbidden _ => "Forbidden"
  | unauthorized _ => "Unauthorized"
  | methodNotAllowed _ _ => "MethodNotAllowed"
  | recordNotFound _ => "RecordNotFound"
  | transport _ => "Transport"
  | batchFailed _ _ => "BatchFailed"
  | poisoned => "Poisoned"
  | storage _ => "Storage"
  | value _ => "Value"

def isPermission : StoreError → Bool
  | forbidden _ => true
  | unauthorized _ => true
  | methodNotAllowed _ _ => true
  | _ => false

end StoreError
end IndexedStore
