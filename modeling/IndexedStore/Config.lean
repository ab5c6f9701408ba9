/-!
The settings of a store.
-/
namespace IndexedStore

structure Config where
  name : String
  /-- The field whose value is a record's key, where records bring their own. -/
  keyField : Option String
  /-- The fields of each index that is declared from the start. -/
  indexes : List (List String)
  /-- Whether earlier fields of records are kept. -/
  versioning : Bool
  versionLimit : Nat
  httpCacheCapacity : Nat
  /-- How many seconds answers of the remote side are kept. -/
  httpCacheLifetime : Nat
  uri : Option String
  /-- The path to the records in a payload. -/
  source : Option String
  headers : List (String × String)
  useWorkers : Bool
  workerThreads : Nat
  /-- From how many records on work goes to workers. -/
  offloadThreshold : Nat
  eventHistory : Nat

def Config.standard : Config where
  name := "store"
  keyField := none
  indexes := []
  versioning := true
  versionLimit := 100
  httpCacheCapacity := 500
  httpCacheLifetime := 300
  uri := none
  source := none
  headers := []
  useWorkers := true
  workerThreads := 2
  offloadThreshold := 0
  eventHistory := 10000

end IndexedStore
