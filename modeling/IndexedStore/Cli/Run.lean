import IndexedStore.Cli.Arguments
import IndexedStore.Cli.Failure
import IndexedStore.Cli.Report
import IndexedStore.Json.Reader
import IndexedStore.Store.Loading
import IndexedStore.Store.Querying
import IndexedStore.Store.Saving

/-!
Running the program over the files that it sees. A run gives the exit code, what is printed, and
the files as they are afterwards.
-/
namespace IndexedStore.Cli

structure Ending where
  exit : Nat
  output : String
  /-- What is printed about a failure or misuse. -/
  errors : String
  files : Storage.Files

def readFormat (word : String) : Except Failure Format :=
  match word with
  | "text" => .ok .text
  | "json" => .ok .json
  | other => .error (.unknownFormat other)

def Invocation.config (i : Invocation) (name : String) : Config :=
  { Config.standard with
    name := name
    keyField := i.key
    source := i.source
    indexes := i.indexes.map fun text =>
      (Text.splitAt ',' text.toList).map fun field => String.ofList (Text.trim field) }

def localWorld (keys : KeySupply) (storage : Storage.Backend) : World :=
  ⟨keys, Http.Script.client [] [], storage, .fresh, 0⟩

def readText (files : Storage.Files) (path : String) : Except Failure String :=
  match files.read ⟨path⟩ with
  | .error fault => .error (.unreadable path fault.message)
  | .ok contents =>
    match Bytes.toText? contents with
    | some text => .ok text
    | none => .error (.unreadable path "not text")

def proceed {α β : Type} (o : Outcome α) (next : α → Store → World → Except Failure β) :
    Except Failure β :=
  match o.result with
  | .ok x => next x o.store o.world
  | .error e => .error (.store e)

def Invocation.opened (i : Invocation) (name : String) (w : World) (files : Storage.Files) :
    Except Failure (Store × World) :=
  match i.file with
  | none => .error .fileMissing
  | some path =>
    match readText files path with
    | .error failure => .error failure
    | .ok text =>
      match Store.create (i.config name) w with
      | (.error e, _) => .error (.store e)
      | (.ok s, w) =>
        match Json.read? text with
        | none => .error (.value (.decodingFailed "malformed"))
        | some document => proceed (s.load w document.toValue) fun _ s w => .ok (s, w)

def readFilter (text : String) : Except Failure Where :=
  match Json.read? text with
  | none => .error .filterNotJson
  | some document => (Where.ofJson document).mapError fun fault => .store (.invalidArguments fault)

def readFilter? : Option String → Except Failure (Option Where)
  | none => .ok none
  | some text => (readFilter text).map some

def readSelector (text : String) (range : Option (Nat × Nat)) : Except Failure Selector :=
  match range with
  | some (start, count) => .ok (.range start count)
  | none => (Selector.read text).mapError fun fault => .store (.invalidArguments fault)

def answer (inquiry : Inquiry) (format : Format) (s : Store) (w : World) :
    Except Failure String :=
  let print (found : List Snapshot) (_ : Store) (_ : World) : Except Failure String :=
    .ok (Report.records format found)
  match inquiry with
  | .get text range =>
    match readSelector text range with
    | .error failure => .error failure
    | .ok selector => proceed (s.get w selector) print
  | .select text =>
    match readFilter text with
    | .error failure => .error failure
    | .ok filter => proceed (s.select w filter) print
  | .sort order text =>
    match SortOrder.read order with
    | .error fault => .error (.store (.invalidArguments fault))
    | .ok order =>
      match readFilter? text with
      | .error failure => .error failure
      | .ok filter => proceed (s.sort w order filter false) print
  | .unique field => .ok (Report.values format field (s.unique field))
  | .inspect => .ok (Report.inspection format s)

def filesOf (storage : Storage.Backend) (files : Storage.Files) : Storage.Files :=
  match storage with
  | .directory files _ => files
  | .memory _ => files

def openDirectory (directory : String) (files : Storage.Files) :
    Except Failure Storage.Backend × Storage.Files :=
  let (opened, files) := Storage.Backend.openDirectory files ⟨directory⟩
  (opened.mapError .storage, files)

/-- Saves the records of the record file; the directory is made before the name is looked at. -/
def Invocation.save (i : Invocation) (directory name : String) (keys : KeySupply)
    (files : Storage.Files) : Except Failure String × Storage.Files :=
  match i.opened name (localWorld keys (.memory [])) files with
  | .error failure => (.error failure, files)
  | .ok (s, w) =>
    match openDirectory directory files with
    | (.error failure, files) => (.error failure, files)
    | (.ok storage, files) =>
      let o := s.save { w with storage := storage }
      let saved := "Saved " ++ toString s.size ++ " records as " ++ Text.quoted s.name ++
        " in " ++ directory
      (proceed o fun _ _ _ => .ok (Report.lines [saved]), filesOf o.world.storage files)

def Invocation.restore (i : Invocation) (directory name : String) (format : Format)
    (keys : KeySupply) (files : Storage.Files) : Except Failure String × Storage.Files :=
  match openDirectory directory files with
  | (.error failure, files) => (.error failure, files)
  | (.ok storage, files) =>
    match Store.create (i.config name) (localWorld keys storage) with
    | (.error e, _) => (.error (.store e), files)
    | (.ok s, w) =>
      let printed := proceed (s.restore w) fun found s w =>
        if found then proceed (s.get w .all) fun found _ _ => .ok (Report.records format found)
        else .error (.noSnapshot name directory)
      (printed, files)

def Invocation.output (i : Invocation) (keys : KeySupply) (files : Storage.Files) :
    Except Failure String × Storage.Files :=
  match readFormat i.format with
  | .error failure => (.error failure, files)
  | .ok format =>
    match i.command with
    | .version => (.ok Report.version, files)
    | .save directory name => i.save directory name keys files
    | .restore directory name => i.restore directory name format keys files
    | .ask inquiry =>
      match i.opened Scan.standardName (localWorld keys (.memory [])) files with
      | .error failure => (.error failure, files)
      | .ok (s, w) => (answer inquiry format s w, files)

def errorLine (failure : Failure) : String := Report.lines ["Error: " ++ failure.outline]

/-- Carries out a command; a failure has the exit code one. -/
def Invocation.run (i : Invocation) (keys : KeySupply) (files : Storage.Files) : Ending :=
  match i.output keys files with
  | (.ok output, files) => ⟨0, output, "", files⟩
  | (.error failure, files) => ⟨1, "", errorLine failure, files⟩

/-- Runs the program with some arguments; misuse has the exit code two. -/
def run (arguments : List String) (keys : KeySupply) (files : Storage.Files) : Ending :=
  match Invocation.read arguments with
  | .ok i => i.run keys files
  | .error .help => ⟨0, Report.usage, "", files⟩
  | .error .version => ⟨0, Report.shortVersion, "", files⟩
  | .error (.misuse m) => ⟨2, "", Report.lines ["error: " ++ m.message], files⟩

def Invocation.paths (i : Invocation) : List Storage.Path :=
  let record := (i.file.map Storage.Path.mk).toList
  let blob (directory name : String) : Storage.Path :=
    (Storage.Path.mk directory).child (Storage.Backend.fileName name)
  match i.command with
  | .save directory name => record ++ [blob directory name]
  | .restore directory name => [blob directory name]
  | _ => record

def paths (arguments : List String) : List Storage.Path :=
  match Invocation.read arguments with
  | .ok i => i.paths
  | .error _ => []

end IndexedStore.Cli
