import IndexedStore.Cli.Command
import IndexedStore.Store.Inspection

/-!
What the program prints: records, values and inspections, as lines of text or as one indented
document.
-/
namespace IndexedStore.Cli.Report

def lines (texts : List String) : String := String.join (texts.map (· ++ "\n"))

def recordLine (r : Snapshot) : String :=
  s!"[{r.position}] {r.key}: " ++ (Fields.toJson r.fields).compact

def records (format : Format) (found : List Snapshot) : String :=
  match format with
  | .json => lines [(Json.array (found.map fun r => Fields.toJson r.fields)).indented]
  | .text => lines (found.map recordLine ++ [s!"({found.length} records)"])

def values (format : Format) (field : String) (found : List Value) : String :=
  match format with
  | .json => lines [(Json.array (found.map Value.toJson)).indented]
  | .text => lines (found.map Value.keyText ++ [s!"({found.length} distinct values of {field})"])

def inspectionJson (i : Inspection) : Json := .object [
  ("name", .text i.name),
  ("records", .int i.records),
  ("revision", .int i.revision),
  ("indexes", .array (i.indexes.map fun (signature, buckets) =>
    .object [("signature", .text signature), ("buckets", .int buckets)])),
  ("problems", .array (i.problems.map fun p => .text p.text)),
  ("fields", .array (i.fields.map .text))]

def indexLines (indexes : List (String × Nat)) : List String :=
  if indexes.isEmpty then ["  (none)"]
  else indexes.map fun (signature, buckets) => s!"  {signature} ({buckets} buckets)"

def problemLines (problems : List Catalog.Problem) : List String :=
  if problems.isEmpty then ["Consistency: OK"]
  else s!"Consistency: {problems.length} problems" :: problems.map fun p => "  - " ++ p.text

def inspectionLines (i : Inspection) (stats : Stats) : List String :=
  ["Tabula Record Set Inspection",
    "============================",
    "",
    s!"Name:     {i.name}",
    s!"Records:  {i.records}",
    s!"Revision: {i.revision}",
    "Fields:   " ++ ", ".intercalate i.fields,
    "",
    "Indexes:"] ++
  indexLines i.indexes ++
  ["",
    "Operations:",
    s!"  Writes:    {stats.writes}",
    s!"  Reindexes: {stats.reindexes}",
    ""] ++
  problemLines i.problems

def inspection (format : Format) (s : Store) : String :=
  let i := Inspection.ofStore s
  match format with
  | .json => lines [(inspectionJson i).indented]
  | .text => lines (inspectionLines i s.stats)

def versionNumber : String := "0.3.0"

def version : String := lines ["Tabula CLI v" ++ versionNumber]

def shortVersion : String := lines ["tabula " ++ versionNumber]

def usage : String :=
  let commands := Verb.all.map fun v =>
    "  " ++ v.word ++ (v.operand?.map fun operand => s!" [{operand}]").getD "" ++ ": " ++ v.summary
  lines (["Usage: tabula [OPTIONS] <COMMAND>", "", "Commands:"] ++ commands ++
    ["", "Options:"] ++ Opt.shared.map fun o => "  --" ++ o.long)

end IndexedStore.Cli.Report
