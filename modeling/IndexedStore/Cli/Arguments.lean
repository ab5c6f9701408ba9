import IndexedStore.Cli.Command

/-!
Argument lists. Options come in a long form, with a value after an equals sign or in the next
argument, and in a short form, where letters may stand together and a value may follow at once.
After a lone pair of hyphens everything is a word, and so it is after the command for help.
-/
namespace IndexedStore.Cli

inductive Misuse where
  | unknownOption (text : String)
  | unexpectedWord (word : String)
  | unknownCommand (word : String)
  | missingValue (o : Opt)
  | refusedValue (o : Opt) (value : String)
  | unneededValue (o : Opt)
  | repeated (o : Opt)
  | missingCommand
  | missingOperand (v : Verb)
  | missingOption (o : Opt)
deriving DecidableEq, Repr

def Misuse.message : Misuse → String
  | unknownOption text => s!"unexpected argument '{text}' found"
  | unexpectedWord word => s!"unexpected argument '{word}' found"
  | unknownCommand word => s!"unrecognized subcommand '{word}'"
  | missingValue o => "a value is required for '--" ++ o.long ++ "' but none was supplied"
  | refusedValue o value => s!"invalid value '{value}' for '--" ++ o.long ++ "'"
  | unneededValue o => "unexpected value for '--" ++ o.long ++ "' found; no more were expected"
  | repeated o => "the argument '--" ++ o.long ++ "' cannot be used multiple times"
  | missingCommand => "a subcommand is required but one was not provided"
  | missingOperand v => "the required argument of '" ++ v.word ++ "' was not provided"
  | missingOption o => "the required argument '--" ++ o.long ++ "' was not provided"

inductive Stop where
  | help
  | version
  | misuse (m : Misuse)
deriving DecidableEq, Repr

structure Scan where
  verb : Option Verb
  /-- The option whose value comes next. -/
  pending : Option Opt
  onlyWords : Bool
  /-- The last option before the command, if its value came in an argument of its own. The value
  is looked at with the next option there or at the end, so help comes first. -/
  unsettled : Option (Opt × String)
  /-- The options before the command. -/
  outer : List (Opt × String)
  /-- The options after the command. -/
  inner : List (Opt × String)
  operand : Option String

namespace Scan

def start : Scan := ⟨none, none, false, none, [], [], none⟩

def known (s : Scan) : List Opt :=
  match s.verb with
  | none => .version :: Opt.shared
  | some verb => verb.options

def extend (given : List (Opt × String)) (o : Opt) (value : String) :
    Except Stop (List (Opt × String)) :=
  if !o.accepts value then .error (.misuse (.refusedValue o value))
  else if !o.repeats && given.any (·.1 == o) then .error (.misuse (.repeated o))
  else .ok (given ++ [(o, value)])

/-- Looks at the value that has not been looked at. -/
def settle (s : Scan) : Except Stop Scan :=
  match s.unsettled with
  | none => .ok s
  | some (o, value) =>
    (extend s.outer o value).map fun outer => { s with unsettled := none, outer := outer }

/-- Takes an option with its value; one without a value has an empty one. -/
def give (s : Scan) (o : Opt) (value : String) : Except Stop Scan :=
  match o, s.verb with
  | .help, _ => .error .help
  | .version, _ => .error .version
  | o, none => (extend s.outer o value).map fun outer => { s with outer := outer }
  | o, some _ => (extend s.inner o value).map fun inner => { s with inner := inner }

def giveValue (s : Scan) (o : Opt) (value : String) : Except Stop Scan :=
  let s := { s with pending := none }
  if s.verb.isNone then .ok { s with unsettled := some (o, value) } else s.give o value

def giveLong (s : Scan) (text : String) : Except Stop Scan :=
  let cs := text.toList
  let name := String.ofList (cs.takeWhile (· != '='))
  match s.known.find? (·.long == name), cs.dropWhile (· != '=') with
  | none, _ => .error (.misuse (.unknownOption ("--" ++ text)))
  | some o, [] => if o.takesValue then .ok { s with pending := some o } else s.give o ""
  | some o, _ :: value =>
    if o.takesValue then s.give o (String.ofList value) else .error (.misuse (.unneededValue o))

def giveShort (s : Scan) : List Char → Except Stop Scan
  | [] => .ok s
  | c :: cs =>
    match s.known.find? (·.letter? == some c) with
    | none => .error (.misuse (.unknownOption (String.ofList ['-', c])))
    | some o =>
      if o.takesValue then
        match cs with
        | [] => .ok { s with pending := some o }
        | '=' :: value => s.give o (String.ofList value)
        | value => s.give o (String.ofList value)
      else
        match s.give o "" with
        | .ok s => giveShort s cs
        | .error stop => .error stop

def giveWord (s : Scan) (word : String) : Except Stop Scan :=
  match s.verb with
  | none =>
    match Verb.ofWord? word with
    | some verb =>
      if s.onlyWords then .error (.misuse (.unexpectedWord word))
      else .ok { s with verb := some verb }
    | none => .error (.misuse (.unknownCommand word))
  | some verb =>
    if s.operand.isNone && verb.accepts word then .ok { s with operand := some word }
    else .error (.misuse (.unexpectedWord word))

def giveOption (s : Scan) (text : List Char) : Except Stop Scan :=
  match text with
  | '-' :: long => s.giveLong (String.ofList long)
  | short => s.giveShort short

def step (s : Scan) (argument : String) : Except Stop Scan :=
  if s.onlyWords || s.verb == some .help then s.giveWord argument
  else
    match s.pending, argument.toList with
    | some o, '-' :: _ :: _ => .error (.misuse (.missingValue o))
    | some o, _ => s.giveValue o argument
    | none, ['-', '-'] => .ok { s with onlyWords := true }
    | none, '-' :: c :: text =>
      if s.verb.isSome then s.giveOption (c :: text)
      else
        match s.settle with
        | .ok s => s.giveOption (c :: text)
        | .error stop => .error stop
    | none, _ => s.giveWord argument

/-- The values of an option; those after the command count before those in front of it. -/
def values (s : Scan) (o : Opt) : List String :=
  let on (given : List (Opt × String)) : List String := (given.filter (·.1 == o)).map (·.2)
  if (on s.inner).isEmpty then on s.outer else on s.inner

def value? (s : Scan) (o : Opt) : Option String := (s.values o).head?

def number? (s : Scan) (o : Opt) : Option Nat :=
  (s.value? o).bind fun text => Text.natural? text.toList

def standardCount : Nat := 10

def standardName : String := "records"

def neededOperand (s : Scan) (verb : Verb) : Except Stop String :=
  match s.operand with
  | some word => .ok word
  | none => .error (.misuse (.missingOperand verb))

def command (s : Scan) : Except Stop Command :=
  let name := (s.value? .name).getD standardName
  match s.verb with
  | none => .error (.misuse .missingCommand)
  | some .help => .error .help
  | some .version => .ok .version
  | some .inspect => .ok (.ask .inspect)
  | some .get =>
    let count := (s.number? .count).getD standardCount
    let range := (s.number? .start).map fun start => (start, count)
    .ok (.ask (.get (s.operand.getD "all") range))
  | some .select =>
    match s.value? .filter with
    | some filter => .ok (.ask (.select filter))
    | none => .error (.misuse (.missingOption .filter))
  | some .sort => (s.neededOperand .sort).map fun order => .ask (.sort order (s.value? .filter))
  | some .unique => (s.neededOperand .unique).map fun field => .ask (.unique field)
  | some .save => (s.neededOperand .save).map fun directory => .save directory name
  | some .restore => (s.neededOperand .restore).map fun directory => .restore directory name

def finish (s : Scan) : Except Stop Invocation :=
  match s.pending, s.verb with
  | some o, _ => .error (.misuse (.missingValue o))
  | none, some .help => .error .help
  | none, _ =>
    match s.settle with
    | .error stop => .error stop
    | .ok s => s.command.map fun command =>
      { file := s.value? .file
        key := s.value? .key
        indexes := s.values .index
        source := s.value? .source
        format := (s.value? .format).getD "text"
        command := command }

end Scan

def Invocation.read (arguments : List String) : Except Stop Invocation :=
  match arguments.foldlM Scan.step Scan.start with
  | .ok s => s.finish
  | .error stop => .error stop

end IndexedStore.Cli
