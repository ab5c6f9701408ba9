import IndexedStore.Text.Blank

/-!
The commands of the program and their options. An option that belongs to every command may stand
before the command or after it.
-/
namespace IndexedStore.Cli

inductive Format where
  | text
  | json
deriving DecidableEq, Repr

inductive Opt where
  | file
  | key
  | index
  | source
  | format
  | verbose
  | start
  | count
  | filter
  | name
  | help
  | version
deriving DecidableEq, Repr

namespace Opt

def long : Opt → String
  | file => "file"
  | key => "key"
  | index => "index"
  | source => "source"
  | format => "format"
  | verbose => "verbose"
  | start => "start"
  | count => "count"
  | filter => "where"
  | name => "name"
  | help => "help"
  | version => "version"

def letter? : Opt → Option Char
  | file => some 'f'
  | key => some 'k'
  | index => some 'i'
  | verbose => some 'v'
  | filter => some 'w'
  | name => some 'n'
  | help => some 'h'
  | version => some 'V'
  | _ => none

def takesValue : Opt → Bool
  | verbose => false
  | help => false
  | version => false
  | _ => true

def repeats (o : Opt) : Bool := o == index

def accepts (o : Opt) (value : String) : Bool :=
  match o with
  | file => !value.isEmpty
  | start => (Text.natural? value.toList).isSome
  | count => (Text.natural? value.toList).isSome
  | _ => true

def shared : List Opt := [file, key, index, source, format, verbose, help]

end Opt

inductive Verb where
  | get
  | select
  | sort
  | unique
  | inspect
  | save
  | restore
  | version
  | help
deriving DecidableEq, Repr

namespace Verb

def all : List Verb := [get, select, sort, unique, inspect, save, restore, version, help]

def word : Verb → String
  | get => "get"
  | select => "select"
  | sort => "sort"
  | unique => "unique"
  | inspect => "inspect"
  | save => "save"
  | restore => "restore"
  | version => "version"
  | help => "help"

def ofWord? (word : String) : Option Verb := all.find? (·.word == word)

def options : Verb → List Opt
  | get => [.start, .count] ++ Opt.shared
  | select => .filter :: Opt.shared
  | sort => .filter :: Opt.shared
  | save => .name :: Opt.shared
  | restore => .name :: Opt.shared
  | help => []
  | _ => Opt.shared

def operand? : Verb → Option String
  | get => some "SELECTOR"
  | sort => some "ORDER"
  | unique => some "FIELD"
  | save => some "DIR"
  | restore => some "DIR"
  | help => some "COMMAND"
  | _ => none

def accepts (v : Verb) (word : String) : Bool :=
  match v with
  | save => !word.isEmpty
  | restore => !word.isEmpty
  | help => (ofWord? word).isSome
  | v => v.operand?.isSome

def summary : Verb → String
  | get => "Print records by key, position or range"
  | select => "Print records matching a where clause"
  | sort => "Print records in sorted order"
  | unique => "Print the distinct values of a field"
  | inspect => "Display record counts, indexes and consistency"
  | save => "Save the record set as a snapshot in a directory"
  | restore => "Print the records of a saved snapshot"
  | version => "Show version information"
  | help => "Print this message"

end Verb

/-- What is asked of a record file. A range is a start and a count. -/
inductive Inquiry where
  | get (selector : String) (range : Option (Nat × Nat))
  | select (filter : String)
  | sort (order : String) (filter : Option String)
  | unique (field : String)
  | inspect

inductive Command where
  | ask (inquiry : Inquiry)
  | save (directory name : String)
  | restore (directory name : String)
  | version

structure Invocation where
  file : Option String
  key : Option String
  indexes : List String
  source : Option String
  format : String
  command : Command

end IndexedStore.Cli
