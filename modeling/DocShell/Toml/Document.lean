import DocShell.Toml.Value

namespace DocShell.Toml

/-- How a table came about: by a longer header, by the parts of a key with points, or by a header
of its own. -/
inductive Origin where
  | implied
  | dotted
  | defined
deriving DecidableEq, Repr

/-- What a key stands for: a value, which is closed; a table; or the tables of an array to which
headers add, the last first. -/
inductive Node where
  | value (value : Value)
  | table (origin : Origin) (entries : List (String × Node))
  | tables (elements : List (List (String × Node)))

abbrev Entries := List (String × Node)

namespace Entries

def insert (entries : Entries) (name : String) (node : Node) : Entries := entries ++ [(name, node)]

def replace (entries : Entries) (name : String) (node : Node) : Entries :=
  entries.map fun entry => if entry.1 = name then (name, node) else entry

/-- Change the table that a path leads to. The tables on the way that do not exist come about, by a
key with points or else by a header. Such a key does not pass through a table with a header of its
own, and nothing passes through a value. -/
def within (dotted : Bool) (change : Origin → Entries → Option Entries) (origin : Origin)
    (entries : Entries) : List String → Option Entries
  | [] => change origin entries
  | name :: path =>
      match entries.lookup name with
      | none => do
          let origin := if dotted then Origin.dotted else .implied
          let inner ← within dotted change origin [] path
          return insert entries name (.table origin inner)
      | some (.table origin inner) =>
          if dotted && origin == .defined then none
          else do
            let inner ← within dotted change origin inner path
            return replace entries name (.table origin inner)
      | some (.tables (element :: others)) => do
          let element ← within dotted change .defined element path
          return replace entries name (.tables (element :: others))
      | _ => none

/-- Give a value to a key, of which `path` are the parts but the last. A key that has a value or a
table is not defined again, and a key with points adds only to tables of such keys. -/
def assign (path : List String) (name : String) (value : Value) (origin : Origin)
    (entries : Entries) : Option Entries :=
  within true
    (fun origin entries =>
      if (origin == .dotted) == path.isEmpty then none
      else if (entries.lookup name).isSome then none
      else some (insert entries name (.value value)))
    origin entries path

end Entries

/-- All tables, and the path of the header under which keys now stand. -/
structure Document where
  root : Entries
  header : List String

namespace Document

def empty : Document := ⟨[], []⟩

/-- Begin a table. It may have come about by longer headers, but by nothing else. -/
def openTable (document : Document) (path : List String) (name : String) : Option Document := do
  let root ← Entries.within false
    (fun _ entries =>
      match entries.lookup name with
      | none => some (entries.insert name (.table .defined []))
      | some (.table .implied inner) => some (entries.replace name (.table .defined inner))
      | _ => none)
    .defined document.root path
  return ⟨root, path ++ [name]⟩

def openElement (document : Document) (path : List String) (name : String) : Option Document := do
  let root ← Entries.within false
    (fun _ entries =>
      match entries.lookup name with
      | none => some (entries.insert name (.tables [[]]))
      | some (.tables elements) => some (entries.replace name (.tables ([] :: elements)))
      | _ => none)
    .defined document.root path
  return ⟨root, path ++ [name]⟩

def assign (document : Document) (path : List String) (name : String) (value : Value) :
    Option Document := do
  let root ← Entries.within false (Entries.assign path name value) .defined document.root
    document.header
  return { document with root }

end Document

mutual

def Node.toValue : Node → Value
  | .value value => value
  | .table _ entries => .table (entriesToValues entries)
  | .tables elements => .array (elementsToValues elements).reverse

def entriesToValues : List (String × Node) → List (String × Value)
  | [] => []
  | (name, node) :: entries => (name, node.toValue) :: entriesToValues entries

def elementsToValues : List (List (String × Node)) → List Value
  | [] => []
  | element :: elements => .table (entriesToValues element) :: elementsToValues elements

end

end DocShell.Toml
