import DocShell.Number.Binary64

namespace DocShell

open DocShell.Number

inductive Json where
  | null
  | bool (value : Bool)
  | int (value : Int)
  | float (value : Binary64)
  | string (value : String)
  | array (items : List Json)
  | object (members : List (String × Json))
deriving Repr

namespace Json

/-- Add a member in the order of the names, or replace the one that has the name. -/
def insertMember (name : String) (value : Json) : List (String × Json) → List (String × Json)
  | [] => [(name, value)]
  | (other, old) :: members =>
      if name < other then (name, value) :: (other, old) :: members
      else if name = other then (name, value) :: members
      else (other, old) :: insertMember name value members

/-- The object with these members, in the order of their names. Of two members with one name the
last is kept. -/
def ofMembers (members : List (String × Json)) : Json :=
  object (members.foldl (fun sorted member => insertMember member.1 member.2 sorted) [])

def member? (name : String) : Json → Option Json
  | object members => members.lookup name
  | _ => none

def kindName : Json → String
  | null => "null"
  | bool _ => "boolean"
  | int _ => "number"
  | float _ => "number"
  | string _ => "string"
  | array _ => "array"
  | object _ => "object"

end Json

end DocShell
