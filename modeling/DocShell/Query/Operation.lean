import DocShell.Number.Binary64
import DocShell.Query.Token
import DocShell.Time.Timestamp

namespace DocShell.Query

open DocShell.Number
open DocShell.Time

inductive Operator where
  | compare (comparison : Comparison)
  | memberOf
  | arrayContains
  | arrayContainsAny
deriving DecidableEq, Repr

namespace Operator

/-- The spelling that document stores use. -/
def name : Operator → String
  | compare c => c.name
  | memberOf => "in"
  | arrayContains => "array-contains"
  | arrayContainsAny => "array-contains-any"

def takesArray : Operator → Bool
  | memberOf => true
  | arrayContainsAny => true
  | _ => false

end Operator

inductive Scalar where
  | int (value : Int)
  | float (value : Binary64)
  | string (value : String)
deriving DecidableEq, Repr

inductive FilterValue where
  | scalar (value : Scalar)
  | array (items : List Scalar)
  | timestamp (value : Timestamp)
deriving DecidableEq, Repr

namespace FilterValue

def isArray : FilterValue → Bool
  | array _ => true
  | _ => false

def kindName : FilterValue → String
  | scalar (.int _) => "int"
  | scalar (.float _) => "float"
  | scalar (.string _) => "string"
  | array _ => "array"
  | timestamp _ => "timestamp"

end FilterValue

structure Filter where
  field : String
  operator : Operator
  value : FilterValue
deriving DecidableEq, Repr

inductive Direction where
  | ascending
  | descending
deriving DecidableEq, Repr

structure Ordering where
  field : String
  direction : Direction
deriving DecidableEq, Repr

/-- Documents of a collection. The filters hold together; a limit of 0 is no limit. -/
structure Selection where
  collection : String
  fields : List String
  filters : List Filter
  orderings : List Ordering
  limit : Nat
deriving DecidableEq, Repr

inductive Operation where
  | query (selection : Selection)
  | get (collection document : String)
  | count (collection : String) (filters : List Filter)
  | listCollections (document : String)
  | pager (enabled : Bool)
deriving DecidableEq, Repr

def Operation.name : Operation → String
  | query _ => "query"
  | get _ _ => "get"
  | count _ _ => "count"
  | listCollections _ => "list_collections"
  | pager _ => "pager"

end DocShell.Query
