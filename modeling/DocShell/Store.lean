import DocShell.Json.Reader
import DocShell.Path

/-!
A store is a tree of JSON objects: collections by name, in them documents by id, and in a document
the collections below it under a key of their own.
-/

namespace DocShell

open DocShell.Json

inductive StoreError where
  | loadFailed (path reason : String)
  | notJson (path : String)
  | rootKind (kind : String)
  | notFound (path : String)
deriving DecidableEq, Repr

def StoreError.message : StoreError → String
  | loadFailed path reason => s!"Store error: Failed to load data: {path}: {reason}"
  | notJson path => s!"Store error: Invalid data: {path}"
  | rootKind kind => s!"Store error: Invalid data: root must be an object, found {kind}"
  | notFound path => s!"Store error: Document not found: {path}"

structure Store where
  root : List (String × Json)
deriving Repr

namespace Store

def empty : Store := ⟨[]⟩

/-- The key under which a document has its collections. -/
def childrenKey : String := "__collections__"

def ofJson : Json → Except StoreError Store
  | object root => .ok ⟨root⟩
  | value => .error (.rootKind value.kindName)

def ofText (path text : String) : Except StoreError Store :=
  match Json.ofText? text with
  | some value => ofJson value
  | none => .error (.notJson path)

def members? : Json → Option (List (String × Json))
  | object members => some members
  | _ => none

def document? (collections : List (String × Json)) (name id : String) :
    Option (List (String × Json)) := do
  let collection ← members? (← collections.lookup name)
  members? (← collection.lookup id)

/-- The collections that a path leads to. Below a document that has none, every path leads to
none. -/
def descend? (collections : List (String × Json)) : List String → Option (List (String × Json))
  | [] => some collections
  | [_] => none
  | name :: id :: rest => do
      let document ← document? collections name id
      match document.lookup childrenKey with
      | some value => descend? (← members? value) rest
      | none => return []

def collections? (store : Store) (path : String) : Option (List (String × Json)) :=
  if path = "" then some store.root
  else if Path.isDocument path then descend? store.root (Path.segments path)
  else none

/-- The names of the collections below a document, or at the root for an empty path, in the order
of their bytes. -/
def list (store : Store) (path : String) : Except StoreError (List String) :=
  let path := Path.normalize path
  match store.collections? path with
  | some collections => .ok ((collections.map Prod.fst).mergeSort fun a b => a ≤ b)
  | none => .error (.notFound path)

end Store

end DocShell
