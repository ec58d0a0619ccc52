import DocShell.Completion.Context
import DocShell.Completion.Names
import DocShell.Path

namespace DocShell.Completion

open DocShell.Query
open DocShell.Text.Ascii
open DocShell.Text.Bytes

/-- A partial path to a collection: the document that the collection is in, and the part of its
name that was typed. A path that ends in a document id is none. -/
def splitPartial? (typed : String) : Option (String × String) :=
  let path := Path.normalize typed
  match (Path.segments path).reverse with
  | last :: parents =>
      if Path.isDocument path then none else some (Path.ofSegments parents.reverse, last)
  | [] => none

namespace Context

/-- The document whose collections are to be known before there are suggestions. -/
def base? : Context → Option String
  | words _ _ => none
  | collection typed => (splitPartial? typed).map Prod.fst

/-- The suggestions, where `names` are the collections of the document of `base?`. -/
def suggestions (names : List String) : Context → List Offer
  | words offers typed => offers.filter fun offer => startsWith offer.text.toList typed.toList
  | collection typed =>
      match splitPartial? typed with
      | none => []
      | some (base, last) =>
          (Names.matching last names).map fun name =>
            ⟨if base = "" then name else base ++ "/" ++ name, name⟩

/-- The suggestions with the leading slash that was typed, if one was. -/
def replacements (names : List String) (context : Context) : List Offer :=
  let offers := context.suggestions names
  match context with
  | collection typed =>
      if typed.toList.head? = some '/' then
        offers.map fun offer => { offer with text := "/" ++ offer.text }
      else offers
  | words _ _ => offers

end Context

def suggest (names : String → List String) (text : List Char) : List Offer :=
  let context := Context.ofText text
  context.suggestions ((context.base?.map names).getD [])

/-- The suggestions at a position of a line, and the position from which they replace its text. -/
def complete (names : String → List String) (line : List Char) (position : Nat) :
    Nat × List Offer :=
  let text := upTo line position
  let context := Context.ofText text
  (replacedFrom text, context.replacements ((context.base?.map names).getD []))

end DocShell.Completion
