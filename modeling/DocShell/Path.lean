import DocShell.Text.Segments

namespace DocShell.Path

open DocShell.Text.Segments

/-- The path without one leading slash. -/
def normalize (path : String) : String :=
  match path.toList with
  | '/' :: rest => String.ofList rest
  | _ => path

def segments (path : String) : List String :=
  (splitOn '/' path.toList).map String.ofList

def ofSegments (names : List String) : String :=
  String.ofList (joinWith '/' (names.map String.toList))

theorem ofSegments_segments (path : String) : ofSegments (segments path) = path := by
  simp [ofSegments, segments, Function.comp_def, joinWith_splitOn]

def isDocument (path : String) : Bool := (segments path).length % 2 == 0

/-- The parts before and after the last slash. -/
def splitLast? (path : String) : Option (String × String) :=
  match (segments path).reverse with
  | last :: parent :: parents => some (ofSegments (parent :: parents).reverse, last)
  | _ => none

end DocShell.Path
