namespace DocShell.Editor

structure History where
  capacity : Nat
  lines : List String
deriving DecidableEq, Repr

namespace History

def empty (capacity : Nat) : History := ⟨capacity, []⟩

/-- Add a line, unless it is empty or the latest one again. The oldest lines give way. -/
def save (history : History) (line : String) : History :=
  if line = "" ∨ history.lines.head? = some line then history
  else { history with lines := (line :: history.lines).take history.capacity }

def ofLines (capacity : Nat) (lines : List String) : History := lines.foldl save (empty capacity)

def latest? (history : History) (text : List Char) : Option String :=
  history.lines.find? fun line => text.isPrefixOf line.toList

end History

end DocShell.Editor
