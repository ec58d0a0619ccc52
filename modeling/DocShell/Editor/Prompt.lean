namespace DocShell.Editor.Prompt

def left (project : String) : String := project ++ "> "

def right : String := ""

def indicator : String := ""

/-- In front of the further lines of an input that is still open. -/
def continuation : String := "... "

def search (failing : Bool) (term : String) : String :=
  let status := if failing then "failing " else ""
  s!"({status}reverse-search: {term}) "

end DocShell.Editor.Prompt
