import DocShell.Completion.Suggestion
import DocShell.Text.Blank

namespace DocShell.Completion

open DocShell.Query
open DocShell.Text.Blank
open DocShell.Text.Bytes

/-- What is written between two positions of the line when the entry is chosen. A space follows
it. -/
structure MenuEntry where
  value : String
  description : String
  start : Nat
  stop : Nat
deriving DecidableEq, Repr

/-- The menu at a position of a line. A value gets a space in front if no word has been begun and
the cursor touches what is before it. -/
def menu (names : String → List String) (line : List Char) (position : Nat) : List MenuEntry :=
  let text := upTo line position
  let (start, offers) := complete names line position
  let touches := start == position && text.getLast?.any fun c => !isBlank c
  offers.map fun offer =>
    ⟨if touches then " " ++ offer.text else offer.text, offer.description, start, position⟩

end DocShell.Completion
