import DocShell.Completion.Suggestion
import DocShell.Editor.History
import DocShell.Text.Blank

/-!
A hint is text that may follow the line, shown behind the cursor: the rest of the latest line that
begins the same, or else the rest of the only completion. A hinter keeps the hint that it gave
last.
-/

namespace DocShell.Editor

open DocShell.Completion
open DocShell.Text.Blank
open DocShell.Text.Bytes

namespace Hint

/-- What follows `text` in a longer line that begins with it. -/
def rest? : List Char → List Char → Option (List Char)
  | [], [] => none
  | [], more => some more
  | _ :: _, [] => none
  | c :: text, d :: more => if c = d then rest? text more else none

theorem rest?_eq_some_iff {text line rest : List Char} :
    rest? text line = some rest ↔ text ++ rest = line ∧ rest ≠ [] := by
  induction text generalizing line with
  | nil =>
      cases line with
      | nil => simp [rest?]
      | cons d line =>
          simp only [rest?, Option.some.injEq, List.nil_append]
          constructor
          · rintro rfl
            exact ⟨rfl, List.cons_ne_nil d line⟩
          · exact fun h => h.1.symm
  | cons c text ih =>
      cases line with
      | nil => simp [rest?]
      | cons d line =>
          rw [rest?, List.cons_append, List.cons.injEq]
          by_cases hchar : c = d
          · rw [if_pos hchar, ih, and_iff_right hchar]
          · rw [if_neg hchar]
            simp [hchar]

def ofHistory? (history : History) (line : List Char) : Option (List Char) := do
  rest? line (← history.latest? line).toList

/-- The rest of the only completion, if a part of it was typed in just its letters. -/
def ofCompletion? (names : String → List String) (line : List Char) : Option (List Char) :=
  let (start, offers) := complete names line (byteLength line)
  match offers, splitAt? line start with
  | [offer], some (_, typed) => if typed.isEmpty then none else rest? typed offer.text.toList
  | _, _ => none

/-- The hint at a position of a line, which is empty unless the position is the end of a line that
is not blank. -/
def ofLine (names : String → List String) (history : History) (line : List Char)
    (position : Nat) : List Char :=
  if position ≠ byteLength line ∨ isAllBlank line then []
  else ((ofHistory? history line).or (ofCompletion? names line)).getD []

def firstWord (hint : List Char) : List Char := firstPiece hint

def styled (hint : List Char) : List Char :=
  if hint.isEmpty then [] else "\x1b[3;90m".toList ++ hint ++ "\x1b[0m".toList

end Hint

/-- What a hinter is asked at one time: the line and the cursor in it, with the names and the lines
known then. -/
structure HintCall where
  names : String → List String
  history : History
  line : List Char
  position : Nat
  ansi : Bool

structure Hinter where
  current : List Char
deriving DecidableEq, Repr

namespace Hinter

def new : Hinter := ⟨[]⟩

/-- The hint as it is shown, and the hinter that keeps it as it is written. -/
def handle (hinter : Hinter) (call : HintCall) : List Char × Hinter :=
  let hinter := { hinter with current := [] }
  if call.position ≠ byteLength call.line ∨ isAllBlank call.line then ([], hinter)
  else
    let fromHistory := Hint.ofHistory? call.history call.line
    match fromHistory.or (Hint.ofCompletion? call.names call.line) with
    | none => ([], hinter)
    | some hint => (if call.ansi then Hint.styled hint else hint, { hinter with current := hint })

def after (hinter : Hinter) (calls : List HintCall) : Hinter :=
  calls.foldl (fun hinter call => (hinter.handle call).2) hinter

/-- The text that is put into the line when the whole hint is taken. -/
def completeHint (hinter : Hinter) : List Char := hinter.current

/-- The text that is put into the line when one word of the hint is taken. -/
def nextToken (hinter : Hinter) : List Char := Hint.firstWord hinter.current

end Hinter

end DocShell.Editor
