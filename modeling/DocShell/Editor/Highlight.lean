import DocShell.Query.Grammar
import DocShell.Query.Lexeme

namespace DocShell.Editor

open DocShell.Query

inductive Color where
  | red
  | green
  | yellow
  | blue
  | lightBlue
  | magenta
  | cyan
  | darkGray
deriving DecidableEq, Repr

inductive Emphasis where
  | none
  | bold
  | underline
deriving DecidableEq, Repr

structure Style where
  color : Option Color
  emphasis : Emphasis
deriving DecidableEq, Repr

namespace Style

def plain : Style := ⟨none, .none⟩

def ofLexeme (lexeme : Lexeme) : Style :=
  match lexeme.kind with
  | .keyword _ => ⟨some .blue, .bold⟩
  | .command _ => ⟨some .magenta, .bold⟩
  | .string => ⟨some .yellow, .none⟩
  | .int | .float => ⟨some .cyan, .none⟩
  | .word => if isTimestampName lexeme.literal then ⟨some .green, .none⟩ else plain
  | .punctuation _ => ⟨some .darkGray, .none⟩
  | .illegal => ⟨some .red, .underline⟩
  | .comparison _ | .endOfInput => ⟨some .lightBlue, .none⟩

def ofPiece : Piece → Style
  | .gap _ => plain
  | .lexeme l => ofLexeme l

end Style

/-- The segments of a line with their styles. A line without highlighting is one segment. -/
def highlight (enabled : Bool) (line : List Char) : List (Style × List Char) :=
  if enabled then (pieces true 0 line).map fun piece => (Style.ofPiece piece, piece.source)
  else [(.plain, line)]

theorem flatMap_highlight (enabled : Bool) (line : List Char) :
    (highlight enabled line).flatMap Prod.snd = line := by
  unfold highlight
  split
  · simp only [List.flatMap_map]
    exact flatMap_source_pieces true 0 line
  · simp

end DocShell.Editor
