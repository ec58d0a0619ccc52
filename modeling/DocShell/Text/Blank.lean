import DocShell.Text.Segments

namespace DocShell.Text.Blank

open DocShell.Text.Segments

/-- The code points with the property `White_Space`, as closed ranges. -/
def blankRanges : List (Nat × Nat) :=
  [(0x9, 0xD), (0x20, 0x20), (0x85, 0x85), (0xA0, 0xA0), (0x1680, 0x1680), (0x2000, 0x200A),
    (0x2028, 0x2029), (0x202F, 0x202F), (0x205F, 0x205F), (0x3000, 0x3000)]

def isBlank (c : Char) : Bool :=
  blankRanges.any fun range => range.1 ≤ c.toNat && c.toNat ≤ range.2

def trimStart (cs : List Char) : List Char := cs.dropWhile isBlank

def trimEnd (cs : List Char) : List Char := (cs.reverse.dropWhile isBlank).reverse

def trim (cs : List Char) : List Char := trimEnd (trimStart cs)

def isAllBlank (cs : List Char) : Bool := cs.all isBlank

def endsBlank (cs : List Char) : Bool := cs.getLast?.any isBlank

/-- The first piece of a text that is cut after each blank, its blank included. -/
def firstPiece : List Char → List Char
  | [] => []
  | c :: cs => if isBlank c then [c] else c :: firstPiece cs

theorem firstPiece_append_drop (cs : List Char) :
    firstPiece cs ++ cs.drop (firstPiece cs).length = cs := by
  induction cs with
  | nil => rfl
  | cons c cs ih =>
      simp only [firstPiece]
      split
      · simp
      · simp [ih]

/-- The maximal runs of characters that are not blank, in order. -/
def words (cs : List Char) : List (List Char) :=
  (splitBy isBlank cs).filter fun word => !word.isEmpty

end DocShell.Text.Blank
