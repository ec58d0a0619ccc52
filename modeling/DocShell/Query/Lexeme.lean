import DocShell.Query.Token
import DocShell.Text.Bytes

namespace DocShell.Query

open DocShell.Text.Bytes

/-- A stretch of a line with its kind, its characters and the byte position of the first. -/
structure Lexeme where
  kind : TokenKind
  source : List Char
  start : Nat
deriving DecidableEq, Repr

namespace Lexeme

def stop (lexeme : Lexeme) : Nat := lexeme.start + byteLength lexeme.source

/-- The text that a lexeme stands for: a string without its quotes, all else as it is written. -/
def literal (lexeme : Lexeme) : String :=
  match lexeme.kind, lexeme.source with
  | .string, quote :: rest => String.ofList (rest.takeWhile (· != quote))
  | _, source => String.ofList source

def token (lexeme : Lexeme) : Token := ⟨lexeme.kind, lexeme.literal⟩

/-- A string is unterminated if its last character, the opening quote aside, is not that quote. -/
def isUnterminated (lexeme : Lexeme) : Bool :=
  lexeme.kind == .string &&
    match lexeme.source with
    | quote :: rest => rest.getLast? != some quote
    | [] => true

end Lexeme

def isSeparator (c : Char) : Bool := c == ' ' || c == '\t' || c == '\n' || c == '\r'

/-- Words begin with a letter or one of four signs, slashes among them: a path is one word. -/
def isWordStart (c : Char) : Bool := c.isAlpha || c == '_' || c == '/' || c == '-' || c == '.'

def isWordChar (c : Char) : Bool := isWordStart c || c.isDigit

/-- The characters up to the closing quote, it included, or else all. A quote has no escape. -/
def quoted (quote : Char) : List Char → List Char × List Char
  | [] => ([], [])
  | c :: cs =>
      if c = quote then ([c], cs)
      else
        let (body, rest) := quoted quote cs
        (c :: body, rest)

theorem quoted_append (quote : Char) (cs : List Char) :
    (quoted quote cs).1 ++ (quoted quote cs).2 = cs := by
  induction cs with
  | nil => rfl
  | cons c cs ih =>
      simp only [quoted]
      split <;> simp_all

/-- The rest of a number: digits, and a fraction if a point follows them. The fraction may lack
digits. -/
def number (cs : List Char) : TokenKind × List Char × List Char :=
  let digits := cs.takeWhile Char.isDigit
  match cs.dropWhile Char.isDigit with
  | '.' :: rest =>
      (.float, digits ++ '.' :: rest.takeWhile Char.isDigit, rest.dropWhile Char.isDigit)
  | rest => (.int, digits, rest)

theorem number_append (cs : List Char) : (number cs).2.1 ++ (number cs).2.2 = cs := by
  have hjoin := List.takeWhile_append_dropWhile (p := Char.isDigit) (l := cs)
  unfold number
  split
  · rename_i rest hrest
    rw [hrest] at hjoin
    simp [List.takeWhile_append_dropWhile, hjoin]
  · exact hjoin

/-- A comparison sign that begins with `c`. A lone `=` or `!` is none. -/
def comparison (c : Char) (cs : List Char) : TokenKind × List Char × List Char :=
  match c, cs with
  | '=', '=' :: rest => (.comparison .equal, ['='], rest)
  | '!', '=' :: rest => (.comparison .notEqual, ['='], rest)
  | '>', '=' :: rest => (.comparison .greaterOrEqual, ['='], rest)
  | '<', '=' :: rest => (.comparison .lessOrEqual, ['='], rest)
  | '>', rest => (.comparison .greater, [], rest)
  | '<', rest => (.comparison .less, [], rest)
  | _, rest => (.illegal, [], rest)

theorem comparison_append (c : Char) (cs : List Char) :
    (comparison c cs).2.1 ++ (comparison c cs).2.2 = cs := by
  unfold comparison
  split <;> rfl

/-- The lexeme that begins with the character `c`, not a separator: its kind, its further
characters, and what follows it. A backslash begins a command only as the first lexeme. -/
def munch (first : Bool) (c : Char) (cs : List Char) : TokenKind × List Char × List Char :=
  if first && c == '\\' then
    let tail := cs.takeWhile isWordChar
    (.ofCommand (c :: tail), tail, cs.dropWhile isWordChar)
  else if c == '"' || c == '\'' then
    let (body, rest) := quoted c cs
    (.string, body, rest)
  else if c.isDigit || c == '-' && cs.head?.any Char.isDigit then
    number cs
  else if isWordStart c then
    let tail := cs.takeWhile isWordChar
    (.ofWord (c :: tail), tail, cs.dropWhile isWordChar)
  else
    match Punctuation.ofChar? c with
    | some punctuation => (.punctuation punctuation, [], cs)
    | none => comparison c cs

theorem munch_append (first : Bool) (c : Char) (cs : List Char) :
    (munch first c cs).2.1 ++ (munch first c cs).2.2 = cs := by
  unfold munch
  split
  · exact List.takeWhile_append_dropWhile
  · split
    · exact quoted_append c cs
    · split
      · exact number_append cs
      · split
        · exact List.takeWhile_append_dropWhile
        · split
          · rfl
          · exact comparison_append c cs

theorem munch_length_le (first : Bool) (c : Char) (cs : List Char) :
    (munch first c cs).2.2.length ≤ cs.length := by
  have hlength := congrArg List.length (munch_append first c cs)
  simp only [List.length_append] at hlength
  omega

/-- A line is made of lexemes and of gaps of separators. -/
inductive Piece where
  | gap (source : List Char)
  | lexeme (lexeme : Lexeme)
deriving DecidableEq, Repr

namespace Piece

def source : Piece → List Char
  | gap cs => cs
  | lexeme l => l.source

def lexeme? : Piece → Option Lexeme
  | gap _ => none
  | lexeme l => some l

end Piece

/-- The pieces of a text that begins at a byte position of its line. `first` says that no lexeme
stands before it. -/
def pieces (first : Bool) (position : Nat) : List Char → List Piece
  | [] => []
  | c :: cs =>
      if isSeparator c then
        let tail := cs.takeWhile isSeparator
        .gap (c :: tail) ::
          pieces first (position + byteLength (c :: tail)) (cs.dropWhile isSeparator)
      else
        let found := munch first c cs
        .lexeme ⟨found.1, c :: found.2.1, position⟩ ::
          pieces false (position + byteLength (c :: found.2.1)) found.2.2
termination_by cs => cs.length
decreasing_by
  · have hle := (List.dropWhile_suffix (l := cs) isSeparator).length_le
    simp only [List.length_cons]
    omega
  · have hle := munch_length_le first c cs
    simp only [List.length_cons]
    omega

theorem flatMap_source_pieces (first : Bool) (position : Nat) (cs : List Char) :
    (pieces first position cs).flatMap Piece.source = cs := by
  fun_induction pieces first position cs with
  | case1 => rfl
  | case2 first position c cs hseparator tail ih =>
      simp only [List.flatMap_cons, ih, Piece.source, tail, List.cons_append]
      rw [List.takeWhile_append_dropWhile]
  | case3 first position c cs hseparator found ih =>
      simp only [List.flatMap_cons, ih, Piece.source, found, List.cons_append]
      rw [munch_append]

def lexemes (line : List Char) : List Lexeme := (pieces true 0 line).filterMap Piece.lexeme?

/-- The lexemes of a line, and at its end the lexeme that stands for the end. -/
def tokenize (line : List Char) : List Lexeme :=
  lexemes line ++ [⟨.endOfInput, [], byteLength line⟩]

/-- The tokens of a line; the last one is always the end. -/
def tokens (line : List Char) : List Token := (tokenize line).map Lexeme.token

end DocShell.Query
