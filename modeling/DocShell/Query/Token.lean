namespace DocShell.Query

inductive Keyword where
  | query
  | get
  | count
  | select
  | whereWord
  | andWord
  | orderWord
  | byWord
  | asc
  | desc
  | limit
  | inWord
  | arrayContains
  | arrayContainsAny
deriving DecidableEq, Repr

inductive Comparison where
  | equal
  | notEqual
  | greater
  | greaterOrEqual
  | less
  | lessOrEqual
deriving DecidableEq, Repr

inductive Punctuation where
  | openBracket
  | closeBracket
  | comma
  | openParen
  | closeParen
deriving DecidableEq, Repr

/-- The commands to the shell itself, which begin with a backslash. -/
inductive Command where
  | listCollections
  | pager
deriving DecidableEq, Repr

inductive TokenKind where
  | endOfInput
  | illegal
  | word
  | string
  | int
  | float
  | keyword (keyword : Keyword)
  | comparison (comparison : Comparison)
  | punctuation (punctuation : Punctuation)
  | command (command : Command)
deriving DecidableEq, Repr

structure Token where
  kind : TokenKind
  literal : String
deriving DecidableEq, Repr

namespace Keyword

def all : List Keyword :=
  [query, get, count, select, whereWord, andWord, orderWord, byWord, asc, desc, limit, inWord,
    arrayContains, arrayContainsAny]

def name : Keyword → String
  | query => "QUERY"
  | get => "GET"
  | count => "COUNT"
  | select => "SELECT"
  | whereWord => "WHERE"
  | andWord => "AND"
  | orderWord => "ORDER"
  | byWord => "BY"
  | asc => "ASC"
  | desc => "DESC"
  | limit => "LIMIT"
  | inWord => "IN"
  | arrayContains => "ARRAY_CONTAINS"
  | arrayContainsAny => "ARRAY_CONTAINS_ANY"

/-- The keyword that a word spells, in any case. -/
def ofWord? (word : List Char) : Option Keyword :=
  all.find? fun keyword => keyword.name.toList == word.map Char.toUpper

theorem ofWord?_name (keyword : Keyword) : ofWord? keyword.name.toList = some keyword := by
  cases keyword <;> decide

end Keyword

def Comparison.name : Comparison → String
  | equal => "=="
  | notEqual => "!="
  | greater => ">"
  | greaterOrEqual => ">="
  | less => "<"
  | lessOrEqual => "<="

namespace Punctuation

def char : Punctuation → Char
  | openBracket => '['
  | closeBracket => ']'
  | comma => ','
  | openParen => '('
  | closeParen => ')'

def ofChar? : Char → Option Punctuation
  | '[' => some openBracket
  | ']' => some closeBracket
  | ',' => some comma
  | '(' => some openParen
  | ')' => some closeParen
  | _ => none

end Punctuation

namespace Command

def name : Command → String
  | listCollections => "\\d"
  | pager => "\\pager"

/-- The command that a word with its backslash spells, in exactly this case. -/
def ofWord? (word : List Char) : Option Command :=
  [listCollections, pager].find? fun command => command.name.toList == word

end Command

namespace TokenKind

/-- The name under which a kind appears in messages. -/
def name : TokenKind → String
  | endOfInput => "EOF"
  | illegal => "ILLEGAL"
  | word => "IDENT"
  | string => "STRING"
  | int => "INT"
  | float => "FLOAT"
  | keyword k => k.name
  | comparison c => c.name
  | punctuation p => String.singleton p.char
  | command c => c.name

def isKeyword : TokenKind → Bool
  | keyword _ => true
  | _ => false

def ofWord (word : List Char) : TokenKind :=
  match Keyword.ofWord? word with
  | some k => keyword k
  | none => TokenKind.word

def ofCommand (word : List Char) : TokenKind :=
  match Command.ofWord? word with
  | some c => command c
  | none => illegal

end TokenKind

namespace Token

def atEnd : Token := ⟨.endOfInput, ""⟩

/-- How messages show a token: its kind, and its text where the kind does not tell it. -/
def describe (token : Token) : String :=
  match token.kind with
  | .word | .string | .int | .float | .illegal => s!"{token.kind.name} \"{token.literal}\""
  | kind => kind.name

end Token

end DocShell.Query
