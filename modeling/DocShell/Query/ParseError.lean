import DocShell.Query.Grammar

namespace DocShell.Query

inductive PathKind where
  | collection
  | document
  | base
deriving DecidableEq, Repr

def PathKind.name : PathKind → String
  | collection => "collection path"
  | document => "document path"
  | base => "base document path"

/-- The literals that can fail to have a value. -/
inductive LiteralKind where
  | integer
  | limit
  | filterValue
  | arrayElement
deriving DecidableEq, Repr

def LiteralKind.name : LiteralKind → String
  | integer => "integer"
  | limit => "limit"
  | filterValue => "filter value"
  | arrayElement => "array element"

/-- What a place in a line calls for. -/
inductive Expectation where
  | kind (kind : TokenKind)
  | operator
  | value
  | endOfLine
deriving DecidableEq, Repr

def Expectation.name : Expectation → String
  | kind k => k.name
  | operator => "operator"
  | value => "value"
  | endOfLine => "end of input"

inductive ParseError where
  | emptyInput
  | unexpectedToken (expected : Expectation) (found : Token)
  | invalidOperation (literal : String)
  | invalidOperator (literal : String)
  | invalidLiteral (kind : LiteralKind) (literal : String)
  | invalidTimestamp (literal : String)
  | invalidPath (kind : PathKind) (path : String)
  | invalidSwitch (command : String) (found : Token)
  | operatorMismatch (operator : Operator) (value : FilterValue)
  | clauseOrder (clause last : Clause)
  | duplicateClause (clause : Clause)
deriving DecidableEq, Repr

def ParseError.message : ParseError → String
  | emptyInput => "empty input"
  | unexpectedToken expected found => s!"expected {expected.name}, got {found.describe}"
  | invalidOperation literal => s!"invalid operation: {literal}"
  | invalidOperator literal => s!"invalid filter operator: {literal}"
  | invalidLiteral kind literal => s!"invalid {kind.name}: {literal}"
  | invalidTimestamp literal => s!"invalid timestamp: {literal}"
  | invalidPath kind path => s!"invalid {kind.name}: {path}"
  | invalidSwitch command found =>
      let text := if found.kind = .endOfInput then found.kind.name else found.literal
      s!"{command}: expected on or off, got {text}"
  | operatorMismatch operator value =>
      s!"operator {operator.name} does not accept a {value.kindName} value"
  | clauseOrder clause last => s!"{clause.offer.text} must come before {last.offer.text}"
  | duplicateClause clause => s!"duplicate {clause.offer.text} clause"

end DocShell.Query
