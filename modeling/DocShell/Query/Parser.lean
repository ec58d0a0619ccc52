import DocShell.Path
import DocShell.Query.Lexeme
import DocShell.Query.Rule
import DocShell.Time.Reader

/-!
The operation that a line denotes. Every rule reads tokens from left to right and the first
failure ends the reading; there is no recovery.
-/

namespace DocShell.Query

open DocShell.Number
open DocShell.Text.Ascii
open DocShell.Time

inductive ClauseBody where
  | select (fields : List String)
  | filter (filters : List Filter)
  | order (orderings : List Ordering)
  | limit (limit : Nat)
deriving DecidableEq, Repr

/-- The query that clauses make of a collection. What no clause says is empty. -/
def Selection.ofClauses (collection : String) : List ClauseBody → Selection
  | [] => ⟨collection, [], [], [], 0⟩
  | .select fields :: bodies => { ofClauses collection bodies with fields }
  | .filter filters :: bodies => { ofClauses collection bodies with filters }
  | .order orderings :: bodies => { ofClauses collection bodies with orderings }
  | .limit limit :: bodies => { ofClauses collection bodies with limit }

namespace Rule

/-- A number or a string. The token is read even if it has no such value. -/
def scalar (kind : LiteralKind) : Rule Scalar
  | [] => .error (.invalidLiteral kind "") []
  | token :: rest =>
      match token.kind with
      | .int =>
          match Decimal.toInt64? token.literal.toList with
          | some value => .ok (.int value) rest
          | none => .error (.invalidLiteral .integer token.literal) rest
      | .float => .ok (.float (.ofLiteral token.literal.toList)) rest
      | .string => .ok (.string token.literal) rest
      | _ => .error (.invalidLiteral kind token.literal) rest

theorem scalar_advances (kind : LiteralKind) : Advances (scalar kind) := by
  intro ahead value rest h
  cases ahead with
  | nil => simp [scalar] at h
  | cons token tokens =>
      simp only [scalar] at h
      split at h
      · split at h <;> simp_all
      · simp_all
      · simp_all
      · simp at h

def array : Rule (List Scalar) := do
  if (← optional (.punctuation .closeBracket)).isSome then return []
  let items ←
    separated (scalar .arrayElement) (scalar_advances .arrayElement) (.punctuation .comma)
  let _ ← expect (.punctuation .closeBracket)
  return items

theorem array_keeps : Keeps array := by
  refine keeps_bind (optional_keeps _) fun closed => ?_
  split
  · exact keeps_pure _
  · exact keeps_bind (separated_advances _ _ _).keeps fun items =>
      keeps_bind (expect_advances _).keeps fun _ => keeps_pure _

def timestamp : Rule Timestamp := do
  let _ ← expect (.punctuation .openParen)
  let raw ← expect .string
  let _ ← expect (.punctuation .closeParen)
  match Timestamp.ofText? raw with
  | some value => return value
  | none => throw (.invalidTimestamp raw)

theorem timestamp_keeps : Keeps timestamp := by
  refine keeps_bind (expect_advances _).keeps fun _ =>
    keeps_bind (expect_advances _).keeps fun raw =>
      keeps_bind (expect_advances _).keeps fun _ => ?_
  split
  · exact keeps_pure _
  · exact keeps_throw _

def value : Rule FilterValue
  | [] => .error (.unexpectedToken .value .atEnd) []
  | token :: rest =>
      match token.kind with
      | .int | .float | .string => (FilterValue.scalar <$> scalar .filterValue) (token :: rest)
      | .punctuation .openBracket => (FilterValue.array <$> array) rest
      | .word =>
          if isTimestampName token.literal then (FilterValue.timestamp <$> timestamp) rest
          else .error (.invalidLiteral .filterValue token.literal) rest
      | .endOfInput => .error (.unexpectedToken .value token) rest
      | _ => .error (.invalidLiteral .filterValue token.literal) rest

theorem map_eq_ok {α β : Type} {f : α → β} {rule : Rule α} {ahead rest : List Token} {value : β}
    (h : (f <$> rule) ahead = .ok value rest) :
    ∃ first, rule ahead = .ok first rest ∧ f first = value := by
  simp only [Functor.map, EStateM.map] at h
  split at h
  · rename_i first middle hrule
    simp only [EStateM.Result.ok.injEq] at h
    exact ⟨first, h.2 ▸ hrule, h.1⟩
  · simp at h

theorem value_keeps : Keeps value := by
  intro ahead found rest h
  cases ahead with
  | nil => simp [value] at h
  | cons token tokens =>
      simp only [value] at h
      split at h
      · obtain ⟨first, hfirst, -⟩ := map_eq_ok h
        exact (scalar_advances _).keeps _ _ _ hfirst
      · obtain ⟨first, hfirst, -⟩ := map_eq_ok h
        exact (scalar_advances _).keeps _ _ _ hfirst
      · obtain ⟨first, hfirst, -⟩ := map_eq_ok h
        exact (scalar_advances _).keeps _ _ _ hfirst
      · obtain ⟨first, hfirst, -⟩ := map_eq_ok h
        have hle := array_keeps _ _ _ hfirst
        simp only [List.length_cons]
        omega
      · split at h
        · obtain ⟨first, hfirst, -⟩ := map_eq_ok h
          have hle := timestamp_keeps _ _ _ hfirst
          simp only [List.length_cons]
          omega
        · simp at h
      · simp at h
      · simp at h

/-- The operator of a filter. The token is read even if it is none. -/
def operator : Rule Operator
  | [] => .error (.unexpectedToken .operator .atEnd) []
  | token :: rest =>
      match Operator.ofKind? token.kind with
      | some operator => .ok operator rest
      | none =>
          if token.kind = .endOfInput then .error (.unexpectedToken .operator token) rest
          else .error (.invalidOperator token.literal) rest

theorem operator_keeps : Keeps operator := by
  intro ahead found rest h
  cases ahead with
  | nil => simp [operator] at h
  | cons token tokens =>
      simp only [operator] at h
      split at h
      · simp only [EStateM.Result.ok.injEq] at h
        simp [← h.2]
      · split at h <;> simp at h

def filter : Rule Filter := do
  let field ← expect .word
  let operator ← operator
  let value ← value
  if operator.takesArray = value.isArray then return ⟨field, operator, value⟩
  else throw (.operatorMismatch operator value)

theorem filter_advances : Advances filter := by
  refine advances_bind (expect_advances _) fun field =>
    keeps_bind operator_keeps fun operator => keeps_bind value_keeps fun value => ?_
  split
  · exact keeps_pure _
  · exact keeps_throw _

/-- A field with its direction, which is ascending if none is given. -/
def ordering : Rule Ordering := do
  let field ← expect .word
  if (← optional (.keyword .desc)).isSome then return ⟨field, .descending⟩
  let _ ← optional (.keyword .asc)
  return ⟨field, .ascending⟩

theorem ordering_advances : Advances ordering := by
  refine advances_bind (expect_advances _) fun field =>
    keeps_bind (optional_keeps _) fun descending => ?_
  split
  · exact keeps_pure _
  · exact keeps_bind (optional_keeps _) fun _ => keeps_pure _

def limit : Rule Nat := do
  let literal ← expect .int
  match Decimal.toNat64? literal.toList with
  | some limit => return limit
  | none => throw (.invalidLiteral .limit literal)

def body : Clause → Rule ClauseBody
  | .select => .select <$> separated (expect .word) (expect_advances _) (.punctuation .comma)
  | .filter => .filter <$> separated filter filter_advances (.keyword .andWord)
  | .order => do
      let _ ← expect (.keyword .byWord)
      .order <$> separated ordering ordering_advances (.punctuation .comma)
  | .limit => .limit <$> limit

/-- Why a token cannot follow the clause `last`. -/
def misplaced (table : List Clause) (last : Option Clause) (token : Token) : ParseError :=
  match Clause.find? token.kind table, last with
  | some (clause, _), some last =>
      if clause = last then .duplicateClause clause else .clauseOrder clause last
  | _, _ => .unexpectedToken .endOfLine token

/-- What the clauses up to the end of the line say. Those in `later` may still come, and `last` is
the one that was read last. -/
def clauses (table : List Clause) (last : Option Clause) (later : List Clause) :
    Rule (List ClauseBody)
  | [] => .ok [] []
  | token :: rest =>
      if token.kind = .endOfInput then .ok [] (token :: rest)
      else
        match _hfind : Clause.find? token.kind later with
        | some (clause, later) =>
            (do
              let first ← body clause
              let others ← clauses table (some clause) later
              return first :: others : Rule (List ClauseBody)) rest
        | none => .error (misplaced table last token) (token :: rest)
termination_by later.length
decreasing_by exact Clause.find?_length _hfind

def collection : Rule String := do
  let raw ← expect .word
  let path := Path.normalize raw
  if path = "" then throw (.invalidPath .collection raw) else return path

def query : Rule Operation := do
  let path ← collection
  let bodies ← clauses Request.query.clauses none Request.query.clauses
  return .query (Selection.ofClauses path bodies)

def count : Rule Operation := do
  let path ← collection
  let bodies ← clauses Request.count.clauses none Request.count.clauses
  return .count path (Selection.ofClauses path bodies).filters

def get : Rule Operation := do
  let raw ← expect .word
  match Path.splitLast? (Path.normalize raw) with
  | none => throw (.invalidPath .document raw)
  | some (collection, document) =>
      if collection = "" ∨ document = "" ∨ Path.isDocument collection then
        throw (.invalidPath .document raw)
      expectEnd
      return .get collection document

/-- The document whose collections are listed, or nothing for the root. -/
def base : Rule String := do
  match ← optional .word with
  | none => return ""
  | some raw =>
      let path := Path.normalize raw
      if path = "" ∨ Path.isDocument path then return path
      else throw (.invalidPath .base raw)

def listCollections : Rule Operation := do
  let path ← base
  expectEnd
  return .listCollections path

/-- The word after a command that turns something on or off. The token is read even if it is
neither. -/
def switch (command : String) : Rule Bool
  | [] => .error (.invalidSwitch command .atEnd) []
  | token :: rest =>
      if token.kind = .word ∧ sameLetters token.literal.toList "on".toList then .ok true rest
      else if token.kind = .word ∧ sameLetters token.literal.toList "off".toList then
        .ok false rest
      else .error (.invalidSwitch command token) rest

def pager (command : String) : Rule Operation := do
  let enabled ← switch command
  expectEnd
  return .pager enabled

def operation (token : Token) : Rule Operation :=
  match token.kind with
  | .endOfInput => throw .emptyInput
  | .command .listCollections => listCollections
  | .command .pager => pager token.literal
  | kind =>
      match Request.ofKind? kind with
      | some .query => query
      | some .get => get
      | some .count => count
      | none => throw (.invalidOperation token.literal)

end Rule

/-- A parser keeps its place and its messages from one reading to the next. -/
structure Parser where
  tokens : List Token
  cursor : Nat
  errors : List String
deriving DecidableEq, Repr

namespace Parser

def ofLine (line : String) : Parser := ⟨Query.tokens line.toList, 0, []⟩

/-- Read an operation from the token under the cursor on. The cursor comes to stand on the last
token that was read, and a failure adds its message to the earlier ones. -/
def next (parser : Parser) : Except ParseError Operation × Parser :=
  let (current, ahead) :=
    match parser.tokens.drop parser.cursor with
    | [] => (Token.atEnd, [])
    | token :: rest => (token, rest)
  let cursor (rest : List Token) := parser.tokens.length - 1 - rest.length
  match Rule.operation current ahead with
  | .ok operation rest => (.ok operation, { parser with cursor := cursor rest })
  | .error cause rest =>
      (.error cause,
        { parser with cursor := cursor rest, errors := parser.errors ++ [cause.message] })

/-- The results of a number of readings, each with the messages up to then. -/
def runs (parser : Parser) : Nat → List (Except ParseError Operation × List String)
  | 0 => []
  | count + 1 =>
      let (result, parser) := parser.next
      (result, parser.errors) :: runs parser count

end Parser

def parse (line : String) : Except ParseError Operation := (Parser.ofLine line).next.1

end DocShell.Query
