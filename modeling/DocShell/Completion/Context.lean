import DocShell.Completion.Skip

namespace DocShell.Completion

open DocShell.Query
open DocShell.Text.Bytes

/-- What can be completed: one of some words, or the path of a collection, of which a part may
have been typed. -/
inductive Context where
  | words (offers : List Offer) (typed : String)
  | collection (typed : String)
deriving DecidableEq, Repr

namespace Context

def nothing : Context := words [] ""

/-- The word that is being typed, if it is all that is left: it ends where the text ends. -/
def openWord? (cursor : Nat) : List Lexeme → Option Lexeme
  | [lexeme] => if lexeme.kind = .word ∧ lexeme.stop = cursor then some lexeme else none
  | _ => none

/-- What a clause leaves after the word that opens it: the words that may follow apart from those
of later clauses, and the lexemes behind it. If it is not finished, what may be typed there. -/
def clause (cursor : Nat) (clause : Clause) (ahead : List Lexeme) :
    Except Context (List Offer × List Lexeme) :=
  match clause with
  | .select =>
      finish (fun _ => [])
        (Skip.separated (Skip.kind .word) (Skip.kind_advances _) (.punctuation .comma) ahead)
  | .filter =>
      finish (fun _ => [andOffer])
        (Skip.separated Skip.filter Skip.filter_advances (.keyword .andWord) ahead)
  | .order =>
      match ahead, openWord? cursor ahead with
      | [], _ => .error (words [byOffer] "")
      | _, some lexeme => .error (words [byOffer] lexeme.literal)
      | _, none =>
          finish (fun directed => if directed then [] else [ascOffer, descOffer])
            ((do
              Skip.kind (.keyword .byWord)
              Skip.separated Skip.ordering Skip.ordering_advances (.punctuation .comma) :
              Skip Bool) ahead)
  | .limit => finish (fun _ => []) (Skip.kind .int ahead)
where
  finish {α : Type} (offers : α → List Offer) :
      Option (α × List Lexeme) → Except Context (List Offer × List Lexeme)
    | some (value, rest) => .ok (offers value, rest)
    | none => .error nothing

/-- What may be typed where `offers` and the clauses in `later` may follow. -/
def clauses (cursor : Nat) (offers : List Offer) (later : List Clause) (ahead : List Lexeme) :
    Context :=
  let all := offers ++ later.map Clause.offer
  match ahead, openWord? cursor ahead with
  | [], _ => words all ""
  | _, some lexeme => words all lexeme.literal
  | lexeme :: rest, none =>
      match _hfind : Clause.find? lexeme.kind later with
      | none => nothing
      | some (found, later) =>
          match clause cursor found rest with
          | .error context => context
          | .ok (offers, rest) => clauses cursor offers later rest
termination_by later.length
decreasing_by exact Clause.find?_length _hfind

def path (cursor : Nat) (request : Request) (ahead : List Lexeme) : Context :=
  match ahead, openWord? cursor ahead with
  | _, some lexeme => collection lexeme.literal
  | lexeme :: rest, none =>
      if lexeme.kind = .word then clauses cursor [] request.clauses rest else nothing
  | [], none => nothing

def ofLexemes (cursor : Nat) (lexemes : List Lexeme) : Context :=
  match lexemes, openWord? cursor lexemes with
  | _, some lexeme => words (Request.all.map Request.offer) lexeme.literal
  | lexeme :: rest, none =>
      match Request.ofKind? lexeme.kind with
      | some request => path cursor request rest
      | none => nothing
  | [], none => nothing

def ofText (text : List Char) : Context := ofLexemes (byteLength text) (lexemes text)

end Context

/-- The byte position from which a completion at the end of a text replaces it. -/
def replacedFrom (text : List Char) : Nat :=
  let cursor := byteLength text
  match (lexemes text).getLast? with
  | some lexeme => if lexeme.kind = .word ∧ lexeme.stop = cursor then lexeme.start else cursor
  | none => cursor

end DocShell.Completion
