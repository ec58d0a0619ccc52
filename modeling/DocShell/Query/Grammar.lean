import DocShell.Query.Operation
import DocShell.Text.Ascii

namespace DocShell.Query

open DocShell.Text.Ascii

/-- A word as it is offered to the user, with a reminder of how it is used. -/
structure Offer where
  text : String
  description : String
deriving DecidableEq, Repr

inductive Request where
  | get
  | query
  | count
deriving DecidableEq, Repr

inductive Clause where
  | select
  | filter
  | order
  | limit
deriving DecidableEq, Repr

namespace Clause

def opener : Clause → TokenKind
  | select => .keyword .select
  | filter => .keyword .whereWord
  | order => .keyword .orderWord
  | limit => .keyword .limit

def offer : Clause → Offer
  | select => ⟨"SELECT", "SELECT [field...]"⟩
  | filter => ⟨"WHERE", "WHERE [field] [operator] [value]"⟩
  | order => ⟨"ORDER BY", "ORDER BY [field] [ASC/DESC]"⟩
  | limit => ⟨"LIMIT", "LIMIT [count]"⟩

theorem opener_injective {c d : Clause} (h : c.opener = d.opener) : c = d := by
  cases c <;> cases d <;> first | rfl | simp [opener] at h

/-- The clause among `clauses` that a word opens, and the clauses after it. -/
def find? (kind : TokenKind) : List Clause → Option (Clause × List Clause)
  | [] => none
  | c :: cs => if c.opener = kind then some (c, cs) else find? kind cs

theorem find?_length {kind : TokenKind} {clauses rest : List Clause} {c : Clause}
    (h : find? kind clauses = some (c, rest)) : rest.length < clauses.length := by
  induction clauses with
  | nil => simp [find?] at h
  | cons d ds ih =>
      simp only [find?] at h
      split at h
      · simp_all
      · have hlt := ih h
        simp only [List.length_cons]
        omega

def index? (kind : TokenKind) (clauses : List Clause) : Option Nat :=
  clauses.findIdx? fun c => c.opener = kind

end Clause

namespace Request

/-- The requests in the order in which they are offered. -/
def all : List Request := [get, query, count]

def ofKind? : TokenKind → Option Request
  | .keyword .get => some get
  | .keyword .query => some query
  | .keyword .count => some count
  | _ => none

def offer : Request → Offer
  | get => ⟨"GET", "GET [docPath]"⟩
  | query => ⟨"QUERY", "QUERY [collection]"⟩
  | count => ⟨"COUNT", "COUNT [collection]"⟩

def clauses : Request → List Clause
  | get => []
  | query => [.select, .filter, .order, .limit]
  | count => [.filter]

end Request

def andOffer : Offer := ⟨"AND", "AND [field] [operator] [value]"⟩

def ascOffer : Offer := ⟨"ASC", "ASC"⟩

def descOffer : Offer := ⟨"DESC", "DESC"⟩

def byOffer : Offer := ⟨"BY", "BY [field]"⟩

def Operator.ofKind? : TokenKind → Option Operator
  | .comparison c => some (.compare c)
  | .keyword .inWord => some .memberOf
  | .keyword .arrayContains => some .arrayContains
  | .keyword .arrayContainsAny => some .arrayContainsAny
  | _ => none

/-- Whether a word is the name of the function that makes a timestamp of a string. -/
def isTimestampName (word : String) : Bool := sameLetters word.toList "timestamp".toList

end DocShell.Query
