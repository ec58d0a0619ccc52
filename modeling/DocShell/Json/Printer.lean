import DocShell.Json.Value
import DocShell.Number.Shortest

namespace DocShell.Json

open DocShell.Number

inductive Layout where
  | compact
  | pretty
deriving DecidableEq, Repr

namespace Layout

/-- What stands between two items and inside brackets that are not empty. -/
def lineBreak (depth : Nat) : Layout → List Char
  | compact => []
  | pretty => '\n' :: List.replicate (2 * depth) ' '

def colon : Layout → List Char
  | compact => [':']
  | pretty => [':', ' ']

end Layout

def hexDigit (digit : Nat) : Char :=
  if digit < 10 then Char.ofNat ('0'.toNat + digit) else Char.ofNat ('a'.toNat + (digit - 10))

def escape (c : Char) : List Char :=
  match c with
  | '"' => ['\\', '"']
  | '\\' => ['\\', '\\']
  | '\x08' => ['\\', 'b']
  | '\x0c' => ['\\', 'f']
  | '\n' => ['\\', 'n']
  | '\r' => ['\\', 'r']
  | '\t' => ['\\', 't']
  | c =>
      if c.toNat < 0x20 then
        ['\\', 'u', '0', '0', hexDigit (c.toNat / 16), hexDigit (c.toNat % 16)]
      else [c]

def quote (value : String) : List Char := '"' :: value.toList.flatMap escape ++ ['"']

/-- Infinity has no text of its own. -/
def floatText (value : Binary64) : List Char :=
  if value.isInfinite then "null".toList else Shortest.text value

mutual

def print (layout : Layout) (depth : Nat) : Json → List Char
  | null => "null".toList
  | bool true => "true".toList
  | bool false => "false".toList
  | int value => Decimal.ofInt value
  | float value => floatText value
  | string value => quote value
  | array [] => ['[', ']']
  | array (item :: items) =>
      '[' :: layout.lineBreak (depth + 1) ++ print layout (depth + 1) item ++
        printItems layout depth items
  | object [] => ['{', '}']
  | object (member :: members) =>
      '{' :: layout.lineBreak (depth + 1) ++ printMember layout depth member ++
        printMembers layout depth members

/-- The items after the first, and the bracket that closes them. -/
def printItems (layout : Layout) (depth : Nat) : List Json → List Char
  | [] => layout.lineBreak depth ++ [']']
  | item :: items =>
      ',' :: layout.lineBreak (depth + 1) ++ print layout (depth + 1) item ++
        printItems layout depth items

def printMember (layout : Layout) (depth : Nat) : String × Json → List Char
  | (name, value) => quote name ++ layout.colon ++ print layout (depth + 1) value

def printMembers (layout : Layout) (depth : Nat) : List (String × Json) → List Char
  | [] => layout.lineBreak depth ++ ['}']
  | member :: members =>
      ',' :: layout.lineBreak (depth + 1) ++ printMember layout depth member ++
        printMembers layout depth members

end

def text (layout : Layout) (value : Json) : String := String.ofList (print layout 0 value)

end DocShell.Json
