import DocShell.Number.Binary64
import DocShell.Text.Segments
import DocShell.Time.Reader
import DocShell.Toml.Token
import DocShell.Toml.Value

namespace DocShell.Toml

open DocShell.Number
open DocShell.Number.Decimal
open DocShell.Text.Segments
open DocShell.Time

/-- The digits of a number in which underscores stand only between two digits. -/
def plainDigits? (isDigit : Char → Bool) (cs : List Char) : Option (List Char) :=
  let groups := splitOn '_' cs
  if groups.all fun group => !group.isEmpty && group.all isDigit then some groups.flatten
  else none

def splitSign (cs : List Char) : Bool × List Char :=
  match cs with
  | '-' :: rest => (true, rest)
  | '+' :: rest => (false, rest)
  | rest => (false, rest)

/-- The digits of a decimal number. No digit follows a zero in front. -/
def wholeDigits? (cs : List Char) : Option (List Char) := do
  match ← plainDigits? Char.isDigit cs with
  | '0' :: _ :: _ => none
  | digits => some digits

/-- The range of the integers: up to 127 bits under zero, 128 above. -/
def isInRange (value : Int) : Bool :=
  -0x80000000000000000000000000000000 ≤ value && value < 0x100000000000000000000000000000000

def Value.ofInt (value : Int) : Value := if isInRange value then .integer value else .void

def digitsIn? (base : Nat) (cs : List Char) : Option Nat := do
  let isDigit (c : Char) : Bool := (Json.hexValue? c).any (· < base)
  let digits ← plainDigits? isDigit cs
  return digits.foldl (fun value c => value * base + (Json.hexValue? c).getD 0) 0

/-- The number after a mark of its base, void without digits. -/
def based? (base : Nat) (cs : List Char) : Option Value :=
  if cs.isEmpty then some .void else (digitsIn? base cs).map fun n => .ofInt n

/-- Whether a text passes for a decimal integer with underscores, be it without a value. Decimal
digits stand before the first underscore, and each underscore is between two hexadecimal digits.
With a point or the mark of an exponent the text has to be a decimal fraction, and with a space a
date. -/
def isLoose (cs : List Char) : Bool :=
  let isHexDigit (c : Char) : Bool := (Json.hexValue? c).isSome
  match splitOn '_' cs with
  | first :: second :: groups =>
      !first.isEmpty && first.all Char.isDigit && first.head? != some '0' &&
        (second :: groups).all (fun group => group.head?.any isHexDigit) &&
        (second :: groups).dropLast.all (fun group => group.getLast?.any isHexDigit) &&
        !cs.any fun c => c == '.' || c == 'e' || c == 'E' || c == ' '
  | _ => false

def integer? (cs : List Char) : Option Value :=
  match cs with
  | '0' :: 'x' :: rest => based? 16 rest
  | '0' :: 'o' :: rest => based? 8 rest
  | '0' :: 'b' :: rest => based? 2 rest
  | cs =>
      let (negative, rest) := splitSign cs
      match wholeDigits? rest with
      | some digits =>
          let magnitude : Int := ofDigits digits
          some (.ofInt (if negative then -magnitude else magnitude))
      | none => if isLoose rest then some .void else none

def overflows (digits : List Char) (exponent : Int) : Bool :=
  let significant := digits.dropWhile (· == '0')
  let magnitude := significant.length + exponent
  if significant.isEmpty || magnitude < 300 then false
  else if 310 < magnitude then true
  else (Binary64.ofDecimal (ofDigits significant) exponent).isInfinite

/-- The digits of a number with a fraction, an exponent or both, and the power of ten that goes with
the last of them. -/
def decimal? (cs : List Char) : Option (List Char × Int) :=
  let isExponentMark (c : Char) : Bool := c == 'e' || c == 'E'
  let mantissa := cs.takeWhile fun c => !isExponentMark c
  let marked := cs.dropWhile fun c => !isExponentMark c
  let whole := mantissa.takeWhile (· != '.')
  let pointed := mantissa.dropWhile (· != '.')
  let fraction? := if pointed.isEmpty then some [] else plainDigits? Char.isDigit (pointed.drop 1)
  let (negative, power) := splitSign (marked.drop 1)
  let power? := if marked.isEmpty then some [] else plainDigits? Char.isDigit power
  match wholeDigits? whole, fraction?, power? with
  | some whole, some fraction, some power =>
      let shift : Int := if negative then -(ofDigits power : Int) else ofDigits power
      if pointed.isEmpty && marked.isEmpty then none
      else some (whole ++ fraction, shift - fraction.length)
  | _, _, _ => none

/-- A number with a fraction or an exponent, void if it is too large. -/
def float? (cs : List Char) : Option Value :=
  let (_, rest) := splitSign cs
  if rest == "inf".toList || rest == "nan".toList then some (.float (String.ofList cs))
  else
    (decimal? rest).map fun (digits, exponent) =>
      if overflows digits exponent then .void else .float (String.ofList cs)

def afterDate? (cs : List Char) : Option (List Char) := do
  let (year, rest) ← fixedNumber? 4 cs
  let rest ← expect? '-' rest
  let (month, rest) ← fixedNumber? 2 rest
  let rest ← expect? '-' rest
  let (day, rest) ← fixedNumber? 2 rest
  if isDate year month day then some rest else none

/-- What follows the time of day at the front of a text. The seconds may be missing. -/
def afterTime? (cs : List Char) : Option (List Char) := do
  let (hour, rest) ← fixedNumber? 2 cs
  let rest ← expect? ':' rest
  let (minute, rest) ← fixedNumber? 2 rest
  match rest with
  | ':' :: rest =>
      let (second, rest) ← fixedNumber? 2 rest
      let (_, rest) ← fraction? rest
      if isTimeOfDay hour minute second then some rest else none
  | rest => if isTimeOfDay hour minute 0 then some rest else none

/-- Whether a text is a date, a time of day, or both, these perhaps with an offset. -/
def isDatetime (cs : List Char) : Bool :=
  match afterDate? cs with
  | some [] => true
  | some rest =>
      match (timeMark? rest).bind afterTime? with
      | some [] => true
      | some (mark :: rest) =>
          mark.toNat < 0x80 && ((offset? (mark :: rest)).any fun found => found.2.isEmpty)
      | none => false
  | none => afterTime? cs == some []

def Value.ofScalar? (cs : List Char) : Option Value :=
  if cs == "true".toList then some (.boolean true)
  else if cs == "false".toList then some (.boolean false)
  else
    integer? cs <|> float? cs <|>
      if isDatetime cs then some (.datetime (String.ofList cs)) else none

end DocShell.Toml
