import DocShell.Text.Blank
import DocShell.Time.Timestamp

/-!
Timestamps are read in three layouts, tried in turn: date and time with an offset, in which each
number has a fixed width; date and time without an offset; and a date alone. The last two are
taken as UTC, and blanks may stand in front of their numbers.
-/

namespace DocShell.Time

open DocShell.Number.Decimal
open DocShell.Text.Blank

/-- The number in exactly the first `width` characters, and what follows them. -/
def fixedNumber? (width : Nat) (cs : List Char) : Option (Nat × List Char) :=
  let written := cs.take width
  if written.length = width ∧ written.all Char.isDigit then
    some (ofDigits written, cs.drop width)
  else none

/-- The number in at least one and at most `width` digits, and what follows them. -/
def looseNumber? (width : Nat) (cs : List Char) : Option (Nat × List Char) :=
  let written := (cs.takeWhile Char.isDigit).take width
  if written.isEmpty then none else some (ofDigits written, cs.drop written.length)

def spacedNumber? (width : Nat) (cs : List Char) : Option (Nat × List Char) :=
  looseNumber? width (trimStart cs)

/-- A year after any number of blanks: four digits at the most, or a sign and any number of
digits. -/
def spacedYear? (cs : List Char) : Option (Int × List Char) :=
  match trimStart cs with
  | '-' :: rest => (looseNumber? rest.length rest).map fun (year, rest) => (-(year : Int), rest)
  | '+' :: rest => (looseNumber? rest.length rest).map fun (year, rest) => ((year : Int), rest)
  | rest => (looseNumber? 4 rest).map fun (year, rest) => ((year : Int), rest)

def expect? (c : Char) : List Char → Option (List Char)
  | [] => none
  | d :: rest => if d = c then some rest else none

/-- The nanoseconds of a fraction with its point. Digits after the ninth count for nothing. -/
def fraction? (cs : List Char) : Option (Nat × List Char) :=
  match cs with
  | '.' :: rest =>
      let written := rest.takeWhile Char.isDigit
      if written.isEmpty then none
      else
        let kept := written.take 9
        some (ofDigits kept * Nat.pow 10 (9 - kept.length), rest.dropWhile Char.isDigit)
  | rest => some (0, rest)

/-- The minutes of an offset: `Z`, or hours and minutes after a sign. The sign of a negative one
is the hyphen or the minus sign. -/
def offset? (cs : List Char) : Option (Int × List Char) :=
  match cs with
  | 'Z' :: rest => some (0, rest)
  | 'z' :: rest => some (0, rest)
  | '+' :: rest => magnitude? rest
  | '-' :: rest => (magnitude? rest).map fun (minutes, rest) => (-minutes, rest)
  | '\u2212' :: rest => (magnitude? rest).map fun (minutes, rest) => (-minutes, rest)
  | _ => none
where
  magnitude? (cs : List Char) : Option (Int × List Char) := do
    let (hours, rest) ← fixedNumber? 2 cs
    let rest ← expect? ':' rest
    let (minutes, rest) ← fixedNumber? 2 rest
    if hours ≤ 23 ∧ minutes ≤ 59 then some ((hours * 60 + minutes : Nat), rest) else none

def ofParts? (year : Int) (month day hour minute second nanosecond : Nat) (offset : Int) :
    Option Timestamp :=
  if isDate year month day && isTimeOfDay hour minute second then
    some { year, month, day, hour, minute, second, nanosecond, offset }
  else none

def timeMark? : List Char → Option (List Char)
  | 'T' :: rest => some rest
  | 't' :: rest => some rest
  | ' ' :: rest => some rest
  | _ => none

def withOffset? (cs : List Char) : Option Timestamp := do
  let (year, rest) ← fixedNumber? 4 cs
  let rest ← expect? '-' rest
  let (month, rest) ← fixedNumber? 2 rest
  let rest ← expect? '-' rest
  let (day, rest) ← fixedNumber? 2 rest
  let rest ← timeMark? rest
  let (hour, rest) ← fixedNumber? 2 rest
  let rest ← expect? ':' rest
  let (minute, rest) ← fixedNumber? 2 rest
  let rest ← expect? ':' rest
  let (second, rest) ← fixedNumber? 2 rest
  let (nanosecond, rest) ← fraction? rest
  let (offset, rest) ← offset? rest
  if rest.isEmpty then ofParts? year month day hour minute second nanosecond offset else none

def spacedDate? (cs : List Char) : Option ((Int × Nat × Nat) × List Char) := do
  let (year, rest) ← spacedYear? cs
  let rest ← expect? '-' rest
  let (month, rest) ← spacedNumber? 2 rest
  let rest ← expect? '-' rest
  let (day, rest) ← spacedNumber? 2 rest
  return ((year, month, day), rest)

def withoutOffset? (cs : List Char) : Option Timestamp := do
  let ((year, month, day), rest) ← spacedDate? cs
  let rest ← expect? 'T' rest
  let (hour, rest) ← spacedNumber? 2 rest
  let rest ← expect? ':' rest
  let (minute, rest) ← spacedNumber? 2 rest
  let rest ← expect? ':' rest
  let (second, rest) ← spacedNumber? 2 rest
  if rest.isEmpty then ofParts? year month day hour minute second 0 0 else none

def dateOnly? (cs : List Char) : Option Timestamp := do
  let ((year, month, day), rest) ← spacedDate? cs
  if rest.isEmpty then ofParts? year month day 0 0 0 0 0 else none

def Timestamp.ofText? (text : String) : Option Timestamp :=
  let cs := text.toList
  withOffset? cs <|> withoutOffset? cs <|> dateOnly? cs

end DocShell.Time
