import DocShell.Number.Binary64

namespace DocShell.Number.Shortest

open DocShell.Number.Decimal

/-- `significand * 10 ^ exponent`. -/
structure Scientific where
  significand : Nat
  exponent : Int
deriving DecidableEq, Repr

def floorLogTen (numerator denominator : Nat) : Int :=
  let guess : Int := ((digits numerator).length : Int) - (digits denominator).length
  let reached :=
    if guess < 0 then denominator ≤ numerator * Nat.pow 10 guess.natAbs
    else denominator * Nat.pow 10 guess.natAbs ≤ numerator
  if reached then guess else guess - 1

/-- The reals that are read as a number, in quarters of the unit of its last bit: the number, the
two ends, and whether these belong to it. -/
structure Interval where
  low : Nat
  value : Nat
  high : Nat
  closed : Bool

/-- The half-way points to the neighbours. The lower neighbour of a power of two is only half as
far away, unless both are subnormal. -/
def interval (x : Binary64) : Interval where
  low := if x.rank % binadeSize = 0 ∧ binadeSize < x.rank then 4 * x.significand - 1
    else 4 * x.significand - 2
  value := 4 * x.significand
  high := 4 * x.significand + 2
  closed := x.significand % 2 == 0

/-- A decimal with the unit `10 ^ unit` that is read as the number, the nearest if there are
two. -/
def onGrid? (x : Binary64) (unit : Int) : Option Scientific :=
  let bounds := interval x
  let quarter := x.exponent - 2
  let up := (if quarter < 0 then 1 else Nat.pow 2 quarter.natAbs) *
    (if unit < 0 then Nat.pow 10 unit.natAbs else 1)
  let down := (if quarter < 0 then Nat.pow 2 quarter.natAbs else 1) *
    (if unit < 0 then 1 else Nat.pow 10 unit.natAbs)
  let below := bounds.value * up / down
  let remainder := bounds.value * up % down
  let belowIn :=
    if bounds.closed then bounds.low * up ≤ below * down else bounds.low * up < below * down
  let aboveIn :=
    if bounds.closed then (below + 1) * down ≤ bounds.high * up
    else (below + 1) * down < bounds.high * up
  let aboveNearer := down < 2 * remainder || (2 * remainder == down && below % 2 == 1)
  if belowIn && !(aboveIn && aboveNearer) then some ⟨below, unit⟩
  else if aboveIn then some ⟨below + 1, unit⟩
  else none

def shortest (x : Binary64) : Scientific :=
  let scaled := Binary64.scaleByTwo x.significand 1 x.exponent
  let top := floorLogTen scaled.1 scaled.2
  match (List.range 17).findSome? fun (count : Nat) => onGrid? x (top - count) with
  | some decimal => decimal
  | none => ⟨0, 0⟩

/-- The decimal point is written among the digits for these exponents of the first digit, and a
power of ten after the digits for all others. -/
def positional (exponent : Int) : Bool := -5 ≤ exponent && exponent ≤ 15

/-- A decimal with the first digit `head` times ten to the power `exponent`, and the other digits
`tail`. A point has a digit on both sides; a power of ten has its sign. -/
def layout (head : Char) (tail : List Char) (exponent : Int) : List Char :=
  if positional exponent then
    if exponent < 0 then
      '0' :: '.' :: List.replicate (exponent.natAbs - 1) '0' ++ head :: tail
    else
      let whole := tail.take exponent.natAbs
      let fraction := tail.drop exponent.natAbs
      head :: whole ++ List.replicate (exponent.natAbs - whole.length) '0' ++
        '.' :: (if fraction.isEmpty then ['0'] else fraction)
  else
    let point := if tail.isEmpty then [] else '.' :: tail
    head :: point ++ 'e' :: (if exponent < 0 then '-' else '+') :: digits exponent.natAbs

def text (x : Binary64) : List Char :=
  let sign := if x.negative then ['-'] else []
  if x.isZero then sign ++ ['0', '.', '0']
  else
    let decimal := shortest x
    let written := digits decimal.significand
    let exponent := decimal.exponent + (written.length - 1 : Nat)
    match (written.reverse.dropWhile (· == '0')).reverse with
    | [] => sign ++ ['0', '.', '0']
    | head :: tail => sign ++ layout head tail exponent

end DocShell.Number.Shortest
