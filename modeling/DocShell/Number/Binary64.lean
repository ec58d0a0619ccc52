import DocShell.Number.Decimal

/-!
Binary floating-point numbers of 64 bits, without the values that are no numbers. Those that are
not negative are counted from zero upwards: the number with rank `r` has the bits of `r`.
Rounding goes to the nearest number and, half-way between two, to the one with the even rank.
-/

namespace DocShell.Number

open DocShell.Number.Decimal

/-- The numbers from one power of two up to the next are as many as the 52nd power of two, and so
are those under the least of these powers. -/
def binadeSize : Nat := 0x10000000000000

/-- The rank of infinity, which follows that of the largest finite number. -/
def infinityRank : Nat := 0x7FF * binadeSize

structure Binary64 where
  negative : Bool
  rank : Nat
  rank_le : rank ≤ infinityRank
deriving DecidableEq, Repr

namespace Binary64

def zero : Binary64 := ⟨false, 0, Nat.zero_le _⟩

def isZero (x : Binary64) : Bool := x.rank == 0

def isInfinite (x : Binary64) : Bool := x.rank == infinityRank

def withSign (negative : Bool) (x : Binary64) : Binary64 := { x with negative }

/-- The magnitude is `significand * 2 ^ exponent`. -/
def significand (x : Binary64) : Nat :=
  if x.rank / binadeSize = 0 then x.rank else binadeSize + x.rank % binadeSize

def exponent (x : Binary64) : Int :=
  if x.rank / binadeSize = 0 then -1074 else (x.rank / binadeSize : Nat) - 1075

/-- The whole number nearest to a quotient, and the even one of two that are equally near. -/
def roundQuotient (numerator denominator : Nat) : Nat :=
  let quotient := numerator / denominator
  let doubled := 2 * (numerator % denominator)
  if doubled < denominator then quotient
  else if denominator < doubled then quotient + 1
  else quotient + quotient % 2

def scaleByTwo (numerator denominator : Nat) (exponent : Int) : Nat × Nat :=
  if exponent < 0 then (numerator, denominator * Nat.pow 2 exponent.natAbs)
  else (numerator * Nat.pow 2 exponent.natAbs, denominator)

def floorLog (numerator denominator : Nat) : Int :=
  let guess : Int := (numerator.log2 : Int) - denominator.log2
  let scaled := scaleByTwo numerator denominator (-guess)
  if scaled.2 ≤ scaled.1 then guess else guess - 1

/-- The nearest number to a quotient with a positive denominator. The significand has 53 bits
unless that takes an exponent under -1074. -/
def ofQuotient (numerator denominator : Nat) : Binary64 :=
  if numerator = 0 then zero
  else
    let exponent := max (floorLog numerator denominator - 52) (-1074)
    let scaled := scaleByTwo numerator denominator (-exponent)
    let rank := (exponent + 1074).toNat * binadeSize + roundQuotient scaled.1 scaled.2
    ⟨false, min rank infinityRank, Nat.min_le_right _ _⟩

/-- The nearest number to `significand * 10 ^ exponent`. -/
def ofDecimal (significand : Nat) (exponent : Int) : Binary64 :=
  if exponent < 0 then ofQuotient significand (Nat.pow 10 exponent.natAbs)
  else ofQuotient (significand * Nat.pow 10 exponent.natAbs) 1

/-- The nearest number to a literal: digits with a point, after an optional `-`. -/
def ofLiteral (literal : List Char) : Binary64 :=
  match literal with
  | '-' :: magnitude => withSign true (ofMagnitude magnitude)
  | magnitude => ofMagnitude magnitude
where
  ofMagnitude (magnitude : List Char) : Binary64 :=
    let whole := magnitude.takeWhile (· != '.')
    let fraction := (magnitude.dropWhile (· != '.')).drop 1
    ofDecimal (ofDigits (whole ++ fraction)) (- (fraction.length : Int))

def mul (x y : Binary64) : Binary64 :=
  let scaled := scaleByTwo (x.significand * y.significand) 1 (x.exponent + y.exponent)
  ofQuotient scaled.1 scaled.2

def div (x y : Binary64) : Binary64 :=
  let scaled := scaleByTwo x.significand y.significand (x.exponent - y.exponent)
  ofQuotient scaled.1 scaled.2

end Binary64

end DocShell.Number
