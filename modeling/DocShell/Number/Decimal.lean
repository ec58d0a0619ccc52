namespace DocShell.Number.Decimal

def digitValue (c : Char) : Nat := c.toNat - '0'.toNat

def digitChar (digit : Nat) : Char := Char.ofNat ('0'.toNat + digit)

/-- The number that follows `value` when more digits are read. -/
def extend (value : Nat) (digits : List Char) : Nat :=
  digits.foldl (fun value c => value * 10 + digitValue c) value

def ofDigits (digits : List Char) : Nat := extend 0 digits

/-- The digits of a number, without leading zeros. -/
def digits (n : Nat) : List Char :=
  if n < 10 then [digitChar n] else digits (n / 10) ++ [digitChar (n % 10)]
termination_by n
decreasing_by omega

theorem digitValue_digitChar {digit : Nat} (h : digit < 10) :
    digitValue (digitChar digit) = digit := by
  have hall : ∀ digit : Fin 10, digitValue (digitChar digit) = digit := by decide
  exact hall ⟨digit, h⟩

theorem ofDigits_digits (n : Nat) : ofDigits (digits n) = n := by
  fun_induction digits n with
  | case1 n hn => simp [ofDigits, extend, digitValue_digitChar hn]
  | case2 n hn ih =>
      simp only [ofDigits, extend] at ih
      simp only [ofDigits, extend, List.foldl_append, ih, List.foldl_cons, List.foldl_nil,
        digitValue_digitChar (Nat.mod_lt n (by decide : 0 < 10))]
      omega

def ofInt (n : Int) : List Char :=
  if n < 0 then '-' :: digits n.natAbs else digits n.natAbs

/-- The digits of a number, with zeros on the left up to a width. -/
def padded (width n : Nat) : List Char :=
  List.replicate (width - (digits n).length) '0' ++ digits n

def toInt (literal : List Char) : Int :=
  match literal with
  | '-' :: digits => - (ofDigits digits : Int)
  | digits => ofDigits digits

/-- The number that a literal denotes, if it is in the signed 64-bit range. -/
def toInt64? (literal : List Char) : Option Int :=
  let value := toInt literal
  if -0x8000000000000000 ≤ value ∧ value < 0x8000000000000000 then some value else none

def toNat64? (literal : List Char) : Option Nat :=
  match literal with
  | '-' :: _ => none
  | digits => if ofDigits digits < UInt64.size then some (ofDigits digits) else none

end DocShell.Number.Decimal
