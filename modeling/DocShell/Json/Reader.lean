import DocShell.Json.Value

/-!
The JSON value that a text denotes. The text is cut into tokens, and one pass over these, with a
stack of the arrays and objects that are still open, builds the value.
-/

namespace DocShell.Json

open DocShell.Number
open DocShell.Number.Decimal

inductive Token where
  | openArray
  | closeArray
  | openObject
  | closeObject
  | comma
  | colon
  | string (value : String)
  | scalar (value : Json)

def isSpace (c : Char) : Bool := c == ' ' || c == '\n' || c == '\t' || c == '\r'

def hexValue? (c : Char) : Option Nat :=
  if '0' ≤ c ∧ c ≤ '9' then some (c.toNat - '0'.toNat)
  else if 'a' ≤ c ∧ c ≤ 'f' then some (c.toNat - 'a'.toNat + 10)
  else if 'A' ≤ c ∧ c ≤ 'F' then some (c.toNat - 'A'.toNat + 10)
  else none

def hexQuad? (a b c d : Char) : Option Nat := do
  return (((← hexValue? a) * 16 + (← hexValue? b)) * 16 + (← hexValue? c)) * 16 + (← hexValue? d)

def unescape? : Char → Option Char
  | '"' => some '"'
  | '\\' => some '\\'
  | '/' => some '/'
  | 'b' => some '\x08'
  | 'f' => some '\x0c'
  | 'n' => some '\n'
  | 'r' => some '\r'
  | 't' => some '\t'
  | _ => none

def isHighSurrogate (unit : Nat) : Bool := 0xD800 ≤ unit && unit < 0xDC00

def isLowSurrogate (unit : Nat) : Bool := 0xDC00 ≤ unit && unit < 0xE000

def joinSurrogates (high low : Nat) : Char :=
  Char.ofNat (0x10000 + (high - 0xD800) * 0x400 + (low - 0xDC00))

/-- The characters of a string after its opening quote, and what follows the closing one. The two
halves of a surrogate pair are escaped one after the other; neither stands alone. -/
def stringBody? : List Char → Option (List Char × List Char)
  | [] => none
  | '"' :: rest => some ([], rest)
  | '\\' :: 'u' :: a :: b :: c :: d :: rest =>
      match hexQuad? a b c d with
      | none => none
      | some unit =>
          if isHighSurrogate unit then
            match rest with
            | '\\' :: 'u' :: e :: f :: g :: h :: rest =>
                match hexQuad? e f g h with
                | none => none
                | some low =>
                    if isLowSurrogate low then
                      (stringBody? rest).map fun (body, rest) =>
                        (joinSurrogates unit low :: body, rest)
                    else none
            | _ => none
          else if isLowSurrogate unit then none
          else (stringBody? rest).map fun (body, rest) => (Char.ofNat unit :: body, rest)
  | '\\' :: c :: rest =>
      match unescape? c with
      | none => none
      | some c => (stringBody? rest).map fun (body, rest) => (c :: body, rest)
  | '\\' :: [] => none
  | c :: rest =>
      if c.toNat < 0x20 then none
      else (stringBody? rest).map fun (body, rest) => (c :: body, rest)

theorem stringBody?_length {cs body rest : List Char}
    (h : stringBody? cs = some (body, rest)) : rest.length < cs.length := by
  fun_induction stringBody? cs generalizing body with
  | case1 => simp at h
  | case2 => simp_all
  | case3 | case4 | case6 | case7 | case8 | case10 | case12 | case13 => simp at h
  | case5 | case9 | case11 | case14 =>
      obtain ⟨⟨body', rest'⟩, hbody, hparts⟩ := Option.map_eq_some_iff.mp h
      simp only [Prod.mk.injEq] at hparts
      obtain ⟨-, rfl⟩ := hparts
      rename_i ih
      have hlt := ih hbody
      simp only [List.length_cons]
      omega

/-- The digits that still fit a 64-bit word after the number read so far: the number with them,
and how many they are. -/
def absorb (value : Nat) : List Char → Nat × Nat
  | [] => (value, 0)
  | c :: cs =>
      let next := value * 10 + digitValue c
      if next < UInt64.size then
        let (value, count) := absorb next cs
        (value, count + 1)
      else (value, 0)

/-- A number divided by a power of ten, at most 308 places at a time. -/
def shiftDown (x : Binary64) (places : Nat) : Binary64 :=
  if places ≤ 308 then x.div (.ofDecimal 1 places)
  else if x.isZero then x
  else shiftDown (x.div (.ofDecimal 1 308)) (places - 308)
termination_by places
decreasing_by omega

/-- A word times a power of ten. Word, power and product are each rounded; there is no result
beyond the largest finite number. -/
def scale? (significand : Nat) (exponent : Int) : Option Binary64 :=
  let x := Binary64.ofQuotient significand 1
  if exponent < 0 then some (shiftDown x exponent.natAbs)
  else if x.isZero then some x
  else if exponent ≤ 308 then
    let product := x.mul (.ofDecimal 1 exponent)
    if product.isInfinite then none else some product
  else none

def exponent? (cs : List Char) : Option (Int × List Char) :=
  let (negative, cs) :=
    match cs with
    | '-' :: cs => (true, cs)
    | '+' :: cs => (false, cs)
    | cs => (false, cs)
  let written := cs.takeWhile Char.isDigit
  if written.isEmpty then none
  else
    let magnitude : Int := ofDigits written
    some (if negative then -magnitude else magnitude, cs.dropWhile Char.isDigit)

theorem exponent?_length {cs rest : List Char} {value : Int}
    (h : exponent? cs = some (value, rest)) : rest.length ≤ cs.length := by
  have hdrop : ∀ ds : List Char, (ds.dropWhile Char.isDigit).length ≤ ds.length :=
    fun ds => (List.dropWhile_suffix (l := ds) Char.isDigit).length_le
  unfold exponent? at h
  split at h
  rename_i negative ds hsplit
  have hds : ds.length ≤ cs.length := by
    split at hsplit <;> simp_all
  dsimp only at h
  split at h
  · simp at h
  · simp only [Option.some.injEq, Prod.mk.injEq] at h
    have hle := hdrop ds
    rw [h.2] at hle
    omega

/-- The value of an exponent with its letter, zero without one, and what follows it. -/
def shift? (cs : List Char) : Option (Int × List Char) :=
  match cs with
  | 'e' :: cs => exponent? cs
  | 'E' :: cs => exponent? cs
  | cs => some (0, cs)

theorem shift?_length {cs rest : List Char} {value : Int}
    (h : shift? cs = some (value, rest)) : rest.length ≤ cs.length := by
  unfold shift? at h
  split at h
  · have hle := exponent?_length h
    simp only [List.length_cons]
    omega
  · have hle := exponent?_length h
    simp only [List.length_cons]
    omega
  · simp_all

def float? (negative : Bool) (significand : Nat) (exponent : Int) (cs : List Char) :
    Option (Json × List Char) :=
  match shift? cs with
  | none => none
  | some (shift, rest) =>
      (scale? significand (exponent + shift)).map fun magnitude =>
        (float (magnitude.withSign negative), rest)

theorem float?_length {negative : Bool} {significand : Nat} {exponent : Int}
    {cs rest : List Char} {value : Json}
    (h : float? negative significand exponent cs = some (value, rest)) :
    rest.length ≤ cs.length := by
  unfold float? at h
  split at h
  · simp at h
  · rename_i shift tail hshift
    obtain ⟨magnitude, -, hmagnitude⟩ := Option.map_eq_some_iff.mp h
    simp only [Prod.mk.injEq] at hmagnitude
    obtain ⟨-, rfl⟩ := hmagnitude
    exact shift?_length hshift

/-- The digits in front of the point, without a zero that further digits follow, and the rest. -/
def whole (cs : List Char) : List Char × List Char :=
  match cs with
  | '0' :: rest => (['0'], rest)
  | cs => (cs.takeWhile Char.isDigit, cs.dropWhile Char.isDigit)

theorem whole_append (cs : List Char) : (whole cs).1 ++ (whole cs).2 = cs := by
  unfold whole
  split
  · rfl
  · exact List.takeWhile_append_dropWhile

/-- The value of a number after its sign, and what follows it. Digits beyond those that fit a
word count as zeros in front of the point and are dropped behind it. A whole number that fits
neither a signed nor an unsigned word is a float, and so is zero with a sign. -/
def number? (negative : Bool) (cs : List Char) : Option (Json × List Char) :=
  let (written, rest) := whole cs
  let (significand, count) := absorb 0 written
  let dropped : Int := (written.length - count : Nat)
  if written.isEmpty then none
  else
    match rest with
    | '.' :: rest =>
        let fraction := rest.takeWhile Char.isDigit
        let (significand, count) := absorb significand fraction
        if fraction.isEmpty then none
        else float? negative significand (dropped - count) (rest.dropWhile Char.isDigit)
    | 'e' :: _ => float? negative significand dropped rest
    | 'E' :: _ => float? negative significand dropped rest
    | rest =>
        if dropped ≠ 0 then float? negative significand dropped rest
        else if !negative then some (int significand, rest)
        else if significand = 0 ∨ 0x8000000000000000 < significand then
          float? negative significand 0 rest
        else some (int (-significand), rest)

theorem number?_length {negative : Bool} {cs rest : List Char} {value : Json}
    (h : number? negative cs = some (value, rest)) : rest.length < cs.length := by
  have hdrop : ∀ ds : List Char, (ds.dropWhile Char.isDigit).length ≤ ds.length :=
    fun ds => (List.dropWhile_suffix (l := ds) Char.isDigit).length_le
  have hjoin := congrArg List.length (whole_append cs)
  unfold number? at h
  generalize whole cs = parts at h hjoin
  obtain ⟨written, tail⟩ := parts
  dsimp only at h
  split at h
  · simp at h
  · rename_i hwritten
    have htail : tail.length < cs.length := by
      cases written with
      | nil => simp at hwritten
      | cons c written =>
          simp only [List.length_append, List.length_cons] at hjoin
          omega
    split at h
    · rename_i fraction
      split at h
      · simp at h
      · have hle := float?_length h
        have hshort := hdrop fraction
        rw [List.length_cons] at htail
        omega
    · have hle := float?_length h
      omega
    · have hle := float?_length h
      omega
    · split at h
      · have hle := float?_length h
        omega
      · split at h
        · simp_all
        · split at h
          · have hle := float?_length h
            omega
          · simp_all

def keyword? (cs : List Char) : Option (Json × List Char) :=
  match cs with
  | 'n' :: 'u' :: 'l' :: 'l' :: rest => some (null, rest)
  | 't' :: 'r' :: 'u' :: 'e' :: rest => some (bool true, rest)
  | 'f' :: 'a' :: 'l' :: 's' :: 'e' :: rest => some (bool false, rest)
  | _ => none

theorem keyword?_length {cs rest : List Char} {value : Json}
    (h : keyword? cs = some (value, rest)) : rest.length < cs.length := by
  unfold keyword? at h
  split at h <;> simp_all <;> (obtain ⟨-, rfl⟩ := h; omega)

def token? (c : Char) (cs : List Char) : Option (Token × List Char) :=
  match c with
  | '[' => some (.openArray, cs)
  | ']' => some (.closeArray, cs)
  | '{' => some (.openObject, cs)
  | '}' => some (.closeObject, cs)
  | ',' => some (.comma, cs)
  | ':' => some (.colon, cs)
  | '"' => (stringBody? cs).map fun (body, rest) => (.string (String.ofList body), rest)
  | '-' => (number? true cs).map fun (value, rest) => (.scalar value, rest)
  | c =>
      if c.isDigit then (number? false (c :: cs)).map fun (value, rest) => (.scalar value, rest)
      else (keyword? (c :: cs)).map fun (value, rest) => (.scalar value, rest)

theorem token?_length {c : Char} {cs rest : List Char} {token : Token}
    (h : token? c cs = some (token, rest)) : rest.length ≤ cs.length := by
  unfold token? at h
  split at h
  case h_7 =>
    obtain ⟨⟨body, tail⟩, hbody, hparts⟩ := Option.map_eq_some_iff.mp h
    have hlt := stringBody?_length hbody
    obtain ⟨-, rfl⟩ := Prod.mk.inj hparts
    exact Nat.le_of_lt hlt
  case h_8 =>
    obtain ⟨⟨value, tail⟩, hvalue, hparts⟩ := Option.map_eq_some_iff.mp h
    have hlt := number?_length hvalue
    obtain ⟨-, rfl⟩ := Prod.mk.inj hparts
    exact Nat.le_of_lt hlt
  case h_9 =>
    split at h
    · obtain ⟨⟨value, tail⟩, hvalue, hparts⟩ := Option.map_eq_some_iff.mp h
      have hlt := number?_length hvalue
      obtain ⟨-, rfl⟩ := Prod.mk.inj hparts
      exact Nat.le_of_lt_succ hlt
    · obtain ⟨⟨value, tail⟩, hvalue, hparts⟩ := Option.map_eq_some_iff.mp h
      have hlt := keyword?_length hvalue
      obtain ⟨-, rfl⟩ := Prod.mk.inj hparts
      exact Nat.le_of_lt_succ hlt
  all_goals
    simp only [Option.some.injEq, Prod.mk.injEq] at h
    obtain ⟨-, rfl⟩ := h
    exact Nat.le_refl _

def tokens? (cs : List Char) : Option (List Token) :=
  match cs with
  | [] => some []
  | c :: cs =>
      if isSpace c then tokens? cs
      else
        match _htoken : token? c cs with
        | none => none
        | some (token, rest) => (tokens? rest).map (token :: ·)
termination_by cs.length
decreasing_by
  · simp
  · have hle := token?_length _htoken
    simp only [List.length_cons]
    omega

/-- An array or object that is still open: what it holds so far, the last first, and for an object
the name of the member whose value is being read. -/
inductive Frame where
  | array (items : List Json)
  | object (members : List (String × Json)) (name : String)

/-- What has been read, and with it what may follow. -/
inductive State where
  | value (frames : List Frame)
  | itemOrClose (frames : List Frame)
  | nameOrClose (frames : List Frame)
  | name (members : List (String × Json)) (frames : List Frame)
  | colon (members : List (String × Json)) (name : String) (frames : List Frame)
  | after (value : Json) (frames : List Frame)

/-- No more than this many arrays and objects are open at a time. -/
def maxDepth : Nat := 127

def begin? (frames : List Frame) : Token → Option State
  | .scalar value => some (.after value frames)
  | .string value => some (.after (string value) frames)
  | .openArray => if frames.length < maxDepth then some (.itemOrClose frames) else none
  | .openObject => if frames.length < maxDepth then some (.nameOrClose frames) else none
  | _ => none

def step? (state : State) (token : Token) : Option State :=
  match state, token with
  | .value frames, token => begin? frames token
  | .itemOrClose frames, .closeArray => some (.after (array []) frames)
  | .itemOrClose frames, token => begin? (.array [] :: frames) token
  | .nameOrClose frames, .closeObject => some (.after (object []) frames)
  | .nameOrClose frames, .string name => some (.colon [] name frames)
  | .name members frames, .string name => some (.colon members name frames)
  | .colon members name frames, .colon => some (.value (.object members name :: frames))
  | .after value (.array items :: frames), .comma =>
      some (.value (.array (value :: items) :: frames))
  | .after value (.array items :: frames), .closeArray =>
      some (.after (array (value :: items).reverse) frames)
  | .after value (.object members name :: frames), .comma =>
      some (.name ((name, value) :: members) frames)
  | .after value (.object members name :: frames), .closeObject =>
      some (.after (ofMembers ((name, value) :: members).reverse) frames)
  | _, _ => none

def ofTokens? (tokens : List Token) : Option Json :=
  match tokens.foldlM step? (.value []) with
  | some (.after value []) => some value
  | _ => none

def ofText? (text : String) : Option Json := (tokens? text.toList).bind ofTokens?

end DocShell.Json
