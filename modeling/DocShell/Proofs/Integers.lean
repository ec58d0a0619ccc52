import DocShell.Proofs.Slots
import Mathlib.Data.Nat.Digits.Defs

namespace DocShell.Number

open DocShell.Number.Decimal

/-- A sign or none, and digits, which may begin with zeros. -/
structure Numeral where
  negative : Bool
  digits : List (Fin 10)
  digits_ne_nil : digits ≠ []

namespace Numeral

def text (numeral : Numeral) : List Char :=
  (if numeral.negative then ['-'] else []) ++ numeral.digits.map fun digit : Fin 10 => digitChar digit.val

def magnitude (numeral : Numeral) : Nat := Nat.ofDigits 10 (numeral.digits.reverse.map Fin.val)

def value (numeral : Numeral) : Int :=
  if numeral.negative then -numeral.magnitude else numeral.magnitude

end Numeral

namespace Decimal

/-- Digits are read from the left and counted from the right. -/
theorem ofDigits_map_digitChar (written : List (Fin 10)) :
    ofDigits (written.map fun digit : Fin 10 => digitChar digit.val) =
      Nat.ofDigits 10 (written.reverse.map Fin.val) := by
  induction written with
  | nil => rfl
  | cons digit written ih =>
      rw [List.map_cons, ofDigits_cons, ih, digitValue_digitChar digit.isLt, List.length_map,
        List.reverse_cons, List.map_append, Nat.ofDigits_append, List.map_singleton,
        Nat.ofDigits_singleton, List.length_map, List.length_reverse]
      ring

theorem digitChar_digitValue {c : Char} (h : c.isDigit = true) : digitChar (digitValue c) = c := by
  simp only [Char.isDigit, Bool.and_eq_true, decide_eq_true_eq] at h
  have hlow : '0'.toNat ≤ c.toNat := h.1
  rw [digitChar, digitValue, Nat.add_sub_cancel' hlow, Char.ofNat_toNat]

theorem exists_digits {written : List Char} (h : ∀ c ∈ written, c.isDigit = true) :
    ∃ digits : List (Fin 10), written = digits.map fun digit : Fin 10 => digitChar digit.val := by
  induction written with
  | nil => exact ⟨[], rfl⟩
  | cons c cs ih =>
      obtain ⟨hc, hcs⟩ := List.forall_mem_cons.mp h
      obtain ⟨digits, hdigits⟩ := ih hcs
      refine ⟨⟨digitValue c, digitValue_lt hc⟩ :: digits, ?_⟩
      rw [List.map_cons, ← hdigits, digitChar_digitValue hc]

end Decimal

namespace Numeral

variable (numeral : Numeral)

theorem isDigit_of_mem {c : Char}
    (h : c ∈ numeral.digits.map fun digit : Fin 10 => digitChar digit.val) : c.isDigit = true := by
  obtain ⟨digit, -, rfl⟩ := List.mem_map.mp h
  exact isDigit_digitChar digit.isLt

theorem head_digits : (numeral.digits.map fun digit : Fin 10 => digitChar digit.val).head? ≠ some '-' := by
  intro h
  have hdigit := numeral.isDigit_of_mem (List.mem_of_head? h)
  simp at hdigit

theorem toInt_text : toInt numeral.text = numeral.value := by
  have hdigits := ofDigits_map_digitChar numeral.digits
  cases hsign : numeral.negative with
  | true => simp [text, value, magnitude, hsign, toInt, hdigits]
  | false => simp [text, value, magnitude, hsign, toInt_of_head numeral.head_digits, hdigits]

theorem toInt64?_text {found : Int} : toInt64? numeral.text = some found ↔
    (-2 ^ 63 ≤ numeral.value ∧ numeral.value < 2 ^ 63) ∧ found = numeral.value := by
  rw [toInt64?_eq_some_iff, numeral.toInt_text]
  constructor
  · rintro ⟨rfl, hlow, hhigh⟩
    exact ⟨⟨by omega, by omega⟩, rfl⟩
  · rintro ⟨⟨hlow, hhigh⟩, rfl⟩
    exact ⟨rfl, by omega, by omega⟩

theorem toNat64?_text {found : Nat} : toNat64? numeral.text = some found ↔
    (numeral.negative = false ∧ numeral.value < 2 ^ 64) ∧ (found : Int) = numeral.value := by
  rw [toNat64?_eq_some_iff]
  cases hsign : numeral.negative with
  | true => simp [text, hsign]
  | false =>
      have htext : numeral.text = numeral.digits.map fun digit : Fin 10 => digitChar digit.val := by
        simp [text, hsign]
      have hvalue : numeral.value = ofDigits numeral.text := by
        rw [← toInt_of_head (htext ▸ numeral.head_digits), toInt_text]
      rw [hvalue]
      constructor
      · rintro ⟨-, rfl, hrange⟩
        exact ⟨⟨rfl, by omega⟩, rfl⟩
      · rintro ⟨⟨-, hrange⟩, hfound⟩
        exact ⟨htext ▸ numeral.head_digits, by omega, by omega⟩

end Numeral

end DocShell.Number

namespace DocShell.Query

open DocShell.Number

theorem exists_numeral {first : Bool} {cs : List Char} {literal : String}
    (h : ⟨.int, literal⟩ ∈ tokensFrom first cs) :
    ∃ numeral : Numeral, literal.toList = numeral.text := by
  obtain ⟨first, c, cs, -, htoken⟩ := exists_frontLexeme h
  have hmunched := munch_munched first c cs
  simp only [frontLexeme, Lexeme.token, Token.mk.injEq] at htoken
  generalize munch first c cs = found at htoken hmunched
  obtain ⟨hkind, hliteral⟩ := htoken
  cases hmunched with
  | command =>
      rcases ofCommand_eq (c :: cs.takeWhile isWordChar) with ⟨_, hcommand⟩ | hcommand <;> simp_all
  | string => cases hkind
  | number hnumber =>
      have hsource : literal.toList = c :: (number cs).2.1 := by
        rw [hliteral, ← hkind]
        exact String.toList_ofList
      have hdigits : (number cs).2.1 = cs.takeWhile Char.isDigit := by
        unfold number at hkind ⊢
        split at hkind
        · cases hkind
        · rfl
      have hall : ∀ d ∈ cs.takeWhile Char.isDigit, d.isDigit = true :=
        fun d hd => List.mem_takeWhile_imp hd
      rw [hsource, hdigits]
      rcases hnumber with hc | ⟨rfl, hcs⟩
      · obtain ⟨digits, hwritten⟩ := Decimal.exists_digits (List.forall_mem_cons.mpr ⟨hc, hall⟩)
        refine ⟨⟨false, digits, ?_⟩, hwritten⟩
        rintro rfl
        cases hwritten
      · obtain ⟨digits, hwritten⟩ := Decimal.exists_digits hall
        refine ⟨⟨true, digits, ?_⟩, by rw [hwritten]; rfl⟩
        rintro rfl
        cases cs with
        | nil => cases hcs
        | cons d ds =>
            have hd : d.isDigit = true := by simpa using hcs
            simp [hd] at hwritten
  | word =>
      rcases ofWord_eq (c :: cs.takeWhile isWordChar) with ⟨_, hword⟩ | hword <;> simp_all
  | punctuation => cases hkind
  | comparison => rcases comparison_kind c cs with ⟨_, hsign⟩ | hsign <;> simp_all

/-- The places of whole numbers: the value of a filter, an item of its list, and the limit. -/
inductive Place where
  | value (operator : Operator) (index : Nat)
  | element (operator : Operator) (index item : Nat)
  | limit

namespace Place

def Admits (numeral : Numeral) : Place → Prop
  | limit => numeral.negative = false ∧ numeral.value < 2 ^ 64
  | _ => -2 ^ 63 ≤ numeral.value ∧ numeral.value < 2 ^ 63

def kind : Place → LiteralKind
  | limit => .limit
  | _ => .integer

end Place

def Scalar.int? : Scalar → Option Int
  | int value => some value
  | _ => none

namespace FilterValue

def scalar? : FilterValue → Option Scalar
  | scalar value => some value
  | _ => none

def items? : FilterValue → Option (List Scalar)
  | array items => some items
  | _ => none

theorem isArray_of_scalar? {found : FilterValue} (h : found.scalar?.isSome) :
    found.isArray = false := by
  cases found with
  | scalar => rfl
  | _ => cases h

theorem isArray_of_items? {found : FilterValue} {pick : List Scalar → Option Scalar}
    (h : (found.items?.bind pick).isSome) : found.isArray = true := by
  cases found with
  | array => rfl
  | _ => cases h

end FilterValue

/-- The whole number at a place of an operation. -/
def Operation.integer? (operation : Operation) : Place → Option Int
  | .value _ index => do
      let filter ← operation.filters[index]?
      let value ← filter.value.scalar?
      value.int?
  | .element _ index item => do
      let filter ← operation.filters[index]?
      let items ← filter.value.items?
      let value ← items[item]?
      value.int?
  | .limit => operation.limit?.map Int.ofNat

/-- What stands in front of a place. -/
inductive Awaits : List Token → Place → Prop where
  | value {front operator index} : OperandFront operator index front →
      Awaits front (.value operator index)
  | element {front operator index opening tokens items} : OperandFront operator index front →
      Led ScalarPhrase (.punctuation .comma) tokens items →
      Awaits (front ++ ⟨.punctuation .openBracket, opening⟩ :: tokens)
        (.element operator index items.length)
  | limit {front} : ClauseFront .limit front → Awaits front .limit

/-- What is still missing behind a place if the line is to end there. -/
inductive Place.ClosedBy : Place → List Token → Prop where
  | value {operator index} : operator.takesArray = false → ClosedBy (.value operator index) []
  | element {operator index item closing} : operator.takesArray = true →
      ClosedBy (.element operator index item) [⟨.punctuation .closeBracket, closing⟩]
  | limit : ClosedBy .limit []

namespace Rule

theorem slot_scalar : Slot .int value [] (scalar .filterValue) FilterValue.scalar? := by
  have hscalar : Slot .int (FilterValue.scalar <$> scalar .filterValue) [] (scalar .filterValue)
      FilterValue.scalar? := (Slot.refl .int _).map fun found value h => h
  exact hscalar.of_eq fun literal back => rfl

theorem slot_item {tokens : List Token} {items : List Scalar}
    (hled : Led ScalarPhrase (.punctuation .comma) tokens items) (opening : String) :
    Slot .int value (⟨.punctuation .openBracket, opening⟩ :: tokens) (scalar .arrayElement)
      fun found => found.items?.bind fun all => all[items.length]? := by
  have hseparated := (Slot.refl .int (scalar .arrayElement)).separated (scalar_advances _)
    (reads_scalar _) (by simp) hled
  have hitems : Slot .int (separated (scalar .arrayElement) (scalar_advances _)
      (.punctuation .comma) >>= fun all => expect (.punctuation .closeBracket) >>= fun _ => pure all)
      (tokens ++ []) (scalar .arrayElement) fun found =>
        (some found).bind fun all => all[items.length]?.bind some := by
    refine hseparated.bind fun all ahead result rest hresult => ?_
    obtain ⟨closing, middle, hclosing, hresult⟩ := bind_eq_ok hresult
    obtain ⟨rfl, rfl⟩ := pure_eq_ok.mp hresult
    exact ⟨rfl, fun all' _ _ => ⟨all', bind_of_ok hclosing⟩⟩
  have harray : Slot .int array tokens (scalar .arrayElement) fun all => all[items.length]? := by
    simp only [List.append_nil, Option.bind_some, Option.bind_fun_some] at hitems
    refine hitems.of_eq fun literal back => ?_
    refine bind_of_ok (optional_of_avoids ?_)
    cases hled with
    | nil => exact avoids_cons.mpr (by simp)
    | cons hfirst _ => cases hfirst <;> exact avoids_cons.mpr (by simp)
  have hvalue : Slot .int (FilterValue.array <$> array) tokens (scalar .arrayElement)
      fun found => found.items?.bind fun all => all[items.length]? :=
    harray.map fun found value h => h
  exact hvalue.of_eq fun literal back => rfl

theorem slot_limit : Slot .int (body .limit) [] limit ClauseBody.limit? :=
  (Slot.refl .int limit).map fun _ _ h => h

theorem scalar_int (kind : LiteralKind) (literal : String) (back : List Token) :
    scalar kind (⟨.int, literal⟩ :: back) =
      match Decimal.toInt64? literal.toList with
      | some value => .ok (.int value) back
      | none => .error (.invalidLiteral .integer literal) back := rfl

theorem limit_int (literal : String) (back : List Token) :
    limit (⟨.int, literal⟩ :: back) =
      match Decimal.toNat64? literal.toList with
      | some number => .ok number back
      | none => .error (.invalidLiteral .limit literal) back := by
  refine (bind_of_ok (expect_eq_ok.mpr rfl)).trans ?_
  cases Decimal.toNat64? literal.toList <;> rfl

end Rule

open Rule

/-- A rule reads a numeral that a place admits as its value, and refuses every other one. -/
structure Place.Takes {β : Type} (place : Place) (rule : Rule β) (int? : β → Option Int) : Prop where
  admitted : ∀ {numeral : Numeral} {literal : String}, literal.toList = numeral.text →
    place.Admits numeral → ∀ back, ∃ found,
      rule (⟨.int, literal⟩ :: back) = .ok found back ∧ int? found = some numeral.value
  refused : ∀ {numeral : Numeral} {literal : String}, literal.toList = numeral.text →
    ¬place.Admits numeral → ∀ back,
      rule (⟨.int, literal⟩ :: back) = .error (.invalidLiteral place.kind literal) back

theorem takes_scalar {place : Place} (hplace : place ≠ .limit) (kind : LiteralKind) :
    place.Takes (scalar kind) Scalar.int? := by
  have hadmits : ∀ numeral, place.Admits numeral ↔
      -2 ^ 63 ≤ numeral.value ∧ numeral.value < 2 ^ 63 := by
    cases place with
    | limit => exact absurd rfl hplace
    | _ => exact fun numeral => Iff.rfl
  have hkind : place.kind = .integer := by
    cases place with
    | limit => exact absurd rfl hplace
    | _ => rfl
  constructor
  · intro numeral literal hliteral h back
    have hvalue := numeral.toInt64?_text.mpr ⟨(hadmits numeral).mp h, rfl⟩
    exact ⟨.int numeral.value, by rw [scalar_int, hliteral, hvalue], rfl⟩
  · intro numeral literal hliteral h back
    have hvalue : Decimal.toInt64? numeral.text = none :=
      Option.eq_none_iff_forall_ne_some.mpr fun found hfound =>
        h ((hadmits numeral).mpr (numeral.toInt64?_text.mp hfound).1)
    rw [scalar_int, hliteral, hvalue, hkind]

theorem takes_limit : Place.limit.Takes limit (some ∘ Int.ofNat) := by
  constructor
  · intro numeral literal hliteral h back
    have hnonneg : 0 ≤ numeral.value := by simp [Numeral.value, h.1]
    have hvalue := numeral.toNat64?_text.mpr ⟨h, Int.toNat_of_nonneg hnonneg⟩
    refine ⟨numeral.value.toNat, by rw [limit_int, hliteral, hvalue], ?_⟩
    exact congrArg some (Int.toNat_of_nonneg hnonneg)
  · intro numeral literal hliteral h back
    have hvalue : Decimal.toNat64? numeral.text = none :=
      Option.eq_none_iff_forall_ne_some.mpr fun found hfound =>
        h (numeral.toNat64?_text.mp hfound).1
    rw [limit_int, hliteral, hvalue]
    rfl

section Lines

variable {front back : List Token} {place : Place}

theorem Awaits.exists_slot (h : Awaits front place) :
    ∃ (β : Type) (rule : Rule β) (int? : β → Option Int) (view : Operation → Option β),
      Slot .int wholeLine front rule view ∧ place.Takes rule int? ∧
        ∀ operation, operation.integer? place = (view operation).bind int? := by
  cases h with
  | @value _ operator index hfront =>
      have hslot := hfront.slot slot_scalar fun found found' h h' =>
        (FilterValue.isArray_of_scalar? h).trans (FilterValue.isArray_of_scalar? h').symm
      rw [List.append_nil] at hslot
      refine ⟨Scalar, _, Scalar.int?, _, hslot, takes_scalar (by simp) _, fun operation => ?_⟩
      exact (Option.bind_assoc ..).symm
  | @element front operator index opening tokens items hfront hled =>
      have hslot := hfront.slot (slot_item hled opening) fun found found' h h' =>
        (FilterValue.isArray_of_items? h).trans (FilterValue.isArray_of_items? h').symm
      refine ⟨Scalar, _, Scalar.int?, _, hslot, takes_scalar (by simp) _, fun operation => ?_⟩
      simp only [Operation.integer?, Option.bind_assoc]
      rfl
  | limit hfront =>
      have hslot : Slot .int wholeLine (front ++ []) Rule.limit Operation.limit? := by
        refine hfront.slot slot_limit fun request path bodies found others value hsub hvalue => ?_
        cases found with
        | limit number =>
            have hmem := Request.not_mem_of_sublist hsub
            have hclauses : Clause.limit ∈ request.clauses := hsub.subset (by simp)
            cases request with
            | query =>
                rw [← hvalue]
                exact congrArg some (limit_ofClauses path others hmem number)
            | _ => simp [Request.clauses] at hclauses
        | _ => cases hvalue
      rw [List.append_nil] at hslot
      refine ⟨Nat, Rule.limit, some ∘ Int.ofNat, _, hslot, takes_limit, fun operation => ?_⟩
      exact Option.map_eq_bind ..

theorem Awaits.exists_operation (h : Awaits front place) (hclosed : place.ClosedBy back)
    {numeral : Numeral} {literal : String} (hliteral : literal.toList = numeral.text)
    (hadmits : place.Admits numeral) :
    ∃ operation, OperationPhrase (front ++ ⟨.int, literal⟩ :: back) operation := by
  have hscalar : -2 ^ 63 ≤ numeral.value ∧ numeral.value < 2 ^ 63 →
      ScalarPhrase [⟨.int, literal⟩] (.int numeral.value) := by
    rintro ⟨hlow, hhigh⟩
    exact .int (hliteral ▸ numeral.toInt_text) (by omega) (by omega)
  cases h with
  | @value _ operator index hfront =>
      cases hclosed with
      | value hfit => exact hfront.exists_operation (.scalar (hscalar hadmits)) hfit
  | @element front operator index opening tokens items hfront hled =>
      cases hclosed with
      | @element _ _ _ closing hfit =>
          have hitems := hled.separated (hscalar hadmits)
          have hline := hfront.exists_operation
            (@ValuePhrase.array _ _ opening closing hitems) hfit
          simpa using hline
  | limit hfront =>
      cases hclosed with
      | limit =>
          have hvalue := numeral.toNat64?_text.mpr
            ⟨hadmits, Int.toNat_of_nonneg (by simp [Numeral.value, hadmits.1])⟩
          rw [← hliteral, Decimal.toNat64?_eq_some_iff] at hvalue
          obtain ⟨hsign, hdigits, hrange⟩ := hvalue
          exact hfront.exists_operation rfl fun word => .limit hsign (hdigits ▸ hrange)

theorem mem_tokensFrom_of_tokens {line : List Char} {token : Token} (h : token ∈ tokens line)
    (hend : token.kind ≠ .endOfInput) : token ∈ tokensFrom true line := by
  rw [tokens_eq] at h
  rcases List.mem_append.mp h with h | h
  · exact h
  · rw [List.mem_singleton.mp h] at hend
    exact absurd rfl hend

theorem exists_numeral_of_tokens {line literal : String}
    (hline : tokens line.toList = front ++ ⟨.int, literal⟩ :: back) :
    ∃ numeral : Numeral, literal.toList = numeral.text := by
  have hmem : ⟨.int, literal⟩ ∈ tokens line.toList := by simp [hline]
  exact exists_numeral (mem_tokensFrom_of_tokens hmem (by simp))

section Place

variable {β : Type} {rule : Rule β} {int? : β → Option Int} {view : Operation → Option β}
  (hslot : Slot .int wholeLine front rule view) (htakes : place.Takes rule int?)
  {line literal : String} (hline : tokens line.toList = front ++ ⟨.int, literal⟩ :: back)
  {numeral : Numeral} (hliteral : literal.toList = numeral.text)

include hslot htakes hline hliteral

theorem parse_of_not_admits (h : ¬place.Admits numeral) :
    parse line = .error (.invalidLiteral place.kind literal) := by
  have hrefused := hslot.refused (htakes.refused hliteral h back)
  rw [parse_eq_wholeLine, hline, outcome, hrefused]

theorem admits_of_parse {operation : Operation} (h : parse line = .ok operation) :
    place.Admits numeral ∧ (view operation).bind int? = some numeral.value := by
  have hadmits : place.Admits numeral := by
    refine Classical.byContradiction fun hnot => ?_
    rw [parse_of_not_admits hslot htakes hline hliteral hnot] at h
    cases h
  obtain ⟨found, hfound, hvalue⟩ := htakes.admitted hliteral hadmits back
  rw [parse_eq_wholeLine, hline] at h
  rw [hslot.accepted hfound (run_of_outcome_eq_ok h)]
  exact ⟨hadmits, hvalue⟩

theorem parse_of_exchanged (h : place.Admits numeral) {line' literal' : String}
    (hline' : tokens line'.toList = front ++ ⟨.int, literal'⟩ :: back)
    (hparse : ∃ operation, parse line' = .ok operation) : ∃ operation, parse line = .ok operation := by
  obtain ⟨operation, hparse⟩ := hparse
  obtain ⟨numeral', hliteral'⟩ := exists_numeral_of_tokens hline'
  have h' := (admits_of_parse hslot htakes hline' hliteral' hparse).1
  obtain ⟨found, hfound, -⟩ := htakes.admitted hliteral h back
  obtain ⟨found', hfound', -⟩ := htakes.admitted hliteral' h' back
  rw [parse_eq_wholeLine, hline'] at hparse
  obtain ⟨result, hresult⟩ := hslot.exchange hfound' hfound (run_of_outcome_eq_ok hparse)
  refine ⟨result, ?_⟩
  rw [parse_eq_wholeLine, hline, outcome, hresult]

end Place

/-- At every place a whole number is exact or refused: what is admitted there is found in the
operation as its value, nothing else is taken for it, and the line is accepted or not whichever of
the admitted numerals it has. -/
theorem parse_of_int {line literal : String} (hfront : Awaits front place)
    (hline : tokens line.toList = front ++ ⟨.int, literal⟩ :: back) :
    ∃ numeral : Numeral, literal.toList = numeral.text ∧
      (¬place.Admits numeral → parse line = .error (.invalidLiteral place.kind literal)) ∧
      (∀ operation, parse line = .ok operation →
        place.Admits numeral ∧ operation.integer? place = some numeral.value) ∧
      (place.Admits numeral → ∀ closing, place.ClosedBy closing → back = closing ++ [Token.atEnd] →
        ∃ operation, parse line = .ok operation) ∧
      (place.Admits numeral → ∀ line' literal' : String,
        tokens line'.toList = front ++ ⟨.int, literal'⟩ :: back →
        (∃ operation, parse line' = .ok operation) → ∃ operation, parse line = .ok operation) := by
  obtain ⟨numeral, hliteral⟩ := exists_numeral_of_tokens hline
  obtain ⟨β, rule, int?, view, hslot, htakes, hview⟩ := hfront.exists_slot
  refine ⟨numeral, hliteral, parse_of_not_admits hslot htakes hline hliteral,
    fun operation hparse => ?_, fun hadmits closing hclosed hback => ?_,
    fun hadmits line' literal' hline' => ?_⟩
  · rw [hview]
    exact admits_of_parse hslot htakes hline hliteral hparse
  · obtain ⟨operation, hphrase⟩ := hfront.exists_operation hclosed hliteral hadmits
    refine ⟨operation, (parse_eq_ok_iff line operation).mpr ?_⟩
    rw [hline, hback, ← List.cons_append, ← List.append_assoc, List.dropLast_concat]
    exact hphrase
  · exact parse_of_exchanged hslot htakes hline hliteral hadmits hline'

end Lines

/-- The least number that there is has its place in a list. -/
theorem parse_of_int_least : ∃ operation,
    parse "COUNT a WHERE b == 0 AND c IN [-007, -9223372036854775808]" = .ok operation ∧
      operation.integer? (.element .memberOf 1 1) = some (-0x8000000000000000) := by
  have hclause : ClauseFront .filter [⟨.keyword .count, "COUNT"⟩, ⟨.word, "a"⟩,
      ⟨.keyword .whereWord, "WHERE"⟩] :=
    @ClauseFront.mk _ .count "COUNT" "a" [] [] "WHERE" (by decide) (by decide) .nil (by decide)
  have hfilter : FilterPhrase [⟨.word, "b"⟩, ⟨.comparison .equal, "=="⟩, ⟨.int, "0"⟩]
      ⟨"b", .compare .equal, .scalar (.int 0)⟩ :=
    .compare .compare (.scalar (.int (by decide) (by decide) (by decide))) rfl
  have hitem : ScalarPhrase [⟨.int, "-007"⟩] (.int (-7)) :=
    .int (by decide) (by decide) (by decide)
  have hfront : Awaits [⟨.keyword .count, "COUNT"⟩, ⟨.word, "a"⟩, ⟨.keyword .whereWord, "WHERE"⟩,
      ⟨.word, "b"⟩, ⟨.comparison .equal, "=="⟩, ⟨.int, "0"⟩, ⟨.keyword .andWord, "AND"⟩,
      ⟨.word, "c"⟩, ⟨.keyword .inWord, "IN"⟩, ⟨.punctuation .openBracket, "["⟩, ⟨.int, "-007"⟩,
      ⟨.punctuation .comma, ","⟩] (.element .memberOf 1 1) :=
    .element (.mk hclause (.cons hfilter .nil) .memberOf) (.cons hitem .nil)
  obtain ⟨numeral, htext, -, hexact, haccepted, -⟩ :=
    @parse_of_int _ [⟨.punctuation .closeBracket, "]"⟩, Token.atEnd] _
      "COUNT a WHERE b == 0 AND c IN [-007, -9223372036854775808]" "-9223372036854775808" hfront
      (by decide +kernel)
  have hvalue : numeral.value = -0x8000000000000000 := by
    rw [← numeral.toInt_text, ← htext]
    decide
  have hadmits : (Place.element .memberOf 1 1).Admits numeral := by
    simp only [Place.Admits, hvalue]
    decide
  obtain ⟨operation, hparse⟩ := haccepted hadmits [⟨.punctuation .closeBracket, "]"⟩]
    (.element rfl) rfl
  exact ⟨operation, hparse, hvalue ▸ (hexact operation hparse).2⟩

end DocShell.Query
