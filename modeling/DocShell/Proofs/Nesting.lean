import DocShell.Proofs.Balance
import DocShell.Proofs.Recognition

/-!
The brackets of a line tell what the grammar has read of it: whatever it accepts is balanced, and
where a line ends inside a list or a point in time one bracket is open.
Main statement: a line that denotes an operation stays open only for a string, and a line that
ends inside a bracket stays open.
-/

namespace DocShell.Query

open DocShell.Number
open DocShell.Text.Ascii

variable {α β : Type}

/-- The line ends inside a list, or inside the brackets of a point in time. -/
def ParseError.endsInside : ParseError → Bool
  | unexpectedToken (.kind (.punctuation .closeBracket)) found => found == .atEnd
  | unexpectedToken (.kind (.punctuation .closeParen)) found => found == .atEnd
  | unexpectedToken (.kind .string) found => found == .atEnd
  | invalidLiteral .arrayElement literal => literal == ""
  | _ => false

namespace Rule

/-- The next token, if there is one, stands for no text. -/
def Ended (ahead : List Token) : Prop :=
  ∀ token ∈ ahead.head?, token.kind ≠ .string ∧ token.literal = ""

/-- How deep into brackets a rule leads: `read` is the balance of what it reads if it succeeds, and
`left` that of all up to the end of a line that ends inside a bracket. -/
structure Nests (rule : Rule α) (ahead : List Token) (read left : Int) : Prop where
  ok : ∀ {value rest}, rule ahead = .ok value rest →
    ∃ front, ahead = front ++ rest ∧ balance front = read
  error : ∀ {cause rest}, rule ahead = .error cause rest → cause.endsInside = true →
    ∃ front back, ahead = front ++ back ∧ balance front = left ∧ Ended back

section Constructions

variable {ahead : List Token} {read left : Int}

theorem nests_of_ok {rule : Rule α} {rest : List Token} {value : α}
    (h : rule ahead = .ok value rest) (front : List Token) (hahead : ahead = front ++ rest)
    (hfront : balance front = read) : Nests rule ahead read left where
  ok := by
    intro value' rest' hrun
    rw [h] at hrun
    cases hrun
    exact ⟨front, hahead, hfront⟩
  error := by
    intro cause rest' hrun
    rw [h] at hrun
    cases hrun

theorem nests_of_failure {rule : Rule α} {cause : ParseError} {rest : List Token}
    (h : rule ahead = .error cause rest) (hends : cause.endsInside = true →
      ∃ front back, ahead = front ++ back ∧ balance front = left ∧ Ended back) :
    Nests rule ahead read left where
  ok := by
    intro value rest' hrun
    rw [h] at hrun
    cases hrun
  error := by
    intro cause' rest' hrun hcause
    rw [h] at hrun
    cases hrun
    exact hends hcause

theorem nests_of_error {rule : Rule α} {cause : ParseError} {rest : List Token}
    (h : rule ahead = .error cause rest) (hcause : cause.endsInside = false) :
    Nests rule ahead read left := by
  apply nests_of_failure h
  intro hends
  rw [hcause] at hends
  cases hends

theorem nests_of_ended {rule : Rule α} {cause : ParseError} {rest : List Token}
    (h : rule ahead = .error cause rest) (hended : cause.endsInside = true → Ended ahead) :
    Nests rule ahead read 0 :=
  nests_of_failure h fun hends => ⟨[], ahead, rfl, rfl, hended hends⟩

theorem nests_pure (value : α) (hread : read = 0) : Nests (pure value) ahead read left :=
  nests_of_ok rfl [] rfl hread.symm

theorem nests_throw {cause : ParseError} (h : cause.endsInside = false) :
    Nests (throw cause : Rule α) ahead read left :=
  nests_of_error rfl h

/-- What is left to the second rule is what the first one did not do. -/
theorem Nests.bind {rule : Rule α} {next : α → Rule β} {first : Int}
    (h : Nests rule ahead first left)
    (hnext : ∀ value middle, rule ahead = .ok value middle →
      Nests (next value) middle (read - first) (left - first)) :
    Nests (rule >>= next) ahead read left where
  ok := by
    intro value rest hrun
    obtain ⟨found, middle, hfirst, hsecond⟩ := bind_eq_ok hrun
    obtain ⟨front, rfl, hfront⟩ := h.ok hfirst
    obtain ⟨back, rfl, hback⟩ := (hnext found _ hfirst).ok hsecond
    refine ⟨front ++ back, by simp, ?_⟩
    rw [balance_append, hfront, hback]
    omega
  error := by
    intro cause rest hrun hcause
    cases hfirst : rule ahead with
    | error cause' middle =>
        rw [bind_of_error hfirst] at hrun
        cases hrun
        exact h.error hfirst hcause
    | ok found middle =>
        rw [bind_of_ok hfirst] at hrun
        obtain ⟨front, rfl, hfront⟩ := h.ok hfirst
        obtain ⟨front', back, rfl, hfront', hback⟩ := (hnext found _ hfirst).error hrun hcause
        refine ⟨front ++ front', back, by simp, ?_, hback⟩
        rw [balance_append, hfront, hfront']
        omega

theorem Nests.map {rule : Rule α} (h : Nests rule ahead read left) (f : α → β) :
    Nests (f <$> rule) ahead read left where
  ok := by
    intro value rest hrun
    obtain ⟨first, hfirst, -⟩ := map_eq_ok hrun
    exact h.ok hfirst
  error := by
    intro cause rest hrun hcause
    cases hfirst : rule ahead with
    | ok first middle =>
        rw [map_of_ok hfirst] at hrun
        cases hrun
    | error cause' middle =>
        rw [map_of_error hfirst] at hrun
        cases hrun
        exact h.error hfirst hcause

theorem Nests.congr {rule rule' : Rule α} (h : Nests rule ahead read left)
    (hrun : rule' ahead = rule ahead) : Nests rule' ahead read left where
  ok := by
    intro value rest hvalue
    rw [hrun] at hvalue
    exact h.ok hvalue
  error := by
    intro cause rest hcause
    rw [hrun] at hcause
    exact h.error hcause

theorem Nests.cons {rule rule' : Rule α} {token : Token}
    (h : Nests rule ahead (read - token.kind.depth) (left - token.kind.depth))
    (hrun : rule' (token :: ahead) = rule ahead) : Nests rule' (token :: ahead) read left where
  ok := by
    intro value rest hvalue
    rw [hrun] at hvalue
    obtain ⟨front, rfl, hfront⟩ := h.ok hvalue
    exact ⟨token :: front, rfl, by rw [balance_cons, hfront]; omega⟩
  error := by
    intro cause rest hcause hends
    rw [hrun] at hcause
    obtain ⟨front, back, rfl, hfront, hback⟩ := h.error hcause hends
    exact ⟨token :: front, back, rfl, by rw [balance_cons, hfront]; omega, hback⟩

end Constructions

theorem eq_atEnd_of_endsInside {kind : TokenKind} {found : Token}
    (h : (ParseError.unexpectedToken (.kind kind) found).endsInside = true) : found = .atEnd := by
  unfold ParseError.endsInside at h
  split at h <;> simp_all

section Rules

variable {ahead : List Token} {left : Int}

/-- A token that has to be there. If it is missing where the line ends, nothing of it is read. -/
theorem nests_expect (kind : TokenKind) : Nests (expect kind) ahead kind.depth 0 := by
  rcases ahead with _ | ⟨⟨kind', literal⟩, rest⟩
  · exact nests_of_ended rfl fun _ => by simp [Ended]
  · by_cases hkind : kind' = kind
    · exact nests_of_ok (if_pos hkind) [_] rfl (by simp [hkind])
    · refine nests_of_ended (if_neg hkind) fun hends => ?_
      rw [eq_atEnd_of_endsInside hends]
      simp [Ended, Token.atEnd]

theorem nests_expect_outside {kind : TokenKind}
    (h : ∀ found, (ParseError.unexpectedToken (.kind kind) found).endsInside = false) :
    Nests (expect kind) ahead kind.depth left := by
  rcases ahead with _ | ⟨⟨kind', literal⟩, rest⟩
  · exact nests_of_error rfl (h _)
  · by_cases hkind : kind' = kind
    · exact nests_of_ok (if_pos hkind) [_] rfl (by simp [hkind])
    · exact nests_of_error (if_neg hkind) (h _)

theorem nests_optional {kind : TokenKind} (h : kind.depth = 0) :
    Nests (optional kind) ahead 0 left := by
  rcases ahead with _ | ⟨⟨kind', literal⟩, rest⟩
  · exact nests_of_ok rfl [] rfl rfl
  · by_cases hkind : kind' = kind
    · exact nests_of_ok (if_pos hkind) [_] rfl (by simp [hkind, h])
    · exact nests_of_ok (if_neg hkind) [] rfl rfl

theorem nests_expectEnd : Nests expectEnd ahead 0 left := by
  cases ahead with
  | nil => exact nests_of_ok rfl [] rfl rfl
  | cons token rest =>
      by_cases hkind : token.kind = .endOfInput
      · exact nests_of_ok (if_pos hkind) [] rfl rfl
      · exact nests_of_error (if_neg hkind) rfl

theorem nests_separated {item : Rule α} (hitem : Advances item) {separator : TokenKind}
    (hseparator : separator.depth = 0) (h : ∀ ahead, Nests item ahead 0 left) :
    Nests (separated item hitem separator) ahead 0 left := by
  induction hlength : ahead.length using Nat.strongRecOn generalizing ahead with
  | ind length ih =>
      rw [separated_eq]
      refine (h ahead).bind fun value middle hvalue => ?_
      refine (nests_optional hseparator).bind fun found rest hfound => ?_
      have hshorter : rest.length < length := by
        have hmiddle := hitem ahead value middle hvalue
        have hrest := optional_keeps separator middle found rest hfound
        omega
      cases found with
      | none => exact nests_pure _ rfl
      | some literal => simpa using (ih rest.length hshorter rfl).map (value :: ·)

theorem nests_int (kind : LiteralKind) (literal : String) (rest : List Token) :
    Nests (scalar kind) (⟨.int, literal⟩ :: rest) 0 left := by
  cases hvalue : Decimal.toInt64? literal.toList with
  | some value => exact nests_of_ok (by simp only [scalar, hvalue]; rfl) [_] rfl rfl
  | none =>
      have hrun : scalar kind (⟨.int, literal⟩ :: rest) =
          .error (.invalidLiteral .integer literal) rest := by simp only [scalar, hvalue]
      exact nests_of_error hrun rfl

/-- An element of a list. If it is missing where the line ends, nothing of it is read. -/
theorem nests_arrayElement : Nests (scalar .arrayElement) ahead 0 0 := by
  rcases ahead with _ | ⟨⟨kind, literal⟩, rest⟩
  · exact nests_of_ended rfl fun _ => by simp [Ended]
  · cases kind with
    | int => exact nests_int _ literal rest
    | float | string => exact nests_of_ok rfl [_] rfl rfl
    | _ => exact nests_of_ended rfl fun hends => by simpa [Ended, ParseError.endsInside] using hends

theorem nests_filterValue : Nests (scalar .filterValue) ahead 0 left := by
  rcases ahead with _ | ⟨⟨kind, literal⟩, rest⟩
  · exact nests_of_error rfl rfl
  · cases kind with
    | int => exact nests_int _ literal rest
    | float | string => exact nests_of_ok rfl [_] rfl rfl
    | _ => exact nests_of_error rfl rfl

theorem nests_array : Nests array ahead (-1) 0 := by
  -- The first rule is no part of the chain: whether it reads a bracket decides what comes next.
  by_cases hclosed : Avoids [.punctuation .closeBracket] ahead
  · refine Nests.congr ?_ (bind_of_ok (optional_of_avoids hclosed))
    refine (nests_separated _ rfl fun _ => nests_arrayElement).bind fun items _ _ => ?_
    exact (nests_expect _).bind fun _ _ _ => nests_pure _ rfl
  · cases ahead with
    | nil => exact absurd (avoids_nil _) hclosed
    | cons token rest =>
        obtain ⟨kind, literal⟩ := token
        obtain rfl : kind = .punctuation .closeBracket := by simpa [avoids_cons] using hclosed
        exact nests_of_ok rfl [_] rfl rfl

theorem nests_timestamp : Nests timestamp ahead 0 1 := by
  have hopening : Nests (expect (.punctuation .openParen)) ahead 1 1 :=
    nests_expect_outside fun _ => rfl
  refine hopening.bind fun _ _ _ => ?_
  refine (nests_expect .string).bind fun raw _ _ => ?_
  refine (nests_expect (.punctuation .closeParen)).bind fun _ _ _ => ?_
  split
  · exact nests_pure _ rfl
  · exact nests_throw rfl

theorem nests_value : Nests value ahead 0 1 := by
  rcases ahead with _ | ⟨⟨kind, literal⟩, rest⟩
  · exact nests_of_error rfl rfl
  · cases kind with
    | int | float | string => exact (nests_filterValue.map FilterValue.scalar).congr rfl
    | word =>
        by_cases hname : isTimestampName literal
        · exact (nests_timestamp.map _).cons (if_pos hname)
        · exact nests_of_error (if_neg hname) rfl
    | punctuation mark =>
        cases mark with
        | openBracket => exact (nests_array.map FilterValue.array).cons rfl
        | _ => exact nests_of_error rfl rfl
    | _ => exact nests_of_error rfl rfl

theorem nests_operator : Nests operator ahead 0 left := by
  rcases ahead with _ | ⟨⟨kind, literal⟩, rest⟩
  · exact nests_of_error rfl rfl
  · cases hkind : Operator.ofKind? kind with
    | some found =>
        have hdepth : kind.depth = 0 := by
          cases ofKind?_eq_some_iff.mp hkind <;> rfl
        have hrun : operator (⟨kind, literal⟩ :: rest) = .ok found rest := by
          simp only [operator, hkind]
        exact nests_of_ok hrun [_] rfl (by simp [hdepth])
    | none =>
        have hrun : operator (⟨kind, literal⟩ :: rest) =
            if kind = .endOfInput then .error (.unexpectedToken .operator ⟨kind, literal⟩) rest
            else .error (.invalidOperator literal) rest := by simp only [operator, hkind]
        by_cases hend : kind = .endOfInput
        · exact nests_of_error (hrun.trans (if_pos hend)) rfl
        · exact nests_of_error (hrun.trans (if_neg hend)) rfl

theorem nests_filter : Nests filter ahead 0 1 := by
  refine (nests_expect_outside fun _ => rfl).bind fun field _ _ => ?_
  refine nests_operator.bind fun operator _ _ => ?_
  refine nests_value.bind fun value _ _ => ?_
  split
  · exact nests_pure _ rfl
  · exact nests_throw rfl

theorem nests_ordering : Nests ordering ahead 0 left := by
  refine (nests_expect_outside fun _ => rfl).bind fun field _ _ => ?_
  refine (nests_optional rfl).bind fun descending _ _ => ?_
  split
  · exact nests_pure _ rfl
  · exact (nests_optional rfl).bind fun _ _ _ => nests_pure _ rfl

theorem nests_limit : Nests limit ahead 0 left := by
  refine (nests_expect_outside fun _ => rfl).bind fun literal _ _ => ?_
  split
  · exact nests_pure _ rfl
  · exact nests_throw rfl

theorem nests_body (clause : Clause) : Nests (body clause) ahead 0 1 := by
  cases clause with
  | select => exact (nests_separated _ rfl fun _ => nests_expect_outside fun _ => rfl).map _
  | filter => exact (nests_separated _ rfl fun _ => nests_filter).map _
  | order =>
      refine (nests_expect_outside fun _ => rfl).bind fun _ _ _ => ?_
      exact (nests_separated _ rfl fun _ => nests_ordering).map _
  | limit => exact nests_limit.map _

theorem endsInside_misplaced (table : List Clause) (last : Option Clause) (token : Token) :
    (misplaced table last token).endsInside = false := by
  unfold misplaced
  split
  · split <;> rfl
  · rfl

theorem depth_opener (clause : Clause) : clause.opener.depth = 0 := by
  cases clause <;> rfl

theorem nests_clauses (table : List Clause) (last : Option Clause) (later : List Clause) :
    Nests (clauses table last later) ahead 0 1 := by
  induction hlength : later.length using Nat.strongRecOn generalizing later last ahead with
  | ind length ih =>
      cases ahead with
      | nil => exact nests_of_ok (clauses_of_atEnd (by simp [AtEnd])) [] rfl rfl
      | cons token rest =>
          by_cases hend : token.kind = .endOfInput
          · exact nests_of_ok (clauses_of_atEnd (by simpa [AtEnd] using hend)) [] rfl rfl
          · cases hfind : Clause.find? token.kind later with
            | none =>
                exact nests_of_error (clauses_of_not_find hend hfind rest)
                  (endsInside_misplaced ..)
            | some found =>
                obtain ⟨clause, later'⟩ := found
                have hshorter : later'.length < length := hlength ▸ Clause.find?_length hfind
                refine Nests.cons ?_ (clauses_of_find hfind rest)
                rw [← (Clause.find?_eq_some hfind).1, depth_opener]
                refine (nests_body clause).bind fun first _ _ => ?_
                exact (ih _ hshorter _ later' rfl).bind fun _ _ _ => nests_pure _ rfl

theorem nests_collection : Nests collection ahead 0 left := by
  refine (nests_expect_outside fun _ => rfl).bind fun raw _ _ => ?_
  dsimp only
  split
  · exact nests_throw rfl
  · exact nests_pure _ rfl

theorem nests_get : Nests get ahead 0 left := by
  refine (nests_expect_outside fun _ => rfl).bind fun raw _ _ => ?_
  split
  · exact nests_throw rfl
  · split
    · exact nests_throw rfl
    · exact nests_expectEnd.bind fun _ _ _ => nests_pure _ rfl

theorem nests_base : Nests base ahead 0 left := by
  refine (nests_optional rfl).bind fun found _ _ => ?_
  split
  · exact nests_pure _ rfl
  · dsimp only
    split
    · exact nests_pure _ rfl
    · exact nests_throw rfl

theorem nests_switch (command : String) : Nests (switch command) ahead 0 left := by
  cases ahead with
  | nil => exact nests_of_error rfl rfl
  | cons token rest =>
      by_cases hon : token.kind = .word ∧ sameLetters token.literal.toList "on".toList
      · exact nests_of_ok (if_pos hon) [token] rfl (by rw [balance_cons, hon.1]; rfl)
      · by_cases hoff : token.kind = .word ∧ sameLetters token.literal.toList "off".toList
        · exact nests_of_ok ((if_neg hon).trans (if_pos hoff)) [token] rfl
            (by rw [balance_cons, hoff.1]; rfl)
        · exact nests_of_error ((if_neg hon).trans (if_neg hoff)) rfl

/-- A line from the token on that it begins with, which is no bracket if the line is any good. -/
theorem nests_operation (token : Token) :
    Nests (operation token) ahead (-token.kind.depth) (1 - token.kind.depth) := by
  unfold operation
  split
  · exact nests_throw rfl
  · rename_i hkind
    rw [hkind]
    exact nests_base.bind fun path _ _ => nests_expectEnd.bind fun _ _ _ => nests_pure _ rfl
  · rename_i hkind
    rw [hkind]
    refine (nests_switch _).bind fun enabled _ _ => ?_
    exact nests_expectEnd.bind fun _ _ _ => nests_pure _ rfl
  · cases hrequest : Request.ofKind? token.kind with
    | none => exact nests_throw rfl
    | some request =>
        rw [opener_of_ofKind? hrequest]
        cases request with
        | query =>
            refine nests_collection.bind fun path _ _ => ?_
            exact (nests_clauses ..).bind fun _ _ _ => nests_pure _ rfl
        | get => exact nests_get
        | count =>
            refine nests_collection.bind fun path _ _ => ?_
            exact (nests_clauses ..).bind fun _ _ _ => nests_pure _ rfl

end Rules

end Rule

theorem literal_ne_of_mem_tokensFrom {first : Bool} {cs : List Char} {token : Token}
    (h : token ∈ tokensFrom first cs) (hkind : token.kind ≠ .string) : token.literal ≠ "" := by
  obtain ⟨first, c, cs, -, rfl⟩ := exists_frontLexeme h
  have hsource := Lexeme.literal_of_ne_string hkind
  intro hempty
  rw [show (frontLexeme first 0 c cs).literal = "" from hempty] at hsource
  cases hsource

/-- The end weighs nothing, and neither does what stands for no text. -/
theorem balance_tokens {cs : List Char} {token : Token} {front back : List Token}
    (h : tokens cs = token :: (front ++ back))
    (hback : ∀ next ∈ back.head?, next ∉ tokensFrom true cs) :
    balance (tokens cs) = token.kind.depth + balance front := by
  have hend : balance back = 0 := by
    cases back with
    | nil => rfl
    | cons next tail =>
        rw [tokens_eq, ← List.cons_append] at h
        rcases append_cons_eq_concat h.symm with ⟨rfl, -, rfl⟩ | ⟨middle, -, hmiddle⟩
        · rfl
        · refine absurd ?_ (hback next rfl)
          rw [hmiddle]
          simp
  rw [h, balance_cons, balance_append, hend, Int.add_zero]

theorem balance_tokens_of_ok {line : String} {operation : Operation}
    (h : parse line = .ok operation) : balance (tokens line.toList) = 0 := by
  cases htokens : tokens line.toList with
  | nil => rfl
  | cons token ahead =>
      rw [parse_eq line htokens] at h
      cases hrun : Rule.operation token ahead with
      | error cause rest => simp [hrun] at h
      | ok found rest =>
          obtain ⟨front, hahead, hfront⟩ := (Rule.nests_operation token).ok hrun
          obtain ⟨-, -, -, hrest⟩ := Rule.operation_eq_ok.mp hrun
          rw [← htokens]
          rw [hahead] at htokens
          rw [balance_tokens htokens, hfront, Int.add_right_neg]
          intro next hnext hmem
          exact kind_ne_endOfInput_of_mem_tokensFrom hmem (hrest next hnext)

theorem balance_tokens_of_endsInside {line : String} {cause : ParseError}
    (h : parse line = .error cause) (hcause : cause.endsInside = true) :
    balance (tokens line.toList) = 1 := by
  cases htokens : tokens line.toList with
  | nil => simp [tokens_eq] at htokens
  | cons token ahead =>
      rw [parse_eq line htokens] at h
      cases hrun : Rule.operation token ahead with
      | ok found rest => simp [hrun] at h
      | error cause' rest =>
          obtain rfl : cause' = cause := by simpa [hrun] using h
          obtain ⟨front, back, hahead, hfront, hback⟩ :=
            (Rule.nests_operation token).error hrun hcause
          rw [← htokens]
          rw [hahead] at htokens
          rw [balance_tokens htokens, hfront, add_sub_cancel]
          intro next hnext hmem
          exact literal_ne_of_mem_tokensFrom hmem (hback next hnext).1 (hback next hnext).2

end DocShell.Query

namespace DocShell.Editor

open DocShell.Query

/-- A line that denotes an operation stays open only if it ends in a string, and one that is
refused because it ends inside a bracket stays open. -/
theorem isComplete_of_parse (line : String) :
    (∀ operation, parse line = .ok operation → (isComplete line.toList = false ↔
      ∃ front last, lexemes line.toList = front ++ [last] ∧ LeftOpen line.toList last)) ∧
    ∀ cause, parse line = .error cause → cause.endsInside = true →
      isComplete line.toList = false := by
  constructor
  · intro operation h
    have hzero : Int32.ofInt (balance (tokens line.toList)) ≤ 0 := by
      rw [balance_tokens_of_ok h]
      decide
    rw [← Bool.not_eq_true, isComplete_iff, and_iff_left hzero, ← exists_isUnterminated_iff]
    simp only [not_forall, Bool.not_eq_false, exists_prop]
  · intro cause h hcause
    rw [← Bool.not_eq_true, isComplete_iff, balance_tokens_of_endsInside h hcause]
    rintro ⟨-, hle⟩
    revert hle
    decide

/-- A line that ends in a string could be submitted but for that, and one that ends in a list is
waited for. -/
theorem isComplete_of_parse_open :
    isComplete "QUERY users WHERE name == 'Do".toList = false ∧
      isComplete "QUERY users WHERE tags IN ['a',".toList = false := by
  have hparse : parse "QUERY users WHERE name == 'Do" = .ok (.query
      ⟨"users", [], [⟨"name", .compare .equal, .scalar (.string "Do")⟩], [], 0⟩) := by
    decide +kernel
  have hlexemes : lexemes "QUERY users WHERE name == 'Do".toList =
      (lexemes "QUERY users WHERE name ==".toList) ++ [⟨.string, "'Do".toList, 26⟩] := by
    decide +kernel
  have herror : parse "QUERY users WHERE tags IN ['a'," =
      .error (.invalidLiteral .arrayElement "") := by decide +kernel
  constructor
  · refine ((isComplete_of_parse _).1 _ hparse).mpr ⟨_, _, hlexemes, rfl, ?_⟩
    exact ⟨"QUERY users WHERE name == ".toList, '\'', "Do".toList, by decide +kernel,
      by decide +kernel, rfl, by decide⟩
  · exact (isComplete_of_parse _).2 _ herror rfl

end DocShell.Editor
