import DocShell.Proofs.Recognition

/-!
How far a rule looks: at the tokens that it has read, and at one token behind them.
Main statement: a line that is refused for a token in it is refused for that token whatever else is
typed behind the line.
-/

namespace DocShell.Query

open DocShell.Number
open DocShell.Text.Ascii

variable {α β : Type}

/-- A failure for the next token. The other failures are for the token that was read last. -/
def ParseError.isPeeked : ParseError → Bool
  | unexpectedToken .. | clauseOrder .. | duplicateClause .. => true
  | _ => false

namespace Rule

/-- What a rule makes of some tokens. It rests on those that are read and on the next one, a
failure for the last one that is read rests on nothing behind that one, and one where the tokens
have ended may rest on all of them. -/
inductive Local (rule : Rule α) (ahead : List Token) : Prop
  | ok (front rest value) : ahead = front ++ rest →
      (∀ rest', rest'.head? = rest.head? → rule (front ++ rest') = .ok value rest') →
      Local rule ahead
  | peeked (front rest cause) : cause.isPeeked → ahead = front ++ rest →
      (∀ rest', rest'.head? = rest.head? → rule (front ++ rest') = .error cause rest') →
      Local rule ahead
  | current (front token rest cause) : ¬cause.isPeeked → ahead = front ++ token :: rest →
      (∀ rest', rule (front ++ token :: rest') = .error cause rest') → Local rule ahead
  | ended (cause) : rule ahead = .error cause [] → Local rule ahead

theorem local_nil {rule : Rule α}
    (h : (∃ value, rule [] = .ok value []) ∨ ∃ cause, rule [] = .error cause []) :
    Local rule [] := by
  rcases h with ⟨value, hrun⟩ | ⟨cause, hrun⟩
  · refine .ok [] [] value rfl fun rest' hhead => ?_
    rw [List.head?_eq_none_iff.mp hhead]
    exact hrun
  · exact .ended cause hrun

section Token

variable {rule : Rule α} {token : Token}

theorem local_read (value : α) (h : ∀ rest, rule (token :: rest) = .ok value rest)
    (rest : List Token) : Local rule (token :: rest) :=
  .ok [token] rest value rfl fun rest' _ => h rest'

theorem local_leave (value : α) (h : ∀ rest, rule (token :: rest) = .ok value (token :: rest))
    (rest : List Token) : Local rule (token :: rest) := by
  refine .ok [] (token :: rest) value rfl fun rest' hhead => ?_
  obtain ⟨tail, rfl⟩ := List.head?_eq_some_iff.mp hhead
  exact h tail

theorem local_peek {cause : ParseError} (hcause : cause.isPeeked)
    (h : ∀ rest, rule (token :: rest) = .error cause (token :: rest)) (rest : List Token) :
    Local rule (token :: rest) := by
  refine .peeked [] (token :: rest) cause hcause rfl fun rest' hhead => ?_
  obtain ⟨tail, rfl⟩ := List.head?_eq_some_iff.mp hhead
  exact h tail

/-- A token that is read and refused. The failure may as well be for the token behind it. -/
theorem local_refuse (cause : ParseError)
    (h : ∀ rest, rule (token :: rest) = .error cause rest) (rest : List Token) :
    Local rule (token :: rest) := by
  by_cases hcause : cause.isPeeked
  · exact .peeked [token] rest cause hcause rfl fun rest' _ => h rest'
  · exact .current [] token rest cause hcause rfl h

end Token

theorem local_pure (value : α) (ahead : List Token) : Local (pure value) ahead :=
  .ok [] ahead value rfl fun _ _ => rfl

theorem Local.cons {rule rule' : Rule α} {token : Token} {rest : List Token} (h : Local rule rest)
    (hrun : ∀ rest, rule' (token :: rest) = rule rest) : Local rule' (token :: rest) := by
  cases h with
  | ok front rest value hahead hsame =>
      exact .ok (token :: front) rest value (by rw [hahead, List.cons_append])
        fun rest' hhead => (hrun _).trans (hsame rest' hhead)
  | peeked front rest cause hcause hahead hsame =>
      exact .peeked (token :: front) rest cause hcause (by rw [hahead, List.cons_append])
        fun rest' hhead => (hrun _).trans (hsame rest' hhead)
  | current front last rest cause hcause hahead hsame =>
      exact .current (token :: front) last rest cause hcause (by rw [hahead, List.cons_append])
        fun rest' => (hrun _).trans (hsame rest')
  | ended cause hended => exact .ended cause ((hrun rest).trans hended)

theorem Local.congr {rule rule' : Rule α} {ahead : List Token} (h : Local rule ahead)
    (hrun : ∀ ahead', ahead'.head? = ahead.head? → rule' ahead' = rule ahead') :
    Local rule' ahead := by
  cases h with
  | ok front rest value hahead hsame =>
      refine .ok front rest value hahead fun rest' hhead => (hrun _ ?_).trans (hsame rest' hhead)
      rw [hahead, List.head?_append, List.head?_append, hhead]
  | peeked front rest cause hcause hahead hsame =>
      refine .peeked front rest cause hcause hahead fun rest' hhead =>
        (hrun _ ?_).trans (hsame rest' hhead)
      rw [hahead, List.head?_append, List.head?_append, hhead]
  | current front token rest cause hcause hahead hsame =>
      refine .current front token rest cause hcause hahead fun rest' =>
        (hrun _ ?_).trans (hsame rest')
      rw [hahead, List.head?_append, List.head?_append, List.head?_cons, List.head?_cons]
  | ended cause hended => exact .ended cause ((hrun ahead rfl).trans hended)

theorem Local.map {rule : Rule α} {ahead : List Token} (h : Local rule ahead) (f : α → β) :
    Local (f <$> rule) ahead := by
  cases h with
  | ok front rest value hahead hsame =>
      exact .ok front rest (f value) hahead fun rest' hhead => map_of_ok (hsame rest' hhead)
  | peeked front rest cause hcause hahead hsame =>
      exact .peeked front rest cause hcause hahead fun rest' hhead =>
        map_of_error (hsame rest' hhead)
  | current front token rest cause hcause hahead hsame =>
      exact .current front token rest cause hcause hahead fun rest' => map_of_error (hsame rest')
  | ended cause hended => exact .ended cause (map_of_error hended)

theorem Local.bind {rule : Rule α} {next : α → Rule β} {ahead : List Token} (h : Local rule ahead)
    (hnext : ∀ value middle, rule ahead = .ok value middle → Local (next value) middle) :
    Local (rule >>= next) ahead := by
  cases h with
  | peeked front rest cause hcause hahead hsame =>
      exact .peeked front rest cause hcause hahead fun rest' hhead =>
        bind_of_error (hsame rest' hhead)
  | current front token rest cause hcause hahead hsame =>
      exact .current front token rest cause hcause hahead fun rest' => bind_of_error (hsame rest')
  | ended cause hended => exact .ended cause (bind_of_error hended)
  | ok front middle value hahead hfirst =>
      have hmiddle : rule ahead = .ok value middle := by
        rw [hahead]
        exact hfirst middle rfl
      -- Where the second rule reads nothing, both of them look at the same next token.
      have hrule : ∀ back rest rest', middle = back ++ rest → rest'.head? = rest.head? →
          (rule >>= next) (front ++ back ++ rest') = next value (back ++ rest') := by
        intro back rest rest' hback hhead
        rw [List.append_assoc]
        refine bind_of_ok (hfirst _ ?_)
        rw [hback, List.head?_append, List.head?_append, hhead]
      cases hnext value middle hmiddle with
      | ok back rest value' hback hsame =>
          exact .ok (front ++ back) rest value' (by rw [hahead, hback, List.append_assoc])
            fun rest' hhead => (hrule back rest rest' hback hhead).trans (hsame rest' hhead)
      | peeked back rest cause hcause hback hsame =>
          exact .peeked (front ++ back) rest cause hcause
            (by rw [hahead, hback, List.append_assoc])
            fun rest' hhead => (hrule back rest rest' hback hhead).trans (hsame rest' hhead)
      | current back token rest cause hcause hback hsame =>
          exact .current (front ++ back) token rest cause hcause
            (by rw [hahead, hback, List.append_assoc])
            fun rest' =>
              (hrule back (token :: rest) (token :: rest') hback rfl).trans (hsame rest')
      | ended cause hended => exact .ended cause ((bind_of_ok hmiddle).trans hended)

/-- A success that rests on the tokens that are read, at least one, and on nothing behind them. -/
def Tight (rule : Rule α) (ahead : List Token) : Prop :=
  ∀ {value middle}, rule ahead = .ok value middle → ∃ front token,
    ahead = front ++ token :: middle ∧ ∀ rest, rule (front ++ token :: rest) = .ok value rest

/-- A rule that fails at once for the token before it, or that is local. -/
def Decides (rule : Rule α) (ahead : List Token) : Prop :=
  (∃ cause : ParseError, ¬cause.isPeeked ∧ rule = throw cause) ∨ Local rule ahead

theorem Local.check {rule : Rule α} {next : α → Rule β} {ahead : List Token}
    (h : Local rule ahead) (htight : Tight rule ahead)
    (hnext : ∀ value middle, Decides (next value) middle) : Local (rule >>= next) ahead := by
  by_cases hlocal : ∀ value middle, rule ahead = .ok value middle → Local (next value) middle
  · exact h.bind hlocal
  · simp only [not_forall] at hlocal
    obtain ⟨value, middle, hrun, hnot⟩ := hlocal
    obtain ⟨cause, hcause, hthrow⟩ := (hnext value middle).resolve_right hnot
    obtain ⟨front, token, hahead, hsame⟩ := htight hrun
    refine .current front token middle cause hcause hahead fun rest' => ?_
    rw [bind_of_ok (hsame rest'), hthrow]
    rfl

theorem decides_throw {cause : ParseError} (h : ¬cause.isPeeked) (ahead : List Token) :
    Decides (throw cause : Rule α) ahead :=
  .inl ⟨cause, h, rfl⟩

theorem decides_pure (value : α) (ahead : List Token) : Decides (pure value) ahead :=
  .inr (local_pure value ahead)

theorem local_expect (kind : TokenKind) (ahead : List Token) : Local (expect kind) ahead := by
  cases ahead with
  | nil => exact local_nil (.inr ⟨_, rfl⟩)
  | cons token rest =>
      by_cases hkind : token.kind = kind
      · exact local_read _ (fun rest => if_pos hkind) rest
      · exact local_peek rfl (fun rest => if_neg hkind) rest

theorem tight_expect (kind : TokenKind) (ahead : List Token) : Tight (expect kind) ahead := by
  intro literal middle h
  exact ⟨[], ⟨kind, literal⟩, expect_eq_ok.mp h, fun _ => expect_eq_ok.mpr rfl⟩

theorem local_optional (kind : TokenKind) (ahead : List Token) : Local (optional kind) ahead := by
  cases ahead with
  | nil => exact local_nil (.inl ⟨_, rfl⟩)
  | cons token rest =>
      by_cases hkind : token.kind = kind
      · exact local_read _ (fun rest => if_pos hkind) rest
      · exact local_leave _ (fun rest => if_neg hkind) rest

theorem local_expectEnd (ahead : List Token) : Local expectEnd ahead := by
  cases ahead with
  | nil => exact local_nil (.inl ⟨_, rfl⟩)
  | cons token rest =>
      by_cases hkind : token.kind = .endOfInput
      · exact local_leave _ (fun rest => if_pos hkind) rest
      · exact local_peek rfl (fun rest => if_neg hkind) rest

theorem local_separated {item : Rule α} (hitem : Advances item) (separator : TokenKind)
    (hlocal : ∀ ahead, Local item ahead) (ahead : List Token) :
    Local (separated item hitem separator) ahead := by
  induction hlength : ahead.length using Nat.strongRecOn generalizing ahead with
  | ind length ih =>
      rw [separated_eq]
      refine (hlocal ahead).bind fun value middle hvalue => ?_
      refine (local_optional separator middle).bind fun found rest hfound => ?_
      have hshorter : rest.length < length := by
        have hmiddle := hitem ahead value middle hvalue
        have hrest := optional_keeps separator middle found rest hfound
        omega
      cases found with
      | none => exact local_pure _ _
      | some literal => exact (ih rest.length hshorter rest rfl).map _

theorem local_scalar (kind : LiteralKind) (ahead : List Token) : Local (scalar kind) ahead := by
  rcases ahead with _ | ⟨⟨kind', literal⟩, rest⟩
  · exact local_nil (.inr ⟨_, rfl⟩)
  · cases kind' with
    | int =>
        cases hvalue : Decimal.toInt64? literal.toList with
        | some value => exact local_read (.int value) (fun rest => by simp only [scalar, hvalue]) rest
        | none =>
            exact local_refuse (.invalidLiteral .integer literal)
              (fun rest => by simp only [scalar, hvalue]) rest
    | float => exact local_read _ (fun rest => rfl) rest
    | string => exact local_read _ (fun rest => rfl) rest
    | _ => exact local_refuse _ (fun rest => rfl) rest

theorem local_array (ahead : List Token) : Local array ahead := by
  refine (local_optional _ ahead).bind fun closed middle _ => ?_
  split
  · exact local_pure _ _
  · refine (local_separated _ _ (local_scalar _) middle).bind fun items rest _ => ?_
    exact (local_expect _ rest).bind fun _ _ _ => local_pure _ _

theorem local_timestamp (ahead : List Token) : Local timestamp ahead := by
  refine (local_expect _ ahead).bind fun _ inner _ => ?_
  refine (local_expect _ inner).bind fun raw back _ => ?_
  refine (local_expect _ back).check (tight_expect _ back) fun _ rest => ?_
  split
  · exact decides_pure _ _
  · exact decides_throw (by simp [ParseError.isPeeked]) _

theorem local_value (ahead : List Token) : Local value ahead := by
  rcases ahead with _ | ⟨⟨kind, literal⟩, rest⟩
  · exact local_nil (.inr ⟨_, rfl⟩)
  · cases kind with
    | int | float | string =>
        refine ((local_scalar .filterValue _).map FilterValue.scalar).congr fun ahead' hhead => ?_
        obtain ⟨tail, rfl⟩ := List.head?_eq_some_iff.mp hhead
        rfl
    | word =>
        by_cases hname : isTimestampName literal
        · exact ((local_timestamp rest).map _).cons fun rest => if_pos hname
        · exact local_refuse _ (fun rest => if_neg hname) rest
    | punctuation mark =>
        cases mark with
        | openBracket => exact ((local_array rest).map _).cons fun rest => rfl
        | _ => exact local_refuse _ (fun rest => rfl) rest
    | _ => exact local_refuse _ (fun rest => rfl) rest

theorem tight_value (ahead : List Token) : Tight value ahead := by
  intro found middle h
  obtain ⟨front, rfl, hphrase⟩ := reads_value.sound h
  rcases List.eq_nil_or_concat front with rfl | ⟨init, last, rfl⟩
  · cases hphrase with
    | scalar hvalue => cases hvalue
  · refine ⟨init, last, by simp, fun rest => ?_⟩
    have hrun : value (init.concat last ++ rest) = .ok found rest :=
      reads_value.complete hphrase (by simp [Avoids])
    simpa using hrun

theorem local_operator (ahead : List Token) : Local operator ahead := by
  cases ahead with
  | nil => exact local_nil (.inr ⟨_, rfl⟩)
  | cons token rest =>
      cases hkind : Operator.ofKind? token.kind with
      | some found => exact local_read found (fun rest => by simp only [operator, hkind]) rest
      | none =>
          by_cases hend : token.kind = .endOfInput
          · exact local_refuse (.unexpectedToken .operator token)
              (fun rest => by simp only [operator, hkind, if_pos hend]) rest
          · exact local_refuse (.invalidOperator token.literal)
              (fun rest => by simp only [operator, hkind, if_neg hend]) rest

theorem local_filter (ahead : List Token) : Local filter ahead := by
  refine (local_expect _ ahead).bind fun field behindField _ => ?_
  refine (local_operator behindField).bind fun operator behindOperator _ => ?_
  refine (local_value behindOperator).check (tight_value _) fun value rest => ?_
  split
  · exact decides_pure _ _
  · exact decides_throw (by simp [ParseError.isPeeked]) _

theorem local_ordering (ahead : List Token) : Local ordering ahead := by
  refine (local_expect _ ahead).bind fun field behindField _ => ?_
  refine (local_optional _ behindField).bind fun descending middle _ => ?_
  split
  · exact local_pure _ _
  · exact (local_optional _ middle).bind fun _ _ _ => local_pure _ _

theorem local_limit (ahead : List Token) : Local limit ahead := by
  refine (local_expect _ ahead).check (tight_expect _ ahead) fun literal rest => ?_
  split
  · exact decides_pure _ _
  · exact decides_throw (by simp [ParseError.isPeeked]) _

theorem local_body (clause : Clause) (ahead : List Token) : Local (body clause) ahead := by
  cases clause with
  | select => exact (local_separated _ _ (local_expect _) ahead).map _
  | filter => exact (local_separated _ _ local_filter ahead).map _
  | order =>
      exact (local_expect _ ahead).bind fun _ middle _ =>
        (local_separated _ _ local_ordering middle).map _
  | limit => exact (local_limit ahead).map _

theorem isPeeked_misplaced (table : List Clause) (last : Option Clause) (token : Token) :
    (misplaced table last token).isPeeked := by
  unfold misplaced
  split
  · split <;> rfl
  · rfl

theorem local_clauses (table : List Clause) (last : Option Clause) (later : List Clause)
    (ahead : List Token) : Local (clauses table last later) ahead := by
  induction hlength : later.length using Nat.strongRecOn generalizing later last ahead with
  | ind length ih =>
      cases ahead with
      | nil => exact local_nil (.inl ⟨[], by rw [clauses]⟩)
      | cons token rest =>
          by_cases hend : token.kind = .endOfInput
          · refine local_leave [] (fun rest => ?_) rest
            exact clauses_of_atEnd (by simpa [AtEnd] using hend)
          · cases hfind : Clause.find? token.kind later with
            | none =>
                exact local_peek (isPeeked_misplaced ..) (clauses_of_not_find hend hfind) rest
            | some found =>
                obtain ⟨clause, later'⟩ := found
                have hshorter : later'.length < length := hlength ▸ Clause.find?_length hfind
                refine Local.cons ?_ (clauses_of_find hfind)
                refine (local_body clause rest).bind fun first middle _ => ?_
                exact (ih _ hshorter _ later' middle rfl).bind fun _ _ _ => local_pure _ _

theorem local_collection (ahead : List Token) : Local collection ahead := by
  refine (local_expect _ ahead).check (tight_expect _ ahead) fun raw rest => ?_
  dsimp only
  split
  · exact decides_throw (by simp [ParseError.isPeeked]) _
  · exact decides_pure _ _

theorem local_get (ahead : List Token) : Local get ahead := by
  refine (local_expect _ ahead).check (tight_expect _ ahead) fun raw rest => ?_
  split
  · exact decides_throw (by simp [ParseError.isPeeked]) _
  · split
    · exact .inl ⟨_, by simp [ParseError.isPeeked], rfl⟩
    · exact .inr ((local_expectEnd rest).bind fun _ _ _ => local_pure _ _)

theorem local_base (ahead : List Token) : Local base ahead := by
  rcases ahead with _ | ⟨⟨kind, raw⟩, rest⟩
  · exact local_nil (.inl ⟨_, rfl⟩)
  · by_cases hkind : kind = .word
    · subst hkind
      have hfound := optional_of_kind .word raw
      by_cases hshape : Path.normalize raw = "" ∨ Path.isDocument (Path.normalize raw)
      · refine local_read (Path.normalize raw) (fun rest => (bind_of_ok (hfound rest)).trans ?_) rest
        simp only [hshape, if_true]
        rfl
      · refine local_refuse (.invalidPath .base raw)
          (fun rest => (bind_of_ok (hfound rest)).trans ?_) rest
        simp only [hshape, if_false]
        rfl
    · have hmissing : ∀ rest, Avoids [.word] (⟨kind, raw⟩ :: rest) :=
        fun rest => avoids_cons.mpr (by simpa using hkind)
      refine local_leave "" (fun rest => ?_) rest
      exact bind_of_ok (optional_of_avoids (hmissing rest))

theorem local_switch (command : String) (ahead : List Token) : Local (switch command) ahead := by
  cases ahead with
  | nil => exact local_nil (.inr ⟨_, rfl⟩)
  | cons token rest =>
      by_cases hon : token.kind = .word ∧ sameLetters token.literal.toList "on".toList
      · exact local_read true (fun rest => if_pos hon) rest
      · by_cases hoff : token.kind = .word ∧ sameLetters token.literal.toList "off".toList
        · exact local_read false (fun rest => (if_neg hon).trans (if_pos hoff)) rest
        · exact local_refuse _ (fun rest => (if_neg hon).trans (if_neg hoff)) rest

theorem decides_operation (token : Token) (ahead : List Token) :
    Decides (operation token) ahead := by
  unfold operation
  split
  · exact decides_throw (by simp [ParseError.isPeeked]) _
  · refine .inr ((local_base ahead).bind fun path rest _ => ?_)
    exact (local_expectEnd rest).bind fun _ _ _ => local_pure _ _
  · refine .inr ((local_switch _ ahead).bind fun enabled rest _ => ?_)
    exact (local_expectEnd rest).bind fun _ _ _ => local_pure _ _
  · split
    · refine .inr ((local_collection ahead).bind fun path middle _ => ?_)
      exact (local_clauses _ _ _ middle).bind fun _ _ _ => local_pure _ _
    · exact .inr (local_get ahead)
    · refine .inr ((local_collection ahead).bind fun path middle _ => ?_)
      exact (local_clauses _ _ _ middle).bind fun _ _ _ => local_pure _ _
    · exact decides_throw (by simp [ParseError.isPeeked]) _

end Rule

namespace Parser

/-- The token under the cursor. Behind the last token there is the end of the line. -/
def current (parser : Parser) : Token := parser.tokens.getD parser.cursor .atEnd

/-- The token behind the one under the cursor. -/
def peeked (parser : Parser) : Token := parser.tokens.getD (parser.cursor + 1) .atEnd

/-- The token that a failure is for. -/
def rejected (parser : Parser) (cause : ParseError) : Token :=
  if cause.isPeeked then parser.peeked else parser.current

theorem next_of_error {line : String} {token : Token} {ahead rest : List Token}
    {cause : ParseError} (h : Query.tokens line.toList = token :: ahead)
    (hrun : Rule.operation token ahead = .error cause rest) :
    (ofLine line).next =
      (.error cause, ⟨token :: ahead, ahead.length - rest.length, [cause.message]⟩) := by
  rw [ofLine, h]
  simp [next, hrun]

end Parser

theorem exists_eq_append_cons (front : List Token) {back tail : List Token} {token : Token}
    (h : front ++ token :: tail = back ++ [Token.atEnd]) (hne : token.kind ≠ .endOfInput) :
    ∃ middle, back = front ++ token :: middle := by
  rcases append_cons_eq_concat h with ⟨-, -, rfl⟩ | ⟨middle, -, hback⟩
  · exact absurd rfl hne
  · exact ⟨middle, hback⟩

/-- What stands behind a token that is refused can be exchanged. -/
theorem Rule.operation_error_append {token : Token} {ahead rest front : List Token}
    {cause : ParseError} (hrun : operation token ahead = .error cause rest)
    (htokens : token :: ahead = front ++ [Token.atEnd]) (errors : List String)
    (hrejected : (Parser.rejected ⟨token :: ahead, ahead.length - rest.length, errors⟩ cause).kind ≠
      .endOfInput) (back : List Token) :
    ∃ ahead' rest', front ++ back = token :: ahead' ∧
      operation token ahead' = .error cause rest' := by
  rcases decides_operation token ahead with ⟨cause', hcurrent, hthrow⟩ | hlocal
  · rw [hthrow] at hrun
    cases hrun
    have hne : token.kind ≠ .endOfInput := by
      simpa [Parser.rejected, Parser.current, hcurrent] using hrejected
    obtain ⟨middle, rfl⟩ := exists_eq_append_cons [] htokens hne
    exact ⟨middle ++ back, middle ++ back, rfl, by rw [hthrow]; rfl⟩
  · cases hlocal with
    | ok before rest' value hahead hsame =>
        rw [hahead, hsame rest' rfl] at hrun
        cases hrun
    | peeked before rest' cause' hcause hahead hsame =>
        subst hahead
        rw [hsame rest' rfl] at hrun
        cases hrun
        rcases rest with _ | ⟨next, tail⟩
        · simp [Parser.rejected, Parser.peeked, hcause, Token.atEnd] at hrejected
        · have hne : next.kind ≠ .endOfInput := by
            simpa [Parser.rejected, Parser.peeked, hcause] using hrejected
          obtain ⟨middle, rfl⟩ := exists_eq_append_cons (token :: before) htokens hne
          exact ⟨before ++ next :: (middle ++ back), next :: (middle ++ back), by simp,
            hsame _ rfl⟩
    | current before last rest' cause' hcause hahead hsame =>
        subst hahead
        rw [hsame rest'] at hrun
        cases hrun
        have hcursor : before.length + (rest.length + 1) - rest.length = before.length + 1 := by
          omega
        have hne : last.kind ≠ .endOfInput := by
          simpa [Parser.rejected, Parser.current, hcause, hcursor] using hrejected
        obtain ⟨middle, rfl⟩ := exists_eq_append_cons (token :: before) htokens hne
        exact ⟨before ++ last :: (middle ++ back), middle ++ back, by simp, hsame _⟩
    | ended cause' hended =>
        rw [hended] at hrun
        cases hrun
        have hlength : ahead.length = front.length := by simpa using congrArg List.length htokens
        refine absurd ?_ hrejected
        cases hcause : cause.isPeeked with
        | true => simp [Parser.rejected, Parser.peeked, hcause, Token.atEnd]
        | false =>
            simp [Parser.rejected, Parser.current, hcause, htokens, hlength, Token.atEnd]

/-- A line that is refused for a token in it is refused for that token, and with the one message
for it, whatever is typed behind the line. -/
theorem refused_append {front : String} {cause : ParseError}
    (hterminated : Terminated front.toList)
    (herror : (Parser.ofLine front).next.1 = .error cause)
    (hrejected : ((Parser.ofLine front).next.2.rejected cause).kind ≠ .endOfInput)
    (back : String) :
    (Parser.ofLine (front ++ " " ++ back)).next.1 = .error cause ∧
      (Parser.ofLine (front ++ " " ++ back)).next.2.errors = [cause.message] ∧
      (Parser.ofLine front).next.2.errors = [cause.message] := by
  cases htokens : tokens front.toList with
  | nil => simp [tokens_eq] at htokens
  | cons token ahead =>
      cases hrun : Rule.operation token ahead with
      | ok operation rest =>
          have hparse := parse_eq front htokens
          rw [hrun, parse, herror] at hparse
          cases hparse
      | error cause' rest =>
          rw [Parser.next_of_error htokens hrun] at herror hrejected ⊢
          obtain rfl : cause' = cause := Except.error.inj herror
          have hsplit := htokens.symm.trans (tokens_eq front.toList)
          have hspace : (front ++ " " ++ back).toList = front.toList ++ ' ' :: back.toList := by simp
          obtain ⟨ahead', rest', hback, hrun'⟩ := Rule.operation_error_append hrun hsplit _ hrejected
            (tokensFrom (true && (tokensFrom true front.toList).isEmpty) back.toList ++
              [Token.atEnd])
          have htokens' : tokens (front ++ " " ++ back).toList = token :: ahead' := by
            rw [tokens_eq, hspace, tokensFrom_append_separator (by decide) hterminated,
              List.append_assoc, hback]
          rw [Parser.next_of_error htokens' hrun']
          exact ⟨rfl, rfl, rfl⟩

/-- A list is missing, and what could be typed behind does not make it one. -/
theorem refused_append_mismatch :
    (Parser.ofLine "QUERY users WHERE age IN 3").next.1 =
        .error (.operatorMismatch .memberOf (.scalar (.int 3))) ∧
      (Parser.ofLine ("QUERY users WHERE age IN 3" ++ " " ++ "AND age IN [3]")).next.1 =
        .error (.operatorMismatch .memberOf (.scalar (.int 3))) := by
  have herror : (Parser.ofLine "QUERY users WHERE age IN 3").next.1 =
      .error (.operatorMismatch .memberOf (.scalar (.int 3))) := by decide +kernel
  have hrefused := refused_append (by unfold Terminated; decide +kernel) herror
    (by decide +kernel) "AND age IN [3]"
  exact ⟨herror, hrefused.1⟩

end DocShell.Query
