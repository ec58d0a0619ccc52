import DocShell.Completion.Skip
import DocShell.Proofs.Reading

namespace DocShell.Query

/-- The causes that lie in a value, and not in the order of the words. -/
def ParseError.IsValueError : ParseError → Prop
  | invalidLiteral _ _ => True
  | invalidTimestamp _ => True
  | invalidPath _ _ => True
  | operatorMismatch _ _ => True
  | _ => False

def lineOf (ahead : List Lexeme) : List Token := ahead.map Lexeme.token ++ [Token.atEnd]

theorem lineOf_nil : lineOf [] = [Token.atEnd] := rfl

theorem lineOf_cons (lexeme : Lexeme) (rest : List Lexeme) :
    lineOf (lexeme :: rest) = lexeme.token :: lineOf rest := rfl

theorem lineOf_append (front rest : List Lexeme) :
    lineOf (front ++ rest) = front.map Lexeme.token ++ lineOf rest := by
  simp [lineOf]

/-- Lexemes that are finished before the cursor. -/
def Settled (cursor : Nat) (ahead : List Lexeme) : Prop :=
  ∀ lexeme ∈ ahead, lexeme.isUnterminated = false ∧ lexeme.stop < cursor ∧
    lexeme.kind ≠ .endOfInput

theorem Settled.tail {cursor : Nat} {lexeme : Lexeme} {rest : List Lexeme}
    (h : Settled cursor (lexeme :: rest)) : Settled cursor rest :=
  fun lexeme hmem => h lexeme (List.mem_cons_of_mem _ hmem)

theorem Settled.suffix {cursor : Nat} {ahead rest : List Lexeme} (h : Settled cursor ahead)
    (hsuffix : rest <:+ ahead) : Settled cursor rest :=
  fun lexeme hmem => h lexeme (hsuffix.subset hmem)

namespace Rule

variable {α β : Type}

/-- The rule fails because of a value. -/
def FailsByValue (rule : Rule α) (ahead : List Token) : Prop :=
  ∃ cause behind, cause.IsValueError ∧ rule ahead = .error cause behind

theorem FailsByValue.bind {rule : Rule α} {next : α → Rule β} {ahead : List Token}
    (h : FailsByValue rule ahead) : FailsByValue (rule >>= next) ahead := by
  obtain ⟨cause, behind, hcause, hrun⟩ := h
  exact ⟨cause, behind, hcause, bind_of_error hrun⟩

theorem FailsByValue.map {f : α → β} {rule : Rule α} {ahead : List Token}
    (h : FailsByValue rule ahead) : FailsByValue (f <$> rule) ahead := by
  obtain ⟨cause, behind, hcause, hrun⟩ := h
  exact ⟨cause, behind, hcause, map_of_error hrun⟩

theorem FailsByValue.of_bind {rule : Rule α} {next : α → Rule β} {ahead middle : List Token}
    {value : α} (hrule : rule ahead = .ok value middle) (h : FailsByValue (next value) middle) :
    FailsByValue (rule >>= next) ahead := by
  obtain ⟨cause, behind, hcause, hrun⟩ := h
  exact ⟨cause, behind, hcause, (bind_of_ok hrule).trans hrun⟩

def Judges (rule : Rule α) : Prop :=
  ∀ ahead, (∃ value, rule ahead = .ok value ahead) ∨ FailsByValue rule ahead

theorem judges_pure (value : α) : Judges (pure value : Rule α) :=
  fun _ => .inl ⟨value, rfl⟩

theorem judges_throw {cause : ParseError} (h : cause.IsValueError) :
    Judges (throw cause : Rule α) :=
  fun ahead => .inr ⟨cause, ahead, h, rfl⟩

end Rule

end DocShell.Query

namespace DocShell.Completion

open DocShell.Query
open DocShell.Query.Rule

variable {α β γ δ : Type} {cursor : Nat}

theorem bind_eq_some {skip : Skip α} {next : α → Skip β} {ahead rest : List Lexeme} {found : β}
    (h : (skip >>= next) ahead = some (found, rest)) :
    ∃ first middle, skip ahead = some (first, middle) ∧ next first middle = some (found, rest) := by
  rw [Skip.bind_apply] at h
  obtain ⟨⟨first, middle⟩, hfirst, hsecond⟩ := Option.bind_eq_some_iff.mp h
  exact ⟨first, middle, hfirst, hsecond⟩

/-- A rule and a skip that stay together, with what their values have to do with each other. -/
structure Agrees (cursor : Nat) (rule : Rule α) (skip : Skip β) (related : α → β → Prop) :
    Prop where
  passes : ∀ {ahead found rest}, Settled cursor ahead → skip ahead = some (found, rest) →
    (∃ value, related value found ∧ rest <:+ ahead ∧
      rule (lineOf ahead) = .ok value (lineOf rest)) ∨ FailsByValue rule (lineOf ahead)
  stops : ∀ {ahead value behind}, Settled cursor ahead → skip ahead = none →
    rule (lineOf ahead) ≠ .ok value behind

theorem Agrees.of_ok {rule : Rule α} {skip : Skip β} {related : α → β → Prop}
    (h : Agrees cursor rule skip related) {ahead : List Lexeme} {value : α} {behind : List Token}
    (hahead : Settled cursor ahead) (hrule : rule (lineOf ahead) = .ok value behind) :
    ∃ found rest, skip ahead = some (found, rest) ∧ related value found ∧ rest <:+ ahead ∧
      behind = lineOf rest := by
  cases hskip : skip ahead with
  | none => exact absurd hrule (h.stops hahead hskip)
  | some pair =>
      obtain ⟨found, rest⟩ := pair
      rcases h.passes hahead hskip with ⟨value', hrelated, hsuffix, hrun⟩ | ⟨_, _, -, hrun⟩
      · rw [hrule] at hrun
        cases hrun
        exact ⟨found, rest, rfl, hrelated, hsuffix, rfl⟩
      · rw [hrule] at hrun
        cases hrun

theorem Agrees.bind {rule : Rule α} {skip : Skip β} {related : α → β → Prop} {next : α → Rule γ}
    {next' : β → Skip δ} {related' : γ → δ → Prop} (h : Agrees cursor rule skip related)
    (hnext : ∀ value found, related value found →
      Agrees cursor (next value) (next' found) related') :
    Agrees cursor (rule >>= next) (skip >>= next') related' where
  passes := by
    intro ahead found rest hahead hskip
    obtain ⟨first, middle, hfirst, hsecond⟩ := bind_eq_some hskip
    rcases h.passes hahead hfirst with ⟨value, hrelated, hsuffix, hrun⟩ | hfails
    · rcases (hnext value first hrelated).passes (hahead.suffix hsuffix) hsecond with
        ⟨last, hlast, hsuffix', hrun'⟩ | hfails
      · exact .inl ⟨last, hlast, hsuffix'.trans hsuffix, (bind_of_ok hrun).trans hrun'⟩
      · exact .inr (.of_bind hrun hfails)
    · exact .inr hfails.bind
  stops := by
    intro ahead value behind hahead hskip hrun
    obtain ⟨first, middle, hfirst, hsecond⟩ := bind_eq_ok hrun
    obtain ⟨found, rest, hfound, hrelated, hsuffix, rfl⟩ := h.of_ok hahead hfirst
    rw [Skip.bind_apply, hfound] at hskip
    exact (hnext first found hrelated).stops (hahead.suffix hsuffix) hskip hsecond

/-- What a rule does with its value at the end is of no concern to the skip. -/
theorem Agrees.judged {rule : Rule α} {skip : Skip β} {related : α → β → Prop}
    {next : α → Rule γ} (h : Agrees cursor rule skip related)
    (hnext : ∀ value, Judges (next value)) :
    Agrees cursor (rule >>= next) skip fun _ _ => True where
  passes := by
    intro ahead found rest hahead hskip
    rcases h.passes hahead hskip with ⟨value, hrelated, hsuffix, hrun⟩ | hfails
    · rcases hnext value (lineOf rest) with ⟨last, hlast⟩ | hfails
      · exact .inl ⟨last, trivial, hsuffix, (bind_of_ok hrun).trans hlast⟩
      · exact .inr (.of_bind hrun hfails)
    · exact .inr hfails.bind
  stops := by
    intro ahead value behind hahead hskip hrun
    obtain ⟨first, middle, hfirst, -⟩ := bind_eq_ok hrun
    exact h.stops hahead hskip hfirst

theorem Agrees.map {rule : Rule α} {skip : Skip β} {related : α → β → Prop} (f : α → γ)
    (h : Agrees cursor rule skip related) : Agrees cursor (f <$> rule) skip fun _ _ => True where
  passes := by
    intro ahead found rest hahead hskip
    rcases h.passes hahead hskip with ⟨value, -, hsuffix, hrun⟩ | hfails
    · exact .inl ⟨f value, trivial, hsuffix, map_of_ok hrun⟩
    · exact .inr hfails.map
  stops := by
    intro ahead value behind hahead hskip hrun
    obtain ⟨first, hfirst, -⟩ := map_eq_ok hrun
    exact h.stops hahead hskip hfirst

theorem agrees_of_ok {rule : Rule α} {skip : Skip β} {related : α → β → Prop}
    (h : ∀ ahead, ∃ value found rest, rule (lineOf ahead) = .ok value (lineOf rest) ∧
      skip ahead = some (found, rest) ∧ related value found ∧ rest <:+ ahead) :
    Agrees cursor rule skip related where
  passes := by
    rintro ahead found rest - hskip
    obtain ⟨value, found', rest', hrun, hskip', hrelated, hsuffix⟩ := h ahead
    rw [hskip] at hskip'
    cases hskip'
    exact .inl ⟨value, hrelated, hsuffix, hrun⟩
  stops := by
    rintro ahead value behind - hskip
    obtain ⟨_, _, _, -, hskip', -⟩ := h ahead
    rw [hskip] at hskip'
    cases hskip'

theorem agrees_pure {value : α} {found : β} {related : α → β → Prop} (h : related value found) :
    Agrees cursor (pure value) (pure found) related :=
  agrees_of_ok fun ahead => ⟨value, found, ahead, rfl, rfl, h, List.suffix_rfl⟩

theorem optional_cases {kind : TokenKind} (hend : kind ≠ .endOfInput) (ahead : List Lexeme) :
    (∃ lexeme tail, ahead = lexeme :: tail ∧ lexeme.kind = kind ∧
      Rule.optional kind (lineOf ahead) = .ok (some lexeme.literal) (lineOf tail) ∧
        Skip.optional kind ahead = some (true, tail)) ∨
      (∀ lexeme ∈ ahead.head?, lexeme.kind ≠ kind) ∧
        Rule.optional kind (lineOf ahead) = .ok none (lineOf ahead) ∧
          Skip.optional kind ahead = some (false, ahead) := by
  cases ahead with
  | nil =>
      refine .inr ⟨by simp, optional_of_avoids ?_, rfl⟩
      exact avoids_cons.mpr (by simpa [Token.atEnd] using hend.symm)
  | cons lexeme tail =>
      by_cases hkind : lexeme.kind = kind
      · refine .inl ⟨lexeme, tail, rfl, hkind, ?_, if_pos hkind⟩
        rw [lineOf_cons, Lexeme.token, hkind]
        exact optional_of_kind _ _ _
      · refine .inr ⟨by simpa using hkind, optional_of_avoids ?_, if_neg hkind⟩
        exact avoids_cons.mpr (by simpa [Lexeme.token] using hkind)

theorem agrees_optional {kind : TokenKind} (hend : kind ≠ .endOfInput) :
    Agrees cursor (optional kind) (Skip.optional kind) fun value found => value.isSome = found := by
  refine agrees_of_ok fun ahead => ?_
  rcases optional_cases hend ahead with ⟨lexeme, tail, rfl, -, hrun, hskip⟩ | ⟨-, hrun, hskip⟩
  · exact ⟨_, _, tail, hrun, hskip, rfl, List.suffix_cons _ _⟩
  · exact ⟨_, _, ahead, hrun, hskip, rfl, List.suffix_rfl⟩

theorem one_eq_some {p : Lexeme → Bool} {ahead rest : List Lexeme} {found : Unit}
    (h : Skip.one p ahead = some (found, rest)) :
    ∃ lexeme, p lexeme = true ∧ ahead = lexeme :: rest := by
  cases ahead with
  | nil => cases h
  | cons lexeme tail =>
      simp only [Skip.one, Option.ite_none_right_eq_some, Option.some.injEq, Prod.mk.injEq] at h
      exact ⟨lexeme, h.1, by rw [h.2.2]⟩

/-- A token of a kind, read and passed over. The completer may ask for more of its lexeme, as long
as every settled one has it. -/
theorem agrees_expect {kind : TokenKind} {p : Lexeme → Bool} (hend : kind ≠ .endOfInput)
    (hp : ∀ lexeme : Lexeme, lexeme.isUnterminated = false →
      (p lexeme = true ↔ lexeme.kind = kind)) :
    Agrees cursor (expect kind) (Skip.one p) fun _ _ => True where
  passes := by
    intro ahead found rest hahead hskip
    obtain ⟨lexeme, hlexeme, rfl⟩ := one_eq_some hskip
    have hkind := (hp lexeme (hahead lexeme (by simp)).1).mp hlexeme
    refine .inl ⟨lexeme.literal, trivial, List.suffix_cons _ _, ?_⟩
    rw [lineOf_cons, expect_eq_ok, Lexeme.token, hkind]
  stops := by
    intro ahead value behind hahead hskip hrun
    rw [expect_eq_ok] at hrun
    cases ahead with
    | nil =>
        simp only [lineOf_nil, List.cons.injEq] at hrun
        exact hend (congrArg Token.kind hrun.1).symm
    | cons lexeme tail =>
        simp only [lineOf_cons, List.cons.injEq] at hrun
        have hlexeme := (hp lexeme (hahead lexeme (by simp)).1).mpr (congrArg Token.kind hrun.1)
        simp [Skip.one, hlexeme] at hskip

theorem agrees_kind {kind : TokenKind} (hend : kind ≠ .endOfInput) :
    Agrees cursor (expect kind) (Skip.kind kind) fun _ _ => True :=
  agrees_expect hend fun lexeme _ => by simp

theorem Agrees.last_item {item : Rule α} (hitem : Rule.Advances item) {skip : Skip β}
    {related : α → β → Prop} {separator : TokenKind} (h : Agrees cursor item skip related)
    {ahead rest : List Lexeme} {found : β} (hahead : Settled cursor ahead)
    (hskip : skip ahead = some (found, rest)) (hrest : Avoids [separator] (lineOf rest)) :
    (∃ values, True ∧ rest <:+ ahead ∧
      Rule.separated item hitem separator (lineOf ahead) = .ok values (lineOf rest)) ∨
    FailsByValue (Rule.separated item hitem separator) (lineOf ahead) := by
  rcases h.passes hahead hskip with ⟨value, -, hsuffix, hrun⟩ | ⟨cause, behind, hcause, hrun⟩
  · exact .inl ⟨[value], trivial, hsuffix, separated_of_avoids hitem hrun hrest⟩
  · exact .inr ⟨cause, behind, hcause, separated_of_error hitem hrun⟩

theorem agrees_separated {item : Rule α} {hitem : Rule.Advances item} {skip : Skip β}
    {hskip : Skip.Advances skip} {related : α → β → Prop} {separator : TokenKind}
    (h : Agrees cursor item skip related) (hend : separator ≠ .endOfInput) :
    Agrees cursor (Rule.separated item hitem separator) (Skip.separated skip hskip separator)
      fun _ _ => True where
  passes := by
    intro ahead
    fun_induction Skip.separated skip hskip separator ahead with
    | case1 => intro found rest _ h; cases h
    | case2 ahead first hfirst =>
        intro found rest hahead hpair
        cases hpair
        have hrest : Avoids [separator] (lineOf []) :=
          avoids_cons.mpr (by simpa [Token.atEnd] using hend.symm)
        exact h.last_item hitem hahead hfirst hrest
    | case3 ahead first lexeme tail hfirst hkind ih =>
        intro found rest hahead hpair
        rcases h.passes hahead hfirst with ⟨value, -, hsuffix, hrun⟩ | ⟨cause, behind, hcause, hrun⟩
        · have hmore := separated_of_kind hitem hrun hkind
          rcases ih (hahead.suffix hsuffix).tail hpair with ⟨values, -, hsuffix', hrun'⟩ | hfails
          · refine .inl ⟨value :: values, trivial, ?_, hmore.trans (map_of_ok hrun')⟩
            exact hsuffix'.trans ((List.suffix_cons _ _).trans hsuffix)
          · obtain ⟨cause, behind, hcause, hrun'⟩ := hfails.map (f := (value :: ·))
            exact .inr ⟨cause, behind, hcause, hmore.trans hrun'⟩
        · exact .inr ⟨cause, behind, hcause, separated_of_error hitem hrun⟩
    | case4 ahead first lexeme tail hfirst hkind =>
        intro found rest hahead hpair
        cases hpair
        have hrest : Avoids [separator] (lineOf (lexeme :: tail)) :=
          avoids_cons.mpr (by simpa [Lexeme.token] using hkind)
        exact h.last_item hitem hahead hfirst hrest
  stops := by
    intro ahead
    fun_induction Skip.separated skip hskip separator ahead with
    | case1 ahead hnone =>
        intro values behind hahead _ hrun
        cases hrule : item (lineOf ahead) with
        | ok value rest => exact h.stops hahead hnone hrule
        | error cause rest =>
            rw [separated_of_error hitem hrule] at hrun
            cases hrun
    | case2 => intro values behind _ h; cases h
    | case3 ahead first lexeme tail hfirst hkind ih =>
        intro values behind hahead hnone hrun
        rcases h.passes hahead hfirst with ⟨value, -, hsuffix, hrule⟩ | ⟨cause, rest, -, hrule⟩
        · rw [separated_of_kind hitem hrule hkind] at hrun
          obtain ⟨others, hothers, -⟩ := map_eq_ok hrun
          exact ih (hahead.suffix hsuffix).tail hnone hothers
        · rw [separated_of_error hitem hrule] at hrun
          cases hrun
    | case4 => intro values behind _ h; cases h

theorem agrees_scalar (kind : LiteralKind) :
    Agrees cursor (Rule.scalar kind) Skip.scalar fun _ _ => True where
  passes := by
    intro ahead found rest hahead hskip
    obtain ⟨lexeme, hlexeme, rfl⟩ := one_eq_some hskip
    have hkind : lexeme.kind = .int ∨ lexeme.kind = .float ∨ lexeme.kind = .string := by
      generalize lexeme.kind = found at hlexeme ⊢
      cases found <;> simp_all
    simp only [lineOf_cons, FailsByValue, Rule.scalar, Lexeme.token]
    rcases hkind with hkind | hkind | hkind
    · simp only [hkind]
      split
      · exact .inl ⟨_, trivial, List.suffix_cons _ _, rfl⟩
      · exact .inr ⟨.invalidLiteral .integer lexeme.literal, _, trivial, rfl⟩
    · simp only [hkind]
      exact .inl ⟨_, trivial, List.suffix_cons _ _, rfl⟩
    · simp only [hkind]
      exact .inl ⟨_, trivial, List.suffix_cons _ _, rfl⟩
  stops := by
    intro ahead value behind hahead hskip hrun
    obtain ⟨front, hfront, hphrase⟩ := (reads_scalar kind).sound hrun
    cases ahead with
    | nil => cases hphrase <;> cases hfront
    | cons lexeme tail =>
        have hterminated := (hahead lexeme (by simp)).1
        simp only [Skip.scalar, Skip.one] at hskip
        cases hphrase <;> simp_all [lineOf_cons, Lexeme.token]

theorem agrees_array : Agrees cursor Rule.array Skip.array fun _ _ => True := by
  refine (agrees_optional (by simp)).bind fun value found hfound => ?_
  subst hfound
  split
  · exact agrees_pure trivial
  · refine (agrees_separated (agrees_scalar _) (by simp)).bind fun _ _ _ => ?_
    exact (agrees_kind (by simp)).judged fun _ => judges_pure _

theorem agrees_timestamp : Agrees cursor Rule.timestamp Skip.timestamp fun _ _ => True := by
  refine (agrees_kind (by simp)).bind fun _ _ _ => ?_
  refine (agrees_expect (by simp) fun lexeme hterminated => ?_).bind fun raw _ _ => ?_
  · simp [hterminated]
  · refine (agrees_kind (by simp)).judged fun _ => ?_
    split
    · exact judges_pure _
    · exact judges_throw trivial

/-- The first lexeme of a value decides what both have to do with the others. -/
theorem value_cases (cursor : Nat) (lexeme : Lexeme) (tail : List Lexeme) :
    (∃ (rule : Rule FilterValue) (skip : Skip Unit) (ahead : List Lexeme),
      Agrees cursor rule skip (fun _ _ => True) ∧ ahead <:+ lexeme :: tail ∧
        Rule.value (lineOf (lexeme :: tail)) = rule (lineOf ahead) ∧
        Skip.value (lexeme :: tail) = skip ahead) ∨
      (∀ value behind, Rule.value (lineOf (lexeme :: tail)) ≠ .ok value behind) ∧
        Skip.value (lexeme :: tail) = none := by
  have hscalar : Agrees cursor (FilterValue.scalar <$> Rule.scalar .filterValue) Skip.scalar
      fun _ _ => True := (agrees_scalar _).map _
  have harray : Agrees cursor (FilterValue.array <$> Rule.array) Skip.array fun _ _ => True :=
    agrees_array.map _
  have htimestamp : Agrees cursor (FilterValue.timestamp <$> Rule.timestamp) Skip.timestamp
      fun _ _ => True := agrees_timestamp.map _
  simp only [lineOf_cons, Rule.value, Skip.value, Lexeme.token]
  split
  · rename_i hkind
    exact .inl ⟨_, _, lexeme :: tail, hscalar, List.suffix_rfl, rfl, by simp [hkind]⟩
  · rename_i hkind
    exact .inl ⟨_, _, lexeme :: tail, hscalar, List.suffix_rfl, rfl, by simp [hkind]⟩
  · rename_i hkind
    exact .inl ⟨_, _, lexeme :: tail, hscalar, List.suffix_rfl, rfl, by simp [hkind]⟩
  · rename_i hkind
    exact .inl ⟨_, _, tail, harray, List.suffix_cons _ _, rfl, by simp [hkind]⟩
  · rename_i hkind
    by_cases hname : isTimestampName lexeme.literal = true
    · exact .inl ⟨_, _, tail, htimestamp, List.suffix_cons _ _, by simp [hname],
        by simp [hkind, hname]⟩
    · exact .inr ⟨by simp [hname], by simp [hkind, hname]⟩
  · rename_i hkind
    exact .inr ⟨by simp, by simp [hkind, Skip.scalar, Skip.one]⟩
  · rename_i hint hfloat hstring hbracket hword hend
    refine .inr ⟨by simp, ?_⟩
    split
    · contradiction
    · contradiction
    · simp only [Skip.scalar, Skip.one]
      generalize lexeme.kind = kind at hint hfloat hstring ⊢
      cases kind <;> simp_all

theorem agrees_value : Agrees cursor Rule.value Skip.value fun _ _ => True where
  passes := by
    intro ahead found rest hahead hskip
    cases ahead with
    | nil => cases hskip
    | cons lexeme tail =>
        rcases value_cases cursor lexeme tail with
          ⟨rule, skip, ahead, hagrees, hsuffix, hrule, hskip'⟩ | ⟨-, hnone⟩
        · rw [hskip'] at hskip
          rw [FailsByValue, hrule]
          rcases hagrees.passes (hahead.suffix hsuffix) hskip with
            ⟨value, -, hsuffix', hrun⟩ | hfails
          · exact .inl ⟨value, trivial, hsuffix'.trans hsuffix, hrun⟩
          · exact .inr hfails
        · rw [hnone] at hskip
          cases hskip
  stops := by
    intro ahead value behind hahead hskip hrun
    cases ahead with
    | nil => cases hrun
    | cons lexeme tail =>
        rcases value_cases cursor lexeme tail with
          ⟨rule, skip, ahead, hagrees, hsuffix, hrule, hskip'⟩ | ⟨hrefused, -⟩
        · rw [hskip'] at hskip
          rw [hrule] at hrun
          exact hagrees.stops (hahead.suffix hsuffix) hskip hrun
        · exact hrefused value behind hrun

theorem agrees_operator :
    Agrees cursor Rule.operator (Skip.one fun lexeme => (Operator.ofKind? lexeme.kind).isSome)
      fun _ _ => True where
  passes := by
    intro ahead found rest hahead hskip
    obtain ⟨lexeme, hlexeme, rfl⟩ := one_eq_some hskip
    obtain ⟨operator, hoperator⟩ := Option.isSome_iff_exists.mp hlexeme
    refine .inl ⟨operator, trivial, List.suffix_cons _ _, ?_⟩
    exact operator_eq_ok.mpr ⟨_, _, ofKind?_eq_some_iff.mp hoperator, rfl⟩
  stops := by
    intro ahead value behind hahead hskip hrun
    obtain ⟨kind, literal, hphrase, hahead'⟩ := operator_eq_ok.mp hrun
    cases ahead with
    | nil =>
        simp only [lineOf_nil, Token.atEnd, List.cons.injEq, Token.mk.injEq] at hahead'
        obtain ⟨⟨rfl, -⟩, -⟩ := hahead'
        cases hphrase
    | cons lexeme tail =>
        simp only [lineOf_cons, List.cons.injEq, Lexeme.token, Token.mk.injEq] at hahead'
        obtain ⟨⟨rfl, -⟩, -⟩ := hahead'
        simp [Skip.one, ofKind?_eq_some_iff.mpr hphrase] at hskip

theorem agrees_filter : Agrees cursor Rule.filter Skip.filter fun _ _ => True := by
  refine (agrees_kind (by simp)).bind fun field _ _ => ?_
  refine agrees_operator.bind fun operator _ _ => ?_
  refine agrees_value.judged fun value => ?_
  split
  · exact judges_pure _
  · exact judges_throw trivial

theorem agrees_limit : Agrees cursor Rule.limit (Skip.kind .int) fun _ _ => True := by
  refine (agrees_kind (by simp)).judged fun literal => ?_
  split
  · exact judges_pure _
  · exact judges_throw trivial

theorem agrees_ordering : Agrees cursor Rule.ordering Skip.ordering fun _ _ => True := by
  refine (agrees_kind (by simp)).bind fun field _ _ => agrees_of_ok fun ahead => ?_
  -- The rule looks for the descending direction first and the skip for the ascending one.
  rcases optional_cases (by simp : TokenKind.keyword .desc ≠ .endOfInput) ahead with
    ⟨lexeme, tail, rfl, hkind, hdesc, hskipDesc⟩ | ⟨hnotDesc, hdesc, hskipDesc⟩
  · have hskipAsc : Skip.optional (.keyword .asc) (lexeme :: tail) = some (false, lexeme :: tail) :=
      if_neg (by simp [hkind])
    refine ⟨⟨field, .descending⟩, true, tail, ?_, ?_, trivial, List.suffix_cons _ _⟩
    · exact bind_of_ok hdesc
    · simp only [Skip.bind_apply, hskipAsc, Option.bind_some]
      exact hskipDesc
  · rcases optional_cases (by simp : TokenKind.keyword .asc ≠ .endOfInput) ahead with
      ⟨lexeme, tail, rfl, -, hasc, hskipAsc⟩ | ⟨-, hasc, hskipAsc⟩
    · refine ⟨⟨field, .ascending⟩, true, tail, ?_, ?_, trivial, List.suffix_cons _ _⟩
      · exact (bind_of_ok hdesc).trans (bind_of_ok hasc)
      · simp only [Skip.bind_apply, hskipAsc, Option.bind_some]
        rfl
    · refine ⟨⟨field, .ascending⟩, false, ahead, ?_, ?_, trivial, List.suffix_rfl⟩
      · exact (bind_of_ok hdesc).trans (bind_of_ok hasc)
      · simp only [Skip.bind_apply, hskipAsc, Option.bind_some]
        exact hskipDesc

end DocShell.Completion
