import DocShell.Proofs.Numeral
import DocShell.Proofs.Phrase

namespace DocShell.Query

open DocShell.Number

variable {α β : Type}

namespace Rule

theorem bind_of_ok {rule : Rule α} {next : α → Rule β} {ahead middle : List Token} {value : α}
    (h : rule ahead = .ok value middle) : (rule >>= next) ahead = next value middle := by
  simp only [bind, EStateM.bind, h]

theorem bind_of_error {rule : Rule α} {next : α → Rule β} {ahead rest : List Token}
    {cause : ParseError} (h : rule ahead = .error cause rest) :
    (rule >>= next) ahead = .error cause rest := by
  simp only [bind, EStateM.bind, h]

theorem map_of_ok {f : α → β} {rule : Rule α} {ahead rest : List Token} {value : α}
    (h : rule ahead = .ok value rest) : (f <$> rule) ahead = .ok (f value) rest := by
  simp only [Functor.map, EStateM.map, h]

theorem map_of_error {f : α → β} {rule : Rule α} {ahead rest : List Token} {cause : ParseError}
    (h : rule ahead = .error cause rest) : (f <$> rule) ahead = .error cause rest := by
  simp only [Functor.map, EStateM.map, h]

theorem pure_eq_ok {value found : α} {ahead rest : List Token} :
    (pure value : Rule α) ahead = .ok found rest ↔ value = found ∧ ahead = rest := by
  simp only [pure, EStateM.pure, EStateM.Result.ok.injEq]

theorem throw_ne_ok {cause : ParseError} {value : α} {ahead rest : List Token} :
    (throw cause : Rule α) ahead ≠ .ok value rest := by
  intro h
  cases h

/-- The next token, if there is one, is of none of these kinds. -/
def Avoids (kinds : List TokenKind) (ahead : List Token) : Prop :=
  ∀ token ∈ ahead.head?, token.kind ∉ kinds

theorem avoids_nil (kinds : List TokenKind) : Avoids kinds [] := by
  simp [Avoids]

theorem avoids_cons {kinds : List TokenKind} {token : Token} {rest : List Token} :
    Avoids kinds (token :: rest) ↔ token.kind ∉ kinds := by
  simp [Avoids]

theorem Avoids.mono {kinds kinds' : List TokenKind} {ahead : List Token}
    (h : Avoids kinds' ahead) (hsub : kinds ⊆ kinds') : Avoids kinds ahead :=
  fun token hmem hkind => h token hmem (hsub hkind)

/-- A rule reads phrases of a sort. The tokens in `further` could go on after a phrase. -/
structure Reads (rule : Rule α) (phrase : List Token → α → Prop) (further : List TokenKind) :
    Prop where
  sound : ∀ {ahead value rest}, rule ahead = .ok value rest →
    ∃ front, ahead = front ++ rest ∧ phrase front value
  complete : ∀ {front value rest}, phrase front value → Avoids further rest →
    rule (front ++ rest) = .ok value rest

theorem expect_eq_ok {kind : TokenKind} {ahead rest : List Token} {literal : String} :
    expect kind ahead = .ok literal rest ↔ ahead = ⟨kind, literal⟩ :: rest := by
  cases ahead with
  | nil => simp [expect]
  | cons token tokens =>
      obtain ⟨kind', literal'⟩ := token
      simp only [expect, List.cons.injEq, Token.mk.injEq]
      split
      · rename_i hkind
        simp only [EStateM.Result.ok.injEq, hkind, true_and]
      · rename_i hkind
        constructor
        · intro h
          cases h
        · rintro ⟨⟨hkind', -⟩, -⟩
          exact absurd hkind' hkind

theorem optional_eq_ok {kind : TokenKind} {ahead rest : List Token} {found : Option String}
    (h : optional kind ahead = .ok found rest) :
    (∃ literal, found = some literal ∧ ahead = ⟨kind, literal⟩ :: rest) ∨
      found = none ∧ ahead = rest ∧ Avoids [kind] rest := by
  cases ahead with
  | nil =>
      simp only [optional, EStateM.Result.ok.injEq] at h
      obtain ⟨rfl, rfl⟩ := h
      exact .inr ⟨rfl, rfl, avoids_nil _⟩
  | cons token tokens =>
      obtain ⟨kind', literal⟩ := token
      simp only [optional] at h
      split at h
      · rename_i hkind
        simp only [EStateM.Result.ok.injEq] at h
        obtain ⟨rfl, rfl⟩ := h
        subst hkind
        exact .inl ⟨literal, rfl, rfl⟩
      · rename_i hkind
        simp only [EStateM.Result.ok.injEq] at h
        obtain ⟨rfl, rfl⟩ := h
        exact .inr ⟨rfl, rfl, avoids_cons.mpr (by simpa using hkind)⟩

theorem optional_of_kind (kind : TokenKind) (literal : String) (rest : List Token) :
    optional kind (⟨kind, literal⟩ :: rest) = .ok (some literal) rest := by
  simp [optional]

theorem optional_of_avoids {kind : TokenKind} {ahead : List Token} (h : Avoids [kind] ahead) :
    optional kind ahead = .ok none ahead := by
  cases ahead with
  | nil => rfl
  | cons token tokens =>
      have hkind : token.kind ≠ kind := by simpa using avoids_cons.mp h
      simp [optional, hkind]

section Separated

variable {item : Rule α} (hitem : Advances item) {separator : TokenKind} {ahead rest : List Token}
  {value : α}

theorem separated_of_error {cause : ParseError} (h : item ahead = .error cause rest) :
    separated item hitem separator ahead = .error cause rest := by
  rw [separated, h]

theorem separated_of_avoids (h : item ahead = .ok value rest) (hrest : Avoids [separator] rest) :
    separated item hitem separator ahead = .ok [value] rest := by
  rw [separated, h]
  cases rest with
  | nil => rfl
  | cons token tail =>
      have hkind : token.kind ≠ separator := by simpa using avoids_cons.mp hrest
      simp [hkind]

theorem separated_of_kind {token : Token} (h : item ahead = .ok value (token :: rest))
    (hkind : token.kind = separator) :
    separated item hitem separator ahead =
      ((value :: ·) <$> separated item hitem separator : Rule (List α)) rest := by
  rw [separated, h]
  simp only [hkind, if_true, Functor.map, EStateM.map]
  cases separated item hitem separator rest <;> rfl

end Separated

theorem separated_eq (item : Rule α) (hitem : Advances item) (separator : TokenKind) :
    separated item hitem separator =
      (item >>= fun value => optional separator >>= fun found =>
        match found with
        | none => pure [value]
        | some _ => (value :: ·) <$> separated item hitem separator : Rule (List α)) := by
  funext ahead
  cases hrun : item ahead with
  | error cause rest =>
      rw [separated_of_error hitem hrun]
      exact (bind_of_error hrun).symm
  | ok value rest =>
      refine Eq.trans ?_ (bind_of_ok hrun).symm
      by_cases hrest : Avoids [separator] rest
      · rw [separated_of_avoids hitem hrun hrest]
        refine Eq.trans ?_ (bind_of_ok (optional_of_avoids hrest)).symm
        rfl
      · obtain ⟨token, tail, rfl, hkind⟩ : ∃ token tail, rest = token :: tail ∧
            token.kind = separator := by
          cases rest with
          | nil => exact absurd (avoids_nil _) hrest
          | cons token tail => exact ⟨token, tail, rfl, by simpa [avoids_cons] using hrest⟩
        have hfound : optional separator (token :: tail) = .ok (some token.literal) tail :=
          if_pos hkind
        rw [separated_of_kind hitem hrun hkind]
        refine Eq.trans ?_ (bind_of_ok hfound).symm
        rfl

theorem reads_separated {item : Rule α} (hitem : Advances item) (separator : TokenKind)
    {phrase : List Token → α → Prop} {further : List TokenKind} (hreads : Reads item phrase further)
    (hseparator : separator ∉ further) :
    Reads (separated item hitem separator) (Separated phrase separator) (separator :: further) where
  sound := by
    intro ahead
    fun_induction separated item hitem separator ahead with
    | case1 => intro value rest h; cases h
    | case2 ahead first hrun =>
        intro value rest h
        simp only [EStateM.Result.ok.injEq] at h
        obtain ⟨rfl, rfl⟩ := h
        obtain ⟨front, rfl, hfront⟩ := hreads.sound hrun
        exact ⟨front, rfl, .one hfront⟩
    | case3 ahead first token tail hrun hkind values tail' hrest ih =>
        intro value rest h
        simp only [EStateM.Result.ok.injEq] at h
        obtain ⟨rfl, rfl⟩ := h
        obtain ⟨front, rfl, hfront⟩ := hreads.sound hrun
        obtain ⟨later, rfl, hlater⟩ := ih hrest
        obtain ⟨kind, literal⟩ := token
        subst hkind
        exact ⟨front ++ ⟨kind, literal⟩ :: later, by simp, .more hfront hlater⟩
    | case4 => intro value rest h; cases h
    | case5 ahead first token tail hrun hkind =>
        intro value rest h
        simp only [EStateM.Result.ok.injEq] at h
        obtain ⟨rfl, rfl⟩ := h
        obtain ⟨front, rfl, hfront⟩ := hreads.sound hrun
        exact ⟨front, rfl, .one hfront⟩
  complete := by
    intro front values rest hphrase havoid
    induction hphrase with
    | @one tokens value hvalue =>
        have hrun := hreads.complete hvalue (havoid.mono (List.subset_cons_self _ _))
        rw [separated, hrun]
        cases rest with
        | nil => rfl
        | cons token tail =>
            have hkind : token.kind ≠ separator := by
              have hmem := avoids_cons.mp havoid
              simp only [List.mem_cons, not_or] at hmem
              exact hmem.1
            simp [hkind]
    | @more tokens later literal value values hvalue _ ih =>
        have hmore : Avoids further (⟨separator, literal⟩ :: (later ++ rest)) :=
          avoids_cons.mpr hseparator
        have hrun := hreads.complete hvalue hmore
        rw [List.append_assoc, List.cons_append, separated, hrun]
        simp only [if_true, ih]

theorem reads_field : Reads (expect .word) FieldPhrase [] where
  sound := by
    intro ahead field rest h
    rw [expect_eq_ok] at h
    exact ⟨[⟨.word, field⟩], h, .word⟩
  complete := by
    rintro front field rest ⟨⟩ -
    exact expect_eq_ok.mpr rfl

theorem reads_scalar (kind : LiteralKind) : Reads (scalar kind) ScalarPhrase [] where
  sound := by
    intro ahead value rest h
    rcases ahead with _ | ⟨⟨kind', literal⟩, tokens⟩
    · cases h
    · simp only [scalar] at h
      split at h
      · split at h
        · rename_i number hnumber
          obtain ⟨hvalue, hlow, hhigh⟩ := Decimal.toInt64?_eq_some_iff.mp hnumber
          cases h
          exact ⟨[⟨.int, literal⟩], rfl, .int hvalue hlow hhigh⟩
        · cases h
      · cases h
        exact ⟨[⟨.float, literal⟩], rfl, .float⟩
      · cases h
        exact ⟨[⟨.string, literal⟩], rfl, .string⟩
      · cases h
  complete := by
    rintro front value rest hphrase -
    cases hphrase with
    | int hvalue hlow hhigh =>
        have hnumber := Decimal.toInt64?_eq_some_iff.mpr ⟨hvalue, hlow, hhigh⟩
        simp [scalar, hnumber]
    | float => rfl
    | string => rfl

theorem array_eq_ok {ahead rest : List Token} {items : List Scalar} :
    array ahead = .ok items rest ↔
      (∃ closing, items = [] ∧ ahead = ⟨.punctuation .closeBracket, closing⟩ :: rest) ∨
      ∃ tokens closing, Separated ScalarPhrase (.punctuation .comma) tokens items ∧
        ahead = tokens ++ ⟨.punctuation .closeBracket, closing⟩ :: rest := by
  have hitems := reads_separated (scalar_advances .arrayElement) (.punctuation .comma)
    (reads_scalar .arrayElement) (by simp)
  constructor
  · intro h
    obtain ⟨found, middle, hclosing, h⟩ := bind_eq_ok h
    rcases optional_eq_ok hclosing with ⟨closing, rfl, rfl⟩ | ⟨rfl, rfl, -⟩
    · obtain ⟨rfl, rfl⟩ := pure_eq_ok.mp h
      exact .inl ⟨closing, rfl, rfl⟩
    · obtain ⟨values, middle, hvalues, h⟩ := bind_eq_ok h
      obtain ⟨closing, last, hlast, h⟩ := bind_eq_ok h
      obtain ⟨rfl, rfl⟩ := pure_eq_ok.mp h
      obtain ⟨tokens, rfl, htokens⟩ := hitems.sound hvalues
      rw [expect_eq_ok] at hlast
      exact .inr ⟨tokens, closing, htokens, by rw [hlast]⟩
  · rintro (⟨closing, rfl, rfl⟩ | ⟨tokens, closing, htokens, rfl⟩)
    · exact bind_of_ok (optional_of_kind _ _ _)
    · have hopen : Avoids [.punctuation .closeBracket]
          (tokens ++ ⟨.punctuation .closeBracket, closing⟩ :: rest) := by
        cases htokens with
        | one hvalue => cases hvalue <;> simp [Avoids]
        | more hvalue => cases hvalue <;> simp [Avoids]
      have hrest : Avoids [.punctuation .comma]
          (⟨.punctuation .closeBracket, closing⟩ :: rest) := avoids_cons.mpr (by simp)
      rw [array, bind_of_ok (optional_of_avoids hopen)]
      refine (bind_of_ok (hitems.complete htokens hrest)).trans ?_
      exact bind_of_ok (expect_eq_ok.mpr rfl)

theorem timestamp_eq_ok {ahead rest : List Token} {value : Time.Timestamp} :
    timestamp ahead = .ok value rest ↔
      ∃ opening raw closing, Time.Timestamp.ofText? raw = some value ∧
        ahead = ⟨.punctuation .openParen, opening⟩ :: ⟨.string, raw⟩ ::
          ⟨.punctuation .closeParen, closing⟩ :: rest := by
  constructor
  · intro h
    obtain ⟨opening, inner, hopening, h⟩ := bind_eq_ok h
    obtain ⟨raw, back, hraw, h⟩ := bind_eq_ok h
    obtain ⟨closing, last, hclosing, hvalue⟩ := bind_eq_ok h
    rw [expect_eq_ok] at hopening hraw hclosing
    cases hfound : Time.Timestamp.ofText? raw with
    | none =>
        simp only [hfound] at hvalue
        exact absurd hvalue throw_ne_ok
    | some found =>
        simp only [hfound] at hvalue
        obtain ⟨rfl, rfl⟩ := pure_eq_ok.mp hvalue
        exact ⟨opening, raw, closing, hfound, by rw [hopening, hraw, hclosing]⟩
  · rintro ⟨opening, raw, closing, hvalue, rfl⟩
    refine (bind_of_ok (expect_eq_ok.mpr rfl)).trans ?_
    refine (bind_of_ok (expect_eq_ok.mpr rfl)).trans ?_
    refine (bind_of_ok (expect_eq_ok.mpr rfl)).trans ?_
    simp only [hvalue]
    rfl

theorem reads_value : Reads value ValuePhrase [] where
  sound := by
    intro ahead found rest h
    rcases ahead with _ | ⟨⟨kind, literal⟩, tokens⟩
    · cases h
    · have hscalar : (FilterValue.scalar <$> scalar .filterValue) (⟨kind, literal⟩ :: tokens) =
          .ok found rest → ∃ front, ⟨kind, literal⟩ :: tokens = front ++ rest ∧
            ValuePhrase front found := by
        intro h
        obtain ⟨value, hvalue, rfl⟩ := map_eq_ok h
        obtain ⟨front, hfront, hphrase⟩ := (reads_scalar _).sound hvalue
        exact ⟨front, hfront, .scalar hphrase⟩
      simp only [value] at h
      split at h
      · exact hscalar h
      · exact hscalar h
      · exact hscalar h
      · obtain ⟨items, hitems, rfl⟩ := map_eq_ok h
        rcases array_eq_ok.mp hitems with ⟨closing, rfl, rfl⟩ | ⟨inner, closing, hinner, rfl⟩
        · exact ⟨[_, _], rfl, .empty⟩
        · exact ⟨⟨_, literal⟩ :: (inner ++ [⟨_, closing⟩]), by simp, .array hinner⟩
      · split at h
        · rename_i hname
          obtain ⟨value, hvalue, rfl⟩ := map_eq_ok h
          obtain ⟨opening, raw, closing, hraw, rfl⟩ := timestamp_eq_ok.mp hvalue
          exact ⟨[_, _, _, _], rfl, .timestamp hname hraw⟩
        · cases h
      · cases h
      · cases h
  complete := by
    rintro front found rest hphrase havoid
    cases hphrase with
    | scalar hvalue =>
        have hrun := (reads_scalar .filterValue).complete hvalue havoid
        cases hvalue with
        | int hvalue hlow hhigh => exact map_of_ok hrun
        | float => exact map_of_ok hrun
        | string => exact map_of_ok hrun
    | empty => exact map_of_ok (array_eq_ok.mpr (.inl ⟨_, rfl, rfl⟩))
    | array hitems =>
        rw [List.cons_append, List.append_assoc]
        exact map_of_ok (array_eq_ok.mpr (.inr ⟨_, _, hitems, rfl⟩))
    | timestamp hname hraw =>
        simp only [List.cons_append, List.nil_append, value, hname, if_true]
        exact map_of_ok (timestamp_eq_ok.mpr ⟨_, _, _, hraw, rfl⟩)

theorem ofKind?_eq_some_iff {kind : TokenKind} {operator : Operator} :
    Operator.ofKind? kind = some operator ↔ OperatorPhrase kind operator := by
  constructor
  · intro h
    unfold Operator.ofKind? at h
    split at h <;> cases h <;> constructor
  · rintro ⟨⟩ <;> rfl

theorem operator_eq_ok {ahead rest : List Token} {found : Operator} :
    operator ahead = .ok found rest ↔
      ∃ kind literal, OperatorPhrase kind found ∧ ahead = ⟨kind, literal⟩ :: rest := by
  rcases ahead with _ | ⟨⟨kind, literal⟩, tokens⟩
  · simp [operator]
  · simp only [operator, List.cons.injEq, Token.mk.injEq]
    constructor
    · intro h
      split at h
      · rename_i hkind
        cases h
        exact ⟨kind, literal, ofKind?_eq_some_iff.mp hkind, ⟨rfl, rfl⟩, rfl⟩
      · split at h <;> cases h
    · rintro ⟨kind', literal', hphrase, ⟨rfl, rfl⟩, rfl⟩
      rw [ofKind?_eq_some_iff.mpr hphrase]

theorem reads_filter : Reads filter FilterPhrase [] where
  sound := by
    intro ahead found rest h
    obtain ⟨field, behindField, hfield, h⟩ := bind_eq_ok h
    obtain ⟨operator, behindOperator, hoperator, h⟩ := bind_eq_ok h
    obtain ⟨value, behindValue, hvalue, hcheck⟩ := bind_eq_ok h
    rw [expect_eq_ok] at hfield
    obtain ⟨kind, literal, hkind, rfl⟩ := operator_eq_ok.mp hoperator
    obtain ⟨front, rfl, hfront⟩ := reads_value.sound hvalue
    split at hcheck
    · rename_i htakes
      obtain ⟨rfl, rfl⟩ := pure_eq_ok.mp hcheck
      exact ⟨_ :: _ :: front, by rw [hfield]; rfl, .compare hkind hfront htakes⟩
    · exact absurd hcheck throw_ne_ok
  complete := by
    rintro front found rest ⟨hkind, hvalue, htakes⟩ havoid
    refine (bind_of_ok (expect_eq_ok.mpr rfl)).trans ?_
    refine (bind_of_ok (operator_eq_ok.mpr ⟨_, _, hkind, rfl⟩)).trans ?_
    refine (bind_of_ok (reads_value.complete hvalue havoid)).trans ?_
    simp only [htakes, if_true]
    rfl

theorem reads_ordering : Reads ordering OrderingPhrase [.keyword .asc, .keyword .desc] where
  sound := by
    intro ahead found rest h
    obtain ⟨field, behindField, hfield, h⟩ := bind_eq_ok h
    obtain ⟨descending, behindDescending, hdescending, h⟩ := bind_eq_ok h
    rw [expect_eq_ok] at hfield
    rcases optional_eq_ok hdescending with ⟨literal, rfl, rfl⟩ | ⟨rfl, rfl, -⟩
    · obtain ⟨rfl, rfl⟩ := pure_eq_ok.mp h
      exact ⟨[_, _], hfield, .descending⟩
    · obtain ⟨ascending, behindAscending, hascending, hfound⟩ := bind_eq_ok h
      obtain ⟨rfl, rfl⟩ := pure_eq_ok.mp hfound
      rcases optional_eq_ok hascending with ⟨literal, rfl, rfl⟩ | ⟨rfl, rfl, -⟩
      · exact ⟨[_, _], hfield, .ascending⟩
      · exact ⟨[_], hfield, .plain⟩
  complete := by
    rintro front found rest hphrase havoid
    have hdesc : Avoids [.keyword .desc] rest := havoid.mono (by simp)
    have hasc : Avoids [.keyword .asc] rest := havoid.mono (by simp)
    cases hphrase with
    | plain =>
        refine (bind_of_ok (expect_eq_ok.mpr rfl)).trans ?_
        refine (bind_of_ok (optional_of_avoids hdesc)).trans ?_
        exact bind_of_ok (optional_of_avoids hasc)
    | ascending =>
        refine (bind_of_ok (expect_eq_ok.mpr rfl)).trans ?_
        refine (bind_of_ok (optional_of_avoids (avoids_cons.mpr (by simp)))).trans ?_
        exact bind_of_ok (optional_of_kind _ _ _)
    | descending =>
        refine (bind_of_ok (expect_eq_ok.mpr rfl)).trans ?_
        exact bind_of_ok (optional_of_kind _ _ _)

theorem limit_eq_ok {ahead rest : List Token} {found : Nat} :
    limit ahead = .ok found rest ↔
      ∃ literal : String, literal.toList.head? ≠ some '-' ∧
        Decimal.ofDigits literal.toList = found ∧ found < 0x10000000000000000 ∧
        ahead = ⟨.int, literal⟩ :: rest := by
  constructor
  · intro h
    obtain ⟨literal, behind, hliteral, hvalue⟩ := bind_eq_ok h
    rw [expect_eq_ok] at hliteral
    cases hnumber : Decimal.toNat64? literal.toList with
    | none =>
        simp only [hnumber] at hvalue
        exact absurd hvalue throw_ne_ok
    | some number =>
        simp only [hnumber] at hvalue
        obtain ⟨rfl, rfl⟩ := pure_eq_ok.mp hvalue
        obtain ⟨hsign, hdigits, hrange⟩ := Decimal.toNat64?_eq_some_iff.mp hnumber
        exact ⟨literal, hsign, hdigits, hrange, hliteral⟩
  · rintro ⟨literal, hsign, hdigits, hrange, rfl⟩
    have hnumber := Decimal.toNat64?_eq_some_iff.mpr ⟨hsign, hdigits, hrange⟩
    refine (bind_of_ok (expect_eq_ok.mpr rfl)).trans ?_
    simp only [hnumber]
    rfl

/-- The tokens that could go on after the body of some clause. -/
def bodyFurther : List TokenKind :=
  [.punctuation .comma, .keyword .andWord, .keyword .asc, .keyword .desc]

theorem reads_body (clause : Clause) (opening : String) :
    Reads (body clause) (fun tokens => ClausePhrase (⟨clause.opener, opening⟩ :: tokens))
      bodyFurther := by
  have hselect :=
    reads_separated (expect_advances .word) (.punctuation .comma) reads_field (by simp)
  have hfilter := reads_separated filter_advances (.keyword .andWord) reads_filter (by simp)
  have horder := reads_separated ordering_advances (.punctuation .comma) reads_ordering (by simp)
  constructor
  · intro ahead found rest h
    cases clause with
    | select =>
        obtain ⟨fields, hfields, rfl⟩ := map_eq_ok h
        obtain ⟨front, rfl, hfront⟩ := hselect.sound hfields
        exact ⟨front, rfl, .select hfront⟩
    | filter =>
        obtain ⟨filters, hfilters, rfl⟩ := map_eq_ok h
        obtain ⟨front, rfl, hfront⟩ := hfilter.sound hfilters
        exact ⟨front, rfl, .filter hfront⟩
    | order =>
        obtain ⟨second, behind, hsecond, h⟩ := bind_eq_ok h
        obtain ⟨orderings, horderings, rfl⟩ := map_eq_ok h
        obtain ⟨front, rfl, hfront⟩ := horder.sound horderings
        rw [expect_eq_ok] at hsecond
        exact ⟨_ :: front, hsecond, .order hfront⟩
    | limit =>
        obtain ⟨number, hnumber, rfl⟩ := map_eq_ok h
        obtain ⟨literal, hsign, rfl, hrange, rfl⟩ := limit_eq_ok.mp hnumber
        exact ⟨[_], rfl, .limit hsign hrange⟩
  · intro front found rest hphrase havoid
    cases clause with
    | select =>
        cases hphrase with
        | select hfields =>
            exact map_of_ok (hselect.complete hfields (havoid.mono (by simp [bodyFurther])))
    | filter =>
        cases hphrase with
        | filter hfilters =>
            exact map_of_ok (hfilter.complete hfilters (havoid.mono (by simp [bodyFurther])))
    | order =>
        cases hphrase with
        | order horderings =>
            refine (bind_of_ok (expect_eq_ok.mpr rfl)).trans ?_
            exact map_of_ok (horder.complete horderings (havoid.mono (by simp [bodyFurther])))
    | limit =>
        cases hphrase with
        | limit hsign hrange => exact map_of_ok (limit_eq_ok.mpr ⟨_, hsign, rfl, hrange, rfl⟩)

end Rule

end DocShell.Query
