import DocShell.Completion.Cache
import DocShell.Proofs.Likeness
import DocShell.Proofs.Narrowing
import Mathlib

/-!
A keyword may be written in capitals, in small letters or in both.
Main statement: a line whose keywords are written otherwise has the same lexemes at the same places,
is parsed to the same operation, and the same is suggested behind it.
-/

namespace DocShell.Query

open DocShell.Text.Ascii
open DocShell.Text.Bytes

section Letters

/-- What does not tell letters apart does not tell apart their cases. -/
theorem apply_toLower {α : Type} {f : Char → α}
    (hf : ∀ c d : Char, c.isAlpha = true → d.isAlpha = true → f d = f c) (c : Char) :
    f c.toLower = f c := by
  rcases toLower_cases c with hsame | ⟨hc, hlower⟩
  · rw [hsame]
  · exact hf _ _ hc hlower

theorem toLower_eq_iff {c d : Char} (hd : d.isAlpha = false) : c.toLower = d ↔ c = d := by
  rcases toLower_cases c with hsame | ⟨hc, hlower⟩
  · rw [hsame]
  · constructor
    · rintro rfl
      rw [hlower] at hd
      cases hd
    · rintro rfl
      rw [hc] at hd
      cases hd

theorem isDigit_toLower (c : Char) : c.toLower.isDigit = c.isDigit :=
  apply_toLower (fun _ _ hc hd => by
    rw [not_isDigit_of_isWordStart (isWordStart_of_isAlpha hc),
      not_isDigit_of_isWordStart (isWordStart_of_isAlpha hd)]) c

theorem isWordChar_toLower (c : Char) : isWordChar c.toLower = isWordChar c := by
  rw [isWordChar, isWordChar, isWordStart_toLower, isDigit_toLower]

theorem isSeparator_toLower (c : Char) : isSeparator c.toLower = isSeparator c := by
  have hletter : ∀ d : Char, d.isAlpha = true → isSeparator d = false := fun d hd =>
    not_isSeparator_of_isWordChar (by simp [isWordChar, isWordStart_of_isAlpha hd])
  exact apply_toLower (fun _ _ hc hd => by rw [hletter _ hc, hletter _ hd]) c

theorem ofChar?_toLower (c : Char) : Punctuation.ofChar? c.toLower = Punctuation.ofChar? c := by
  have hletter : ∀ d : Char, d.isAlpha = true → Punctuation.ofChar? d = none := by
    intro d hd
    unfold Punctuation.ofChar?
    split <;> first | rfl | cases hd
  exact apply_toLower (fun _ _ hc hd => by rw [hletter _ hc, hletter _ hd]) c

theorem ofWord_lower (word : List Char) :
    TokenKind.ofWord (lower word) = TokenKind.ofWord word := by
  have hupper : (lower word).map Char.toUpper = word.map Char.toUpper := by
    rw [lower, List.map_map]
    exact List.map_congr_left fun c _ => c.toUpper_toLower_eq_toUpper
  rw [TokenKind.ofWord, TokenKind.ofWord, Keyword.ofWord?, Keyword.ofWord?, hupper]

end Letters

section Munch

theorem takeWhile_lower {p : Char → Bool} (hp : ∀ c : Char, p c.toLower = p c) (cs : List Char) :
    (lower cs).takeWhile p = lower (cs.takeWhile p) := by
  have hsame : p ∘ Char.toLower = p := funext hp
  rw [lower, List.takeWhile_map, hsame, lower]

theorem dropWhile_lower {p : Char → Bool} (hp : ∀ c : Char, p c.toLower = p c) (cs : List Char) :
    (lower cs).dropWhile p = lower (cs.dropWhile p) := by
  have hsame : p ∘ Char.toLower = p := funext hp
  rw [lower, List.dropWhile_map, hsame, lower]

theorem quoted_lower {quote : Char} (hquote : quote.isAlpha = false) (cs : List Char) :
    quoted quote (lower cs) = (lower (quoted quote cs).1, lower (quoted quote cs).2) := by
  induction cs with
  | nil => rfl
  | cons c cs ih =>
      rw [lower_cons, quoted, quoted, ih]
      by_cases hc : c = quote
      · rw [if_pos hc, if_pos ((toLower_eq_iff hquote).mpr hc)]
        rfl
      · rw [if_neg hc, if_neg fun hlower => hc ((toLower_eq_iff hquote).mp hlower)]
        rfl

theorem number_lower (cs : List Char) :
    number (lower cs) = ((number cs).1, lower (number cs).2.1, lower (number cs).2.2) := by
  simp only [number, takeWhile_lower isDigit_toLower, dropWhile_lower isDigit_toLower]
  rcases cs.dropWhile Char.isDigit with _ | ⟨d, rest⟩
  · rfl
  · by_cases hd : d = '.'
    · subst hd
      simp [takeWhile_lower isDigit_toLower, dropWhile_lower isDigit_toLower]
    · have hlower : d.toLower ≠ '.' := fun h => hd ((toLower_eq_iff rfl).mp h)
      simp [hd, hlower]

theorem comparison_of_isAlpha {c : Char} (hc : c.isAlpha = true) (cs : List Char) :
    comparison c cs = (.illegal, [], cs) := by
  unfold comparison
  split <;> first | rfl | cases hc

theorem comparison_lower (c : Char) (cs : List Char) :
    comparison c.toLower (lower cs) =
      ((comparison c cs).1, lower (comparison c cs).2.1, lower (comparison c cs).2.2) := by
  rcases toLower_cases c with hsame | ⟨hc, hlower⟩
  · rw [hsame]
    cases cs with
    | nil =>
        unfold comparison
        split <;> simp_all
    | cons d cs =>
        by_cases hd : d = '='
        · subst hd
          have hequal : lower ('=' :: cs) = '=' :: lower cs := rfl
          rw [hequal]
          unfold comparison
          split <;> simp_all
        · have hnot : d.toLower ≠ '=' := fun h => hd ((toLower_eq_iff rfl).mp h)
          rw [lower_cons]
          unfold comparison
          split <;> simp_all
  · rw [comparison_of_isAlpha hc, comparison_of_isAlpha hlower]
    rfl

/-- A text in small letters is cut at the same places. What begins with a backslash may be a command
in small letters only. -/
theorem munch_lower (first : Bool) (c : Char) (cs : List Char) :
    ∃ kind, munch first c.toLower (lower cs) =
        (kind, lower (munch first c cs).2.1, lower (munch first c cs).2.2) ∧
      (¬(first = true ∧ c = '\\') → kind = (munch first c cs).1) := by
  have hbeq : ∀ d : Char, d.isAlpha = false → (c.toLower == d) = (c == d) := by
    intro d hd
    rw [Bool.eq_iff_iff, beq_iff_eq, beq_iff_eq, toLower_eq_iff hd]
  have hhead : (lower cs).head?.any Char.isDigit = cs.head?.any Char.isDigit := by
    cases cs with
    | nil => rfl
    | cons d cs => exact isDigit_toLower d
  unfold munch
  rw [hbeq '\\' rfl, hbeq '"' rfl, hbeq '\'' rfl, hbeq '-' rfl, hhead, isDigit_toLower,
    isWordStart_toLower, ofChar?_toLower, takeWhile_lower isWordChar_toLower,
    dropWhile_lower isWordChar_toLower, number_lower, comparison_lower]
  split
  · rename_i hcommand
    exact ⟨_, rfl, fun hnot => absurd (by simpa using hcommand) hnot⟩
  · split
    · rename_i hquote
      have hsame : c.toLower = c := by
        rcases toLower_cases c with hsame | ⟨hc, -⟩
        · exact hsame
        · rcases (by simpa using hquote : c = '"' ∨ c = '\'') with rfl | rfl <;> cases hc
      have hnot : c.isAlpha = false := by
        rcases (by simpa using hquote : c = '"' ∨ c = '\'') with rfl | rfl <;> rfl
      rw [hsame, quoted_lower hnot]
      exact ⟨_, rfl, fun _ => rfl⟩
    · split
      · exact ⟨_, rfl, fun _ => rfl⟩
      · split
        · exact ⟨_, rfl, fun _ => ofWord_lower (c :: cs.takeWhile isWordChar)⟩
        · split
          · exact ⟨_, rfl, fun _ => rfl⟩
          · exact ⟨_, rfl, fun _ => rfl⟩

theorem munch_of_lower_eq {first : Bool} {c c' : Char} {cs tail rest : List Char}
    (hsource : lower (c' :: tail) = lower (c :: (munch first c cs).2.1))
    (hrest : lower rest = lower (munch first c cs).2.2)
    (hcommand : first = true → c = '\\' → tail = (munch first c cs).2.1) :
    munch first c' (tail ++ rest) = ((munch first c cs).1, tail, rest) := by
  obtain ⟨hc, htail⟩ := List.cons.inj hsource
  have hc : c'.toLower = c.toLower := hc
  have htail : lower tail = lower (munch first c cs).2.1 := htail
  have htext : lower (tail ++ rest) = lower cs := by
    have hjoin := congrArg lower (munch_append first c cs)
    rw [lower_append] at hjoin
    rw [lower_append, htail, hrest, hjoin]
  obtain ⟨kind, hmunch, hkind⟩ := munch_lower first c cs
  obtain ⟨kind', hmunch', hkind'⟩ := munch_lower first c' (tail ++ rest)
  rw [hc, htext, hmunch, Prod.mk.injEq, Prod.mk.injEq] at hmunch'
  obtain ⟨hsame, hlower, -⟩ := hmunch'
  have hlength : (munch first c' (tail ++ rest)).2.1.length = tail.length := by
    have hboth := congrArg List.length (hlower.symm.trans htail.symm)
    simpa [lower] using hboth
  obtain ⟨hfront, hback⟩ := List.append_inj (munch_append first c' (tail ++ rest)) hlength
  refine Prod.ext ?_ (Prod.ext hfront hback)
  by_cases hbackslash : first = true ∧ c = '\\'
  · obtain ⟨rfl, rfl⟩ := hbackslash
    obtain rfl : c' = '\\' := (toLower_eq_iff rfl).mp hc
    have hkinds : ∀ cs, (munch true '\\' cs).1 = .ofCommand ('\\' :: (munch true '\\' cs).2.1) :=
      fun cs => rfl
    rw [hkinds, hkinds, hfront, hcommand rfl rfl]
  · have hbackslash' : ¬(first = true ∧ c' = '\\') := by
      rintro ⟨hfirst, rfl⟩
      exact hbackslash ⟨hfirst, (toLower_eq_iff rfl).mp hc.symm⟩
    rw [← hkind' hbackslash', ← hsame, hkind hbackslash]

end Munch

/-- How a piece of a line is written: a keyword in any case, all else as it is. -/
inductive Piece.Recased : Piece → List Char → Prop where
  | same {piece} : Recased piece piece.source
  | keyword {lexeme source} : lexeme.kind.isKeyword = true → lower source = lower lexeme.source →
      Recased (.lexeme lexeme) source

/-- A text with letters of its keywords in another case. -/
def Recased (text text' : List Char) : Prop :=
  ∃ sources, List.Forall₂ Piece.Recased (pieces true 0 text) sources ∧ sources.flatten = text'

/-- A lexeme and what it becomes where it is written in another case. -/
structure Lexeme.Recased (lexeme lexeme' : Lexeme) : Prop where
  kind : lexeme'.kind = lexeme.kind
  start : lexeme'.start = lexeme.start
  lower : lower lexeme'.source = lower lexeme.source
  source : lexeme.kind.isKeyword = false → lexeme'.source = lexeme.source

theorem Piece.Recased.lower {piece : Piece} {source : List Char} (h : piece.Recased source) :
    lower source = lower piece.source := by
  cases h with
  | same => rfl
  | keyword _ hlower => exact hlower

theorem lower_flatten {found : List Piece} {sources : List (List Char)}
    (h : List.Forall₂ Piece.Recased found sources) :
    lower sources.flatten = lower (found.flatMap Piece.source) := by
  induction h with
  | nil => rfl
  | cons hpiece _ ih =>
      rw [List.flatten_cons, List.flatMap_cons, lower_append, lower_append, hpiece.lower, ih]

theorem Lexeme.Recased.stop {lexeme lexeme' : Lexeme} (h : lexeme.Recased lexeme') :
    lexeme'.stop = lexeme.stop := by
  rw [Lexeme.stop, Lexeme.stop, h.start, ← byteLength_lower lexeme'.source, h.lower,
    byteLength_lower]

theorem Piece.Recased.lexeme {lexeme : Lexeme} {source : List Char}
    (h : (Piece.lexeme lexeme).Recased source) :
    lexeme.Recased ⟨lexeme.kind, source, lexeme.start⟩ where
  kind := rfl
  start := rfl
  lower := h.lower
  source hkeyword := by
    cases h with
    | same => rfl
    | keyword hkind _ =>
        rw [hkind] at hkeyword
        cases hkeyword

/-- The front lexeme ends where it did: what comes behind it is the same in small letters. -/
theorem frontLexeme_recased {first : Bool} {position : Nat} {c : Char} {cs source rest : List Char}
    (hc : isSeparator c = false)
    (h : (Piece.lexeme (frontLexeme first position c cs)).Recased source)
    (hrest : lower rest = lower (munch first c cs).2.2) :
    ∃ c' tail, source = c' :: tail ∧ isSeparator c' = false ∧
      munch first c' (tail ++ rest) = ((munch first c cs).1, tail, rest) ∧
      (frontLexeme first position c cs).Recased
        ⟨(munch first c cs).1, c' :: tail, position⟩ := by
  have hrecased := h.lexeme
  have hlower := h.lower
  cases source with
  | nil => cases hlower
  | cons c' tail =>
      have hfirst : c'.toLower = c.toLower := (List.cons.inj hlower).1
      refine ⟨c', tail, rfl, ?_, ?_, hrecased⟩
      · rw [← isSeparator_toLower, hfirst, isSeparator_toLower, hc]
      · refine munch_of_lower_eq hlower hrest ?_
        rintro rfl rfl
        have hkind : (frontLexeme true position '\\' cs).kind.isKeyword = false := by
          change (TokenKind.ofCommand ('\\' :: _)).isKeyword = false
          rcases ofCommand_eq ('\\' :: cs.takeWhile isWordChar) with ⟨_, hcommand⟩ | hillegal
          · rw [hcommand]
            rfl
          · rw [hillegal]
            rfl
        exact (List.cons.inj (hrecased.source hkind)).2

theorem lexemesFrom_recased (first : Bool) (position : Nat) (cs : List Char) :
    ∀ sources, List.Forall₂ Piece.Recased (pieces first position cs) sources →
      List.Forall₂ Lexeme.Recased (lexemesFrom first position cs)
        (lexemesFrom first position sources.flatten) := by
  induction first, position, cs using pieces.induct with
  | case1 first position =>
      intro sources h
      rw [pieces] at h
      cases h
      simp
  | case2 first position c cs hc tail ih =>
      intro sources h
      have hgap : ∀ d ∈ c :: cs.takeWhile isSeparator, isSeparator d = true :=
        List.forall_mem_cons.mpr ⟨hc, fun d hd => List.mem_takeWhile_imp hd⟩
      have hcs : c :: cs = (c :: cs.takeWhile isSeparator) ++ cs.dropWhile isSeparator :=
        congrArg (c :: ·) List.takeWhile_append_dropWhile.symm
      simp only [pieces, hc, if_true] at h
      obtain ⟨source, rest, hsource, hrest, rfl⟩ := List.forall₂_cons_left_iff.mp h
      cases hsource
      rw [List.flatten_cons, Piece.source, lexemesFrom_gap hgap, hcs, lexemesFrom_gap hgap]
      exact ih rest hrest
  | case3 first position c cs hc found ih =>
      intro sources h
      have hc : isSeparator c = false := by simpa using hc
      rw [pieces_lexeme hc] at h
      obtain ⟨source, rest, hsource, hrest, rfl⟩ := List.forall₂_cons_left_iff.mp h
      have hbehind : lower rest.flatten = lower (munch first c cs).2.2 := by
        rw [lower_flatten hrest, flatMap_source_pieces]
      obtain ⟨c', tail, rfl, hc', hmunch, hfront⟩ := frontLexeme_recased hc hsource hbehind
      have hfront' : frontLexeme first position c' (tail ++ rest.flatten) =
          ⟨(munch first c cs).1, c' :: tail, position⟩ := by
        rw [frontLexeme, hmunch]
      rw [List.flatten_cons, List.cons_append, lexemesFrom_lexeme hc, lexemesFrom_lexeme hc',
        hfront', hmunch, hfront.stop]
      exact .cons hfront (ih rest hrest)

theorem Lexeme.Recased.eq {lexeme lexeme' : Lexeme} (h : lexeme.Recased lexeme')
    (hkeyword : lexeme.kind.isKeyword = false) : lexeme' = lexeme := by
  obtain ⟨hkind, hstart, -, hsource⟩ := h
  rw [show lexeme' = ⟨lexeme'.kind, lexeme'.source, lexeme'.start⟩ from rfl, hkind, hstart,
    hsource hkeyword]

section Phrases

variable {α : Type}

/-- A token and what it becomes where its line is written in another case. -/
inductive Token.Recased : Token → Token → Prop where
  | same {token} : Recased token token
  | keyword {keyword literal literal'} :
      Recased ⟨.keyword keyword, literal⟩ ⟨.keyword keyword, literal'⟩

theorem Lexeme.Recased.token {lexeme lexeme' : Lexeme} (h : lexeme.Recased lexeme') :
    lexeme.token.Recased lexeme'.token := by
  cases hkeyword : lexeme.kind with
  | keyword keyword =>
      have hkeyword' : lexeme'.kind = .keyword keyword := h.kind.trans hkeyword
      rw [Lexeme.token, Lexeme.token, hkeyword, hkeyword']
      exact .keyword
  | _ =>
      rw [h.eq (by rw [hkeyword]; rfl)]
      exact .same

/-- What does not depend on how the keywords among its tokens are written. -/
def CaseBlind (phrase : List Token → α → Prop) : Prop :=
  ∀ tokens tokens' value, List.Forall₂ Token.Recased tokens tokens' →
    phrase tokens value → phrase tokens' value

theorem eq_of_no_keyword {tokens tokens' : List Token}
    (hnone : ∀ token ∈ tokens, token.kind.isKeyword = false)
    (h : List.Forall₂ Token.Recased tokens tokens') : tokens' = tokens := by
  induction h with
  | nil => rfl
  | cons htoken _ ih =>
      obtain ⟨htoken', hrest⟩ := List.forall_mem_cons.mp hnone
      rw [ih hrest]
      cases htoken with
      | same => rfl
      | keyword => cases htoken'

theorem caseBlind_of_no_keyword {phrase : List Token → α → Prop}
    (hnone : ∀ tokens value, phrase tokens value → ∀ token ∈ tokens, token.kind.isKeyword = false) :
    CaseBlind phrase := by
  intro tokens tokens' value h hphrase
  rw [eq_of_no_keyword (hnone tokens value hphrase) h]
  exact hphrase

theorem forall₂_append_left {β γ : Type} {R : β → γ → Prop} {front back : List β} {all : List γ}
    (h : List.Forall₂ R (front ++ back) all) :
    ∃ front' back', all = front' ++ back' ∧ List.Forall₂ R front front' ∧
      List.Forall₂ R back back' :=
  ⟨all.take front.length, all.drop front.length, (List.take_append_drop ..).symm,
    by simpa using List.forall₂_take front.length h,
    by simpa using List.forall₂_drop front.length h⟩

theorem caseBlind_separated {phrase : List Token → α → Prop} (hphrase : CaseBlind phrase)
    (separator : TokenKind) : CaseBlind (Separated phrase separator) := by
  intro tokens tokens' values h hseparated
  induction hseparated generalizing tokens' with
  | one hone => exact .one (hphrase _ _ _ h hone)
  | more hone _ ih =>
      obtain ⟨front, back, rfl, hfront, hback⟩ := forall₂_append_left h
      obtain ⟨token, rest, htoken, hrest, rfl⟩ := List.forall₂_cons_left_iff.mp hback
      cases htoken <;> exact .more (hphrase _ _ _ hfront hone) (ih _ hrest)

theorem caseBlind_field : CaseBlind FieldPhrase :=
  caseBlind_of_no_keyword fun _ _ h => by
    cases h
    simp [TokenKind.isKeyword]

theorem ScalarPhrase.no_keyword {tokens : List Token} {value : Scalar}
    (h : ScalarPhrase tokens value) : ∀ token ∈ tokens, token.kind.isKeyword = false := by
  cases h <;> simp [TokenKind.isKeyword]

theorem caseBlind_value : CaseBlind ValuePhrase :=
  caseBlind_of_no_keyword fun _ _ h => by
    cases h with
    | scalar hscalar => exact hscalar.no_keyword
    | empty => simp [TokenKind.isKeyword]
    | array hitems =>
        have hinner := hitems.forall_mem (P := fun kind => kind.isKeyword = false)
          (fun _ _ hscalar => hscalar.no_keyword) rfl
        simpa [TokenKind.isKeyword, or_imp, forall_and] using hinner
    | timestamp => simp [TokenKind.isKeyword]

theorem caseBlind_filter : CaseBlind FilterPhrase := by
  intro tokens tokens' filter h hphrase
  cases hphrase with
  | compare hoperator hvalue harray =>
      obtain ⟨_, _, ⟨⟩, hbehind, rfl⟩ := List.forall₂_cons_left_iff.mp h
      obtain ⟨sign, rest, hsign, hrest, rfl⟩ := List.forall₂_cons_left_iff.mp hbehind
      have hvalue := caseBlind_value _ _ _ hrest hvalue
      cases hsign <;> exact .compare hoperator hvalue harray

theorem caseBlind_ordering : CaseBlind OrderingPhrase := by
  intro tokens tokens' ordering h hphrase
  obtain ⟨_, rest, ⟨⟩, hrest, rfl⟩ : ∃ word rest, Token.Recased ⟨.word, ordering.field⟩ word ∧
      List.Forall₂ Token.Recased tokens.tail rest ∧ tokens' = word :: rest := by
    cases hphrase <;> exact List.forall₂_cons_left_iff.mp h
  cases hphrase with
  | plain =>
      cases hrest
      exact .plain
  | ascending =>
      obtain ⟨direction, _, hdirection, ⟨⟩, rfl⟩ := List.forall₂_cons_left_iff.mp hrest
      cases hdirection <;> exact .ascending
  | descending =>
      obtain ⟨direction, _, hdirection, ⟨⟩, rfl⟩ := List.forall₂_cons_left_iff.mp hrest
      cases hdirection <;> exact .descending

theorem caseBlind_clause : CaseBlind ClausePhrase := by
  intro tokens tokens' body h hphrase
  cases hphrase with
  | select hfields =>
      obtain ⟨opener, rest, hopener, hrest, rfl⟩ := List.forall₂_cons_left_iff.mp h
      have hfields := caseBlind_separated caseBlind_field _ _ _ _ hrest hfields
      cases hopener <;> exact .select hfields
  | filter hfilters =>
      obtain ⟨opener, rest, hopener, hrest, rfl⟩ := List.forall₂_cons_left_iff.mp h
      have hfilters := caseBlind_separated caseBlind_filter _ _ _ _ hrest hfilters
      cases hopener <;> exact .filter hfilters
  | order horderings =>
      obtain ⟨opener, _, hopener, hbehind, rfl⟩ := List.forall₂_cons_left_iff.mp h
      obtain ⟨second, rest, hsecond, hrest, rfl⟩ := List.forall₂_cons_left_iff.mp hbehind
      have horderings := caseBlind_separated caseBlind_ordering _ _ _ _ hrest horderings
      cases hopener <;> cases hsecond <;> exact .order horderings
  | limit hsign hrange =>
      obtain ⟨opener, _, hopener, hbehind, rfl⟩ := List.forall₂_cons_left_iff.mp h
      obtain ⟨_, _, ⟨⟩, ⟨⟩, rfl⟩ := List.forall₂_cons_left_iff.mp hbehind
      cases hopener <;> exact .limit hsign hrange

theorem caseBlind_optional (body : α → ClauseBody) (absent : α) :
    CaseBlind (OptionalClause body absent) := by
  intro tokens tokens' value h hphrase
  cases hphrase with
  | absent =>
      cases h
      exact .absent
  | present hclause => exact .present (caseBlind_clause _ _ _ h hclause)

theorem caseBlind_operation : CaseBlind OperationPhrase := by
  intro tokens tokens' operation h hphrase
  cases hphrase with
  | query hpath hselects hfilters horders hlimits =>
      obtain ⟨opener, _, hopener, hbehind, rfl⟩ := List.forall₂_cons_left_iff.mp h
      obtain ⟨_, _, ⟨⟩, hclauses, rfl⟩ := List.forall₂_cons_left_iff.mp hbehind
      obtain ⟨selects, _, rfl, hselects', hclauses⟩ := forall₂_append_left hclauses
      obtain ⟨filters, _, rfl, hfilters', hclauses⟩ := forall₂_append_left hclauses
      obtain ⟨orders, limits, rfl, horders', hlimits'⟩ := forall₂_append_left hclauses
      have hselects := caseBlind_optional _ _ _ _ _ hselects' hselects
      have hfilters := caseBlind_optional _ _ _ _ _ hfilters' hfilters
      have horders := caseBlind_optional _ _ _ _ _ horders' horders
      have hlimits := caseBlind_optional _ _ _ _ _ hlimits' hlimits
      cases hopener <;> exact .query hpath hselects hfilters horders hlimits
  | count hpath hfilters =>
      obtain ⟨opener, _, hopener, hbehind, rfl⟩ := List.forall₂_cons_left_iff.mp h
      obtain ⟨_, rest, ⟨⟩, hrest, rfl⟩ := List.forall₂_cons_left_iff.mp hbehind
      have hfilters := caseBlind_optional _ _ _ _ _ hrest hfilters
      cases hopener <;> exact .count hpath hfilters
  | get hsplit hslash hcollection hdocument hodd =>
      obtain ⟨opener, _, hopener, hbehind, rfl⟩ := List.forall₂_cons_left_iff.mp h
      obtain ⟨_, _, ⟨⟩, ⟨⟩, rfl⟩ := List.forall₂_cons_left_iff.mp hbehind
      cases hopener <;> exact .get hsplit hslash hcollection hdocument hodd
  | root =>
      rw [eq_of_no_keyword (by simp [TokenKind.isKeyword]) h]
      exact .root
  | base hbase =>
      rw [eq_of_no_keyword (by simp [TokenKind.isKeyword]) h]
      exact .base hbase
  | pager hswitch =>
      rw [eq_of_no_keyword (by simp [TokenKind.isKeyword]) h]
      exact .pager hswitch

end Phrases

end DocShell.Query

namespace DocShell.Completion

open DocShell.Query
open DocShell.Text.Ascii
open DocShell.Text.Bytes

theorem alike_of_recased {lexeme lexeme' : Lexeme} (cursor : Nat)
    (h : lexeme.Recased lexeme') : Alike cursor cursor lexeme lexeme' where
  kind := h.kind
  isUnterminated := by
    cases hkeyword : lexeme.kind with
    | keyword keyword =>
        rw [Lexeme.isUnterminated, Lexeme.isUnterminated, h.kind, hkeyword]
        rfl
    | _ => rw [h.eq (by rw [hkeyword]; rfl)]
  literal hword := by rw [h.eq (by rw [hword]; rfl)]
  stop _ := by rw [h.stop]

/-- Where keywords are written in another case, the lexemes stay what they are and where they are,
and the line means and leads to the same. -/
theorem keyword_case_invisible {text text' : String} (h : Recased text.toList text'.toList) :
    List.Forall₂ (fun lexeme lexeme' => lexeme'.kind = lexeme.kind ∧
        lexeme'.start = lexeme.start ∧ lexeme'.stop = lexeme.stop ∧
        (lexeme.kind.isKeyword = false → lexeme'.literal = lexeme.literal))
      (tokenize text.toList) (tokenize text'.toList) ∧
    (∀ operation, parse text = .ok operation → parse text' = .ok operation) ∧
    (∀ names, suggest names text'.toList = suggest names text.toList) ∧
    ∀ cache : Cache, cache.suggest text'.toList = cache.suggest text.toList := by
  obtain ⟨sources, hsources, htext⟩ := h
  have hlexemes : List.Forall₂ Lexeme.Recased (lexemes text.toList) (lexemes text'.toList) :=
    htext ▸ lexemesFrom_recased true 0 text.toList sources hsources
  have hlength : byteLength text'.toList = byteLength text.toList := by
    rw [← htext, ← byteLength_lower, lower_flatten hsources, flatMap_source_pieces,
      byteLength_lower]
  have hcontext : Context.ofText text'.toList = Context.ofText text.toList := by
    rw [Context.ofText, Context.ofText, hlength]
    exact Context.ofLexemes_alike (hlexemes.imp fun _ _ => alike_of_recased _)
  refine ⟨?_, ?_, ?_, ?_⟩
  · rw [tokenize, tokenize, hlength]
    refine List.rel_append (hlexemes.imp fun lexeme lexeme' hlexeme => ?_)
      (.cons ⟨rfl, rfl, rfl, fun _ => rfl⟩ .nil)
    exact ⟨hlexeme.kind, hlexeme.start, hlexeme.stop, fun hkeyword => by rw [hlexeme.eq hkeyword]⟩
  · intro operation hparse
    rw [parse_eq_ok_iff_tokensFrom] at hparse ⊢
    refine caseBlind_operation _ _ _ ?_ hparse
    exact List.forall₂_map_left_iff.mpr (List.forall₂_map_right_iff.mpr
      (hlexemes.imp fun _ _ hlexeme => hlexeme.token))
  · intro names
    rw [suggest, suggest, hcontext]
  · intro cache
    rw [Cache.suggest, Cache.suggest, hcontext]

theorem keyword_case_invisible_limit :
    Recased "query pets limit 5".toList "qUEry pets LIMIT 5".toList ∧
    parse "qUEry pets LIMIT 5" = .ok (.query ⟨"pets", [], [], [], 5⟩) ∧
    ∀ names, suggest names "qUEry pets LIMIT 5".toList =
      suggest names "query pets limit 5".toList :=
  have hpieces : pieces true 0 "query pets limit 5".toList =
      [.lexeme ⟨.keyword .query, "query".toList, 0⟩, .gap [' '],
        .lexeme ⟨.word, "pets".toList, 6⟩, .gap [' '],
        .lexeme ⟨.keyword .limit, "limit".toList, 11⟩, .gap [' '],
        .lexeme ⟨.int, "5".toList, 17⟩] := by decide +kernel
  have hrecased : Recased "query pets limit 5".toList "qUEry pets LIMIT 5".toList := by
    refine ⟨["qUEry".toList, [' '], "pets".toList, [' '], "LIMIT".toList, [' '], "5".toList], ?_,
      by decide +kernel⟩
    rw [hpieces]
    exact .cons (.keyword rfl (by decide +kernel)) (.cons .same (.cons .same (.cons .same
      (.cons (.keyword rfl (by decide +kernel)) (.cons .same (.cons .same .nil))))))
  have hparse : parse "query pets limit 5" = .ok (.query ⟨"pets", [], [], [], 5⟩) := by
    decide +kernel
  have hsame := keyword_case_invisible hrecased
  ⟨hrecased, hsame.2.1 _ hparse, hsame.2.2.1⟩

end DocShell.Completion
