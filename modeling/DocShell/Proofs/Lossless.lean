import DocShell.Proofs.Spelling

/-!
Nothing of a text is lost when it is read. Main statement: the lexemes of a text stand in it one
behind the other, between them there are separators and nothing else, and each of them is read as
the same token where it stands alone.
-/

namespace DocShell.Query

open DocShell.Text.Bytes

theorem quoted_alone (quote : Char) (cs : List Char) :
    quoted quote (quoted quote cs).1 = ((quoted quote cs).1, []) := by
  induction cs with
  | nil => rfl
  | cons c cs ih =>
      by_cases hc : c = quote
      · simp [quoted, hc]
      · simp [quoted, hc, ih]

theorem number_alone (cs : List Char) :
    number (number cs).2.1 = ((number cs).1, (number cs).2.1, []) := by
  have hdigits : ∀ cs : List Char, ∀ c ∈ cs.takeWhile Char.isDigit, c.isDigit = true :=
    fun cs c hc => List.mem_takeWhile_imp hc
  by_cases hpoint : ∃ rest, cs.dropWhile Char.isDigit = '.' :: rest
  · obtain ⟨rest, hrest⟩ := hpoint
    have hnumber : number cs = (.float, cs.takeWhile Char.isDigit ++
        '.' :: rest.takeWhile Char.isDigit, rest.dropWhile Char.isDigit) := by
      simp only [number, hrest]
    rw [hnumber]
    exact number_of_point (hdigits cs) (hdigits rest)
  · have hnumber : number cs =
        (.int, cs.takeWhile Char.isDigit, cs.dropWhile Char.isDigit) := by
      unfold number
      split
      · rename_i rest hrest
        exact absurd ⟨rest, hrest⟩ hpoint
      · rfl
    rw [hnumber]
    exact number_of_digits (hdigits cs)

theorem comparison_alone (c : Char) (cs : List Char) :
    comparison c (comparison c cs).2.1 = ((comparison c cs).1, (comparison c cs).2.1, []) := by
  fun_cases comparison c cs with
  | case7 =>
      unfold comparison
      split <;> simp_all
  | _ => rfl

theorem head_number {cs : List Char} (h : cs.head?.any Char.isDigit = true) :
    (number cs).2.1.head?.any Char.isDigit = true := by
  cases cs with
  | nil => cases h
  | cons c cs =>
      have hc : c.isDigit = true := by simpa using h
      simp [number_cons hc, hc]

theorem munch_number {first : Bool} {c : Char} {cs : List Char}
    (h : c.isDigit = true ∨ c = '-' ∧ cs.head?.any Char.isDigit = true) :
    munch first c cs = number cs := by
  rcases h with hc | ⟨rfl, hcs⟩
  · have hchar : isWordChar c = true := by simp [isWordChar, hc]
    have hbackslash : c ≠ '\\' := ne_of_isWordChar hchar rfl
    have hdouble : c ≠ '"' := ne_of_isWordChar hchar rfl
    have hsingle : c ≠ '\'' := ne_of_isWordChar hchar rfl
    simp [munch, hbackslash, hdouble, hsingle, hc]
  · simp [munch, hcs]

theorem munch_comparison {first : Bool} {c : Char} (cs : List Char) (hbackslash : c ≠ '\\')
    (hdouble : c ≠ '"') (hsingle : c ≠ '\'') (hdigit : c.isDigit = false)
    (hword : isWordStart c = false) (hmark : Punctuation.ofChar? c = none) :
    munch first c cs = comparison c cs := by
  have hhyphen : c ≠ '-' := by
    rintro rfl
    cases hword
  simp [munch, hbackslash, hdouble, hsingle, hdigit, hword, hmark, hhyphen]

/-- What a character begins, it begins also where nothing follows that and nothing stands before
it: a backslash that is no command there is no command here either. -/
theorem munch_alone (first : Bool) (c : Char) (cs : List Char) :
    munch true c (munch first c cs).2.1 =
      ((munch first c cs).1, (munch first c cs).2.1, []) := by
  have hmunched := munch_munched first c cs
  generalize munch first c cs = found at hmunched
  cases hmunched with
  | command _ hbackslash =>
      subst hbackslash
      have hwords : ∀ d ∈ cs.takeWhile isWordChar, isWordChar d = true :=
        fun d hd => List.mem_takeWhile_imp hd
      have htake := List.takeWhile_eq_self_iff.mpr hwords
      have hdrop := List.dropWhile_eq_nil_iff.mpr hwords
      simp only [munch, beq_self_eq_true, Bool.and_self, if_true, htake, hdrop]
  | string hquote => rw [munch_quote hquote, quoted_alone]
  | number hnumber =>
      rw [munch_number (hnumber.imp_right fun h => ⟨h.1, head_number h.2⟩), number_alone]
  | word hstart hnumber =>
      exact munch_word (beginsWord_takeWhile hstart hnumber) fun d hd => List.mem_takeWhile_imp hd
  | punctuation hmark =>
      unfold Punctuation.ofChar? at hmark
      split at hmark <;> cases hmark <;> rfl
  | comparison hdouble hsingle hdigit hword hmark =>
      by_cases hbackslash : c = '\\'
      · subst hbackslash
        have hcomparison : comparison '\\' cs = (.illegal, [], cs) := by simp [comparison]
        rw [hcomparison]
        rfl
      · rw [munch_comparison _ hbackslash hdouble hsingle hdigit hword hmark, comparison_alone]

theorem lexemes_source {first : Bool} {position : Nat} {cs : List Char} {lexeme : Lexeme}
    (h : lexeme ∈ lexemesFrom first position cs) :
    lexemes lexeme.source = [⟨lexeme.kind, lexeme.source, 0⟩] := by
  obtain ⟨first, c, cs, hc, hlexeme⟩ := exists_eq_frontLexeme h
  have halone := munch_alone first c cs
  rw [hlexeme]
  show lexemesFrom true 0 (c :: (munch first c cs).2.1) = _
  simp only [lexemesFrom_lexeme hc, frontLexeme, halone, lexemesFrom_nil]

theorem tokens_source {first : Bool} {position : Nat} {cs : List Char} {lexeme : Lexeme}
    (h : lexeme ∈ lexemesFrom first position cs) :
    tokens lexeme.source = [lexeme.token, Token.atEnd] := by
  rw [tokens, tokenize, lexemes_source h]
  rfl

/-- A string is written between two quotes, or behind one if the text ends in it. -/
theorem string_source {first : Bool} {position : Nat} {c : Char} {cs : List Char}
    (hquote : c = '"' ∨ c = '\'') {lexeme : Lexeme}
    (hlexeme : lexeme = frontLexeme first position c cs) :
    c ∉ lexeme.literal.toList ∧ (lexeme.source = c :: (lexeme.literal.toList ++ [c]) ∨
      lexeme.source = c :: lexeme.literal.toList ∧ (munch first c cs).2.2 = []) := by
  have hstring : lexeme = ⟨.string, c :: (quoted c cs).1, position⟩ := by
    rw [hlexeme, frontLexeme, munch_quote hquote]
  have hliteral : lexeme.literal.toList = (quoted c cs).1.takeWhile (· != c) := by
    rw [hstring]
    exact String.toList_ofList
  have hwhole : ∀ inner : List Char, c ∉ inner → inner.takeWhile (· != c) = inner := by
    intro inner hinner
    refine List.takeWhile_eq_self_iff.mpr fun d hd => ?_
    simpa using ne_of_mem_of_not_mem hd hinner
  rw [hliteral, hstring, munch_quote hquote]
  by_cases hclosed : c ∈ cs
  · obtain ⟨inner, back, rfl, hinner⟩ := List.eq_append_cons_of_mem hclosed
    rw [quoted_of_closed hinner, takeWhile_append_stop (by simp), hwhole inner hinner]
    exact ⟨hinner, .inl rfl⟩
  · rw [quoted_of_not_mem hclosed, hwhole cs hclosed]
    exact ⟨hclosed, .inr ⟨rfl, rfl⟩⟩

theorem exists_source_eq {first : Bool} {position : Nat} {cs : List Char} {lexeme : Lexeme}
    (h : lexeme ∈ lexemesFrom first position cs) (hstring : lexeme.kind = .string) :
    ∃ quote, (quote = '"' ∨ quote = '\'') ∧ quote ∉ lexeme.literal.toList ∧
      (lexeme.source = quote :: (lexeme.literal.toList ++ [quote]) ∨
        lexeme.source = quote :: lexeme.literal.toList ∧
          lexeme.stop = position + byteLength cs) := by
  induction first, position, cs using lexemes_induction with
  | nil first position => simp at h
  | separator first position c cs hc ih =>
      rw [lexemesFrom_separator hc] at h
      rw [byteLength_cons, ← Nat.add_assoc]
      exact ih h
  | lexeme first position c cs hc ih =>
      have hstop := stop_frontLexeme first position c cs
      rw [lexemesFrom_lexeme hc] at h
      rcases List.mem_cons.mp h with hlexeme | h
      · have hquote : c = '"' ∨ c = '\'' := by
          rw [hlexeme] at hstring
          exact isQuote_of_munch_eq_string hstring
        obtain ⟨hmem, hsource⟩ := string_source hquote hlexeme
        refine ⟨c, hquote, hmem, hsource.imp_right fun hopen => ⟨hopen.1, ?_⟩⟩
        rw [← hstop, hopen.2, hlexeme]
        rfl
      · rw [← hstop]
        exact ih h

/-- Lexemes stand in a text one behind the other from a byte position on, and all that is between
them, in front of them and behind them is separators. -/
inductive Covers : Nat → List Char → List Lexeme → Prop where
  | nil {position gap} : (∀ c ∈ gap, isSeparator c = true) → Covers position gap []
  | cons {position gap lexeme rest lexemes} : (∀ c ∈ gap, isSeparator c = true) →
      lexeme.start = position + byteLength gap → Covers lexeme.stop rest lexemes →
      Covers position (gap ++ (lexeme.source ++ rest)) (lexeme :: lexemes)

namespace Covers

variable {position : Nat} {cs : List Char} {found : List Lexeme}

theorem separator {c : Char} (hc : isSeparator c = true)
    (h : Covers (position + c.utf8Size) cs found) : Covers position (c :: cs) found := by
  cases h with
  | nil hgap => exact .nil (List.forall_mem_cons.mpr ⟨hc, hgap⟩)
  | @cons _ gap lexeme rest found hgap hstart hrest =>
      rw [← List.cons_append]
      refine .cons (List.forall_mem_cons.mpr ⟨hc, hgap⟩) ?_ hrest
      rw [hstart, byteLength_cons, Nat.add_assoc]

theorem concat_end (h : Covers position cs found) :
    Covers position cs (found ++ [⟨.endOfInput, [], position + byteLength cs⟩]) := by
  induction h with
  | @nil position gap hgap =>
      let last : Lexeme := ⟨.endOfInput, [], position + byteLength gap⟩
      have hlast : Covers position (gap ++ (last.source ++ [])) [last] :=
        .cons hgap rfl (.nil (by simp))
      simpa [last] using hlast
  | @cons position gap lexeme rest found hgap hstart hrest ih =>
      have hstop : lexeme.stop + byteLength rest =
          position + byteLength (gap ++ (lexeme.source ++ rest)) := by
        simp only [Lexeme.stop, hstart, byteLength_append]
        omega
      rw [hstop] at ih
      exact .cons hgap hstart ih

theorem le_start (h : Covers position cs found) : ∀ lexeme ∈ found, position ≤ lexeme.start := by
  induction h with
  | nil => simp
  | @cons position gap lexeme rest found hgap hstart hrest ih =>
      intro other hother
      rcases List.mem_cons.mp hother with rfl | hother
      · omega
      · have hle := ih other hother
        rw [Lexeme.stop] at hle
        omega

theorem pairwise (h : Covers position cs found) :
    found.Pairwise fun a b => a.stop ≤ b.start := by
  induction h with
  | nil => exact .nil
  | cons _ _ hrest ih => exact .cons hrest.le_start ih

end Covers

def stopOf (position : Nat) : List Lexeme → Nat
  | [] => position
  | lexeme :: rest => stopOf lexeme.stop rest

/-- The text in front of a lexeme is what is covered before it, and then a gap. -/
theorem Covers.split {position : Nat} {cs : List Char} {front back : List Lexeme}
    {lexeme : Lexeme} (h : Covers position cs (front ++ lexeme :: back)) :
    ∃ before gap after, cs = before ++ gap ++ lexeme.source ++ after ∧
      position + byteLength before = stopOf position front ∧
      (∀ c ∈ gap, isSeparator c = true) ∧
      lexeme.start = stopOf position front + byteLength gap := by
  induction front generalizing position cs with
  | nil =>
      cases h with
      | @cons _ gap _ rest _ hgap hstart hrest =>
          exact ⟨[], gap, rest, by simp, rfl, hgap, hstart⟩
  | cons other front ih =>
      cases h with
      | @cons _ gap _ rest _ hgap hstart hrest =>
          obtain ⟨before, gap', after, rfl, hbefore, hgap', hstart'⟩ := ih hrest
          refine ⟨gap ++ (other.source ++ before), gap', after, by simp, ?_, hgap', hstart'⟩
          rw [stopOf, ← hbefore, Lexeme.stop, hstart]
          simp only [byteLength_append]
          omega

theorem covers_lexemesFrom (first : Bool) (position : Nat) (cs : List Char) :
    Covers position cs (lexemesFrom first position cs) := by
  induction first, position, cs using lexemes_induction with
  | nil first position =>
      rw [lexemesFrom_nil]
      exact .nil (by simp)
  | separator first position c cs hc ih =>
      rw [lexemesFrom_separator hc]
      exact ih.separator hc
  | lexeme first position c cs hc ih =>
      have hfront : c :: cs =
          [] ++ ((frontLexeme first position c cs).source ++ (munch first c cs).2.2) := by
        rw [frontLexeme, List.nil_append, List.cons_append, munch_append]
      rw [lexemesFrom_lexeme hc, hfront]
      exact .cons (by simp) rfl ih

theorem covers_tokenize (text : List Char) : Covers 0 text (tokenize text) := by
  have hcovers := (covers_lexemesFrom true 0 text).concat_end
  rwa [Nat.zero_add] at hcovers

/-- What a lexeme that is not the end has to do with its text. -/
structure Lexeme.StandsIn (lexeme : Lexeme) (text : List Char) : Prop where
  start_mem : lexeme.start ∈ boundaries text
  stop_mem : lexeme.stop ∈ boundaries text
  start_lt_stop : lexeme.start < lexeme.stop
  slice_eq : slice? text lexeme.start lexeme.stop = some lexeme.source
  literal_eq : lexeme.kind ≠ .string → lexeme.literal.toList = lexeme.source
  /-- A string lacks its closing quote only where the text ends in it. -/
  string_eq : lexeme.kind = .string → ∃ quote, (quote = '"' ∨ quote = '\'') ∧
    quote ∉ lexeme.literal.toList ∧
      (lexeme.source = quote :: (lexeme.literal.toList ++ [quote]) ∨
        lexeme.source = quote :: lexeme.literal.toList ∧ lexeme.stop = byteLength text)
  alone : tokens lexeme.source = [lexeme.token, Token.atEnd]

theorem standsIn_of_mem {text : List Char} {lexeme : Lexeme} (h : lexeme ∈ lexemes text) :
    lexeme.StandsIn text := by
  have hmem : lexeme ∈ lexemesFrom true 0 text := h
  obtain ⟨-, front, back, htext, hstart⟩ := exists_source_append hmem
  rw [Nat.zero_add] at hstart
  have hstop : lexeme.stop = byteLength (front ++ lexeme.source) := by
    rw [Lexeme.stop, hstart, ← byteLength_append]
  constructor
  · rw [hstart, htext, List.append_assoc]
    exact byteLength_mem_boundaries ..
  · rw [hstop, htext]
    exact byteLength_mem_boundaries ..
  · obtain ⟨first, c, cs, -, hlexeme⟩ := exists_eq_frontLexeme hmem
    have hpos := c.utf8Size_pos
    rw [hlexeme]
    simp only [Lexeme.stop, frontLexeme, byteLength_cons]
    omega
  · rw [hstart, hstop, htext]
    exact slice?_append ..
  · exact Lexeme.literal_of_ne_string
  · intro hstring
    have hsource := exists_source_eq hmem hstring
    rwa [Nat.zero_add] at hsource
  · exact tokens_source hmem

/-- A text is read to its end, which comes once and last. In front of it each lexeme stands in the
text, in order and apart from the others, and between them there are separators only. -/
theorem tokenize_lossless (text : List Char) :
    (∃ front last, tokenize text = front ++ [last] ∧
      last.kind = .endOfInput ∧ last.literal = "" ∧
      last.start = byteLength text ∧ last.stop = byteLength text ∧
      ∀ lexeme ∈ front, lexeme.kind ≠ .endOfInput ∧ lexeme.StandsIn text) ∧
    (tokenize text).Pairwise (fun a b => a.stop ≤ b.start) ∧
    ∀ front lexeme back, tokenize text = front ++ lexeme :: back →
      ∃ gap, slice? text (stopOf 0 front) lexeme.start = some gap ∧
        ∀ c ∈ gap, c = ' ' ∨ c = '\t' ∨ c = '\n' ∨ c = '\r' := by
  refine ⟨⟨lexemes text, _, rfl, rfl, rfl, rfl, rfl, fun lexeme hmem => ?_⟩,
    (covers_tokenize text).pairwise, fun front lexeme back hsplit => ?_⟩
  · exact ⟨kind_ne_endOfInput hmem, standsIn_of_mem hmem⟩
  · have hcovers := covers_tokenize text
    rw [hsplit] at hcovers
    obtain ⟨before, gap, after, htext, hbefore, hgap, hstart⟩ := hcovers.split
    refine ⟨gap, ?_, fun c hc => eq_of_isSeparator (hgap c hc)⟩
    rw [hstart, ← hbefore, Nat.zero_add, ← byteLength_append, htext, List.append_assoc]
    exact slice?_append ..

/-- A character of two bytes that begins nothing, a sign that is none, and a string left open. -/
theorem tokenize_lossless_illegal :
    tokenize " é='x".toList = [⟨.illegal, ['é'], 1⟩, ⟨.illegal, ['='], 3⟩,
      ⟨.string, ['\'', 'x'], 4⟩, ⟨.endOfInput, [], 6⟩] ∧
    ∃ gap, slice? " é='x".toList 0 1 = some gap ∧
      ∀ c ∈ gap, c = ' ' ∨ c = '\t' ∨ c = '\n' ∨ c = '\r' := by
  have htokens : tokenize " é='x".toList = [⟨.illegal, ['é'], 1⟩, ⟨.illegal, ['='], 3⟩,
      ⟨.string, ['\'', 'x'], 4⟩, ⟨.endOfInput, [], 6⟩] := by decide +kernel
  exact ⟨htokens, (tokenize_lossless _).2.2 [] _ _ htokens⟩

end DocShell.Query
