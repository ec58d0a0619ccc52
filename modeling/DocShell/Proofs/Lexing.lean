import DocShell.Query.Lexeme
import Mathlib.Data.List.TakeWhile

namespace DocShell.Query

open DocShell.Text.Bytes

theorem eq_of_isSeparator {s : Char} (h : isSeparator s = true) :
    s = ' ' ∨ s = '\t' ∨ s = '\n' ∨ s = '\r' := by
  simpa [isSeparator, or_assoc] using h

theorem not_isWordChar_of_isSeparator {s : Char} (h : isSeparator s = true) :
    isWordChar s = false := by
  rcases eq_of_isSeparator h with rfl | rfl | rfl | rfl <;> rfl

theorem not_isDigit_of_isSeparator {s : Char} (h : isSeparator s = true) : s.isDigit = false := by
  rcases eq_of_isSeparator h with rfl | rfl | rfl | rfl <;> rfl

theorem takeWhile_append_stop {p : Char → Bool} {s : Char} (hs : p s = false)
    (cs rest : List Char) : (cs ++ s :: rest).takeWhile p = cs.takeWhile p := by
  induction cs with
  | nil => simp [hs]
  | cons c cs ih =>
      simp only [List.cons_append, List.takeWhile_cons]
      rw [ih]

theorem dropWhile_append_stop {p : Char → Bool} {s : Char} (hs : p s = false)
    (cs rest : List Char) : (cs ++ s :: rest).dropWhile p = cs.dropWhile p ++ s :: rest := by
  induction cs with
  | nil => simp [hs]
  | cons c cs ih =>
      simp only [List.cons_append, List.dropWhile_cons]
      split
      · exact ih
      · rfl

theorem quoted_of_not_mem {quote : Char} {cs : List Char} (h : quote ∉ cs) :
    quoted quote cs = (cs, []) := by
  induction cs with
  | nil => rfl
  | cons c cs ih =>
      simp only [List.mem_cons, not_or] at h
      simp [quoted, Ne.symm h.1, ih h.2]

theorem quoted_of_closed {quote : Char} {front : List Char} (h : quote ∉ front)
    (back : List Char) : quoted quote (front ++ quote :: back) = (front ++ [quote], back) := by
  induction front with
  | nil => simp [quoted]
  | cons c cs ih =>
      simp only [List.mem_cons, not_or] at h
      simp [quoted, Ne.symm h.1, ih h.2]

/-- What is no string stands for itself. -/
theorem Lexeme.literal_of_ne_string {lexeme : Lexeme} (h : lexeme.kind ≠ .string) :
    lexeme.literal.toList = lexeme.source := by
  unfold literal
  split
  · rename_i hstring _
    exact absurd hstring h
  · exact String.toList_ofList

theorem Lexeme.kind_of_isUnterminated {lexeme : Lexeme} (h : lexeme.isUnterminated = true) :
    lexeme.kind = .string := by
  simp only [isUnterminated, Bool.and_eq_true, beq_iff_eq] at h
  exact h.1

/-- A string is terminated if its quote comes again. -/
theorem isUnterminated_quoted {quote : Char} {cs : List Char} {position : Nat} :
    (⟨.string, quote :: (quoted quote cs).1, position⟩ : Lexeme).isUnterminated = false ↔
      quote ∈ cs := by
  constructor
  · intro h
    by_cases hmem : quote ∈ cs
    · exact hmem
    · rw [quoted_of_not_mem hmem] at h
      simp only [Lexeme.isUnterminated, beq_self_eq_true, Bool.true_and,
        bne_eq_false_iff_eq] at h
      exact List.mem_of_getLast? h
  · intro h
    obtain ⟨front, back, rfl, hfront⟩ := List.eq_append_cons_of_mem h
    rw [quoted_of_closed hfront]
    simp [Lexeme.isUnterminated]

theorem number_append_stop {s : Char} (hs : isSeparator s = true) (cs rest : List Char) :
    number (cs ++ s :: rest) =
      ((number cs).1, (number cs).2.1, (number cs).2.2 ++ s :: rest) := by
  have hdigit := not_isDigit_of_isSeparator hs
  have hpoint : s ≠ '.' := by
    rcases eq_of_isSeparator hs with rfl | rfl | rfl | rfl <;> decide
  simp only [number, takeWhile_append_stop hdigit, dropWhile_append_stop hdigit]
  rcases cs.dropWhile Char.isDigit with _ | ⟨d, tail⟩
  · simp [hpoint]
  · by_cases hd : d = '.'
    · subst hd
      simp [takeWhile_append_stop hdigit, dropWhile_append_stop hdigit]
    · simp [hd]

theorem comparison_append_stop {s : Char} (hs : isSeparator s = true) (c : Char)
    (cs rest : List Char) :
    comparison c (cs ++ s :: rest) =
      ((comparison c cs).1, (comparison c cs).2.1, (comparison c cs).2.2 ++ s :: rest) := by
  have hequal : s ≠ '=' := by
    rcases eq_of_isSeparator hs with rfl | rfl | rfl | rfl <;> decide
  rcases cs with _ | ⟨d, tail⟩
  · unfold comparison
    split <;> simp_all
  · rw [List.cons_append]
    unfold comparison
    split <;> simp_all

theorem munch_append_stop {first : Bool} {c s : Char} {cs : List Char} {position : Nat}
    (hs : isSeparator s = true)
    (hterminated : (⟨(munch first c cs).1, c :: (munch first c cs).2.1, position⟩ :
      Lexeme).isUnterminated = false) (rest : List Char) :
    munch first c (cs ++ s :: rest) =
      ((munch first c cs).1, (munch first c cs).2.1, (munch first c cs).2.2 ++ s :: rest) := by
  have hword := not_isWordChar_of_isSeparator hs
  have hdigit := not_isDigit_of_isSeparator hs
  have hhead : (cs ++ s :: rest).head?.any Char.isDigit = cs.head?.any Char.isDigit := by
    cases cs <;> simp [hdigit]
  unfold munch at hterminated ⊢
  rw [hhead]
  split
  · simp only [takeWhile_append_stop hword, dropWhile_append_stop hword]
  · rename_i hcommand
    rw [if_neg hcommand] at hterminated
    split
    · rename_i hquote
      rw [if_pos hquote] at hterminated
      obtain ⟨front, back, rfl, hfront⟩ :=
        List.eq_append_cons_of_mem (isUnterminated_quoted.mp hterminated)
      rw [List.append_assoc, List.cons_append]
      simp only [quoted_of_closed hfront]
    · split
      · exact number_append_stop hs cs rest
      · split
        · simp only [takeWhile_append_stop hword, dropWhile_append_stop hword]
        · split
          · rfl
          · exact comparison_append_stop hs c cs rest

theorem munch_quote {first : Bool} {c : Char} {cs : List Char} (h : c = '"' ∨ c = '\'') :
    munch first c cs = (.string, quoted c cs) := by
  rcases h with rfl | rfl <;> simp [munch]

theorem ofCommand_eq (word : List Char) :
    (∃ command, TokenKind.ofCommand word = .command command) ∨
      TokenKind.ofCommand word = .illegal := by
  unfold TokenKind.ofCommand
  split
  · exact .inl ⟨_, rfl⟩
  · exact .inr rfl

theorem ofWord_eq (word : List Char) :
    (∃ keyword, TokenKind.ofWord word = .keyword keyword) ∨ TokenKind.ofWord word = .word := by
  unfold TokenKind.ofWord
  split
  · exact .inl ⟨_, rfl⟩
  · exact .inr rfl

theorem number_kind (cs : List Char) : (number cs).1 = .float ∨ (number cs).1 = .int := by
  unfold number
  split <;> simp

theorem comparison_kind (c : Char) (cs : List Char) :
    (∃ sign, (comparison c cs).1 = .comparison sign) ∨ (comparison c cs).1 = .illegal := by
  unfold comparison
  split <;> simp

/-- What a character that is no separator can begin. -/
inductive Munched (first : Bool) (c : Char) (cs : List Char) :
    TokenKind × List Char × List Char → Prop where
  | command : first = true → c = '\\' → Munched first c cs
      (.ofCommand (c :: cs.takeWhile isWordChar), cs.takeWhile isWordChar, cs.dropWhile isWordChar)
  | string : c = '"' ∨ c = '\'' → Munched first c cs (.string, quoted c cs)
  | number : c.isDigit = true ∨ c = '-' ∧ cs.head?.any Char.isDigit = true →
      Munched first c cs (number cs)
  | word : isWordStart c = true → ¬(c = '-' ∧ cs.head?.any Char.isDigit = true) →
      Munched first c cs
        (.ofWord (c :: cs.takeWhile isWordChar), cs.takeWhile isWordChar, cs.dropWhile isWordChar)
  | punctuation {mark} : Punctuation.ofChar? c = some mark →
      Munched first c cs (.punctuation mark, [], cs)
  | comparison : c ≠ '"' → c ≠ '\'' → c.isDigit = false → isWordStart c = false →
      Punctuation.ofChar? c = none → Munched first c cs (comparison c cs)

theorem munch_munched (first : Bool) (c : Char) (cs : List Char) :
    Munched first c cs (munch first c cs) := by
  unfold munch
  split
  · rename_i hcommand
    simp only [Bool.and_eq_true, beq_iff_eq] at hcommand
    exact .command hcommand.1 hcommand.2
  · split
    · rename_i hquote
      exact .string (by simpa using hquote)
    · rename_i hquote
      simp only [Bool.or_eq_true, beq_iff_eq, not_or] at hquote
      split
      · rename_i hnumber
        exact .number (by simpa using hnumber)
      · rename_i hnumber
        simp only [Bool.or_eq_true, Bool.and_eq_true, beq_iff_eq, not_or,
          Bool.not_eq_true] at hnumber
        split
        · rename_i hword
          exact .word hword (by simpa using hnumber.2)
        · rename_i hword
          split
          · rename_i mark hmark
            exact .punctuation hmark
          · rename_i hmark
            exact .comparison hquote.1 hquote.2 hnumber.1 (by simpa using hword) hmark

theorem isQuote_of_munch_eq_string {first : Bool} {c : Char} {cs : List Char}
    (h : (munch first c cs).1 = .string) : c = '"' ∨ c = '\'' := by
  have hmunched := munch_munched first c cs
  generalize munch first c cs = found at h hmunched
  cases hmunched with
  | command =>
      rcases ofCommand_eq (c :: cs.takeWhile isWordChar) with ⟨_, hkind⟩ | hkind <;> simp_all
  | string hquote => exact hquote
  | number => rcases number_kind cs with hkind | hkind <;> simp_all
  | word => rcases ofWord_eq (c :: cs.takeWhile isWordChar) with ⟨_, hkind⟩ | hkind <;> simp_all
  | punctuation => cases h
  | comparison => rcases comparison_kind c cs with ⟨_, hkind⟩ | hkind <;> simp_all

theorem ofChar?_of_munch_eq_punctuation {first : Bool} {c : Char} {cs : List Char}
    {mark : Punctuation} (h : (munch first c cs).1 = .punctuation mark) :
    Punctuation.ofChar? c = some mark ∧ munch first c cs = (.punctuation mark, [], cs) := by
  have hmunched := munch_munched first c cs
  generalize munch first c cs = found at h hmunched
  cases hmunched with
  | command =>
      rcases ofCommand_eq (c :: cs.takeWhile isWordChar) with ⟨_, hkind⟩ | hkind <;> simp_all
  | string => cases h
  | number => rcases number_kind cs with hkind | hkind <;> simp_all
  | word => rcases ofWord_eq (c :: cs.takeWhile isWordChar) with ⟨_, hkind⟩ | hkind <;> simp_all
  | punctuation hmark =>
      cases h
      exact ⟨hmark, rfl⟩
  | comparison => rcases comparison_kind c cs with ⟨_, hkind⟩ | hkind <;> simp_all

theorem munch_kind_ne_endOfInput (first : Bool) (c : Char) (cs : List Char) :
    (munch first c cs).1 ≠ .endOfInput := by
  have hmunched := munch_munched first c cs
  generalize munch first c cs = found at hmunched
  cases hmunched with
  | command =>
      rcases ofCommand_eq (c :: cs.takeWhile isWordChar) with ⟨_, hkind⟩ | hkind <;> simp_all
  | string => simp
  | number => rcases number_kind cs with hkind | hkind <;> simp_all
  | word => rcases ofWord_eq (c :: cs.takeWhile isWordChar) with ⟨_, hkind⟩ | hkind <;> simp_all
  | punctuation => simp
  | comparison => rcases comparison_kind c cs with ⟨_, hkind⟩ | hkind <;> simp_all

theorem munch_kind_ne_command (c : Char) (cs : List Char) (command : Command) :
    (munch false c cs).1 ≠ .command command := by
  have hmunched := munch_munched false c cs
  generalize munch false c cs = found at hmunched
  cases hmunched with
  | command hfirst => cases hfirst
  | string => simp
  | number => rcases number_kind cs with hkind | hkind <;> simp_all
  | word => rcases ofWord_eq (c :: cs.takeWhile isWordChar) with ⟨_, hkind⟩ | hkind <;> simp_all
  | punctuation => simp
  | comparison => rcases comparison_kind c cs with ⟨_, hkind⟩ | hkind <;> simp_all

/-- The lexemes of a text that begins at a byte position of its line. -/
def lexemesFrom (first : Bool) (position : Nat) (cs : List Char) : List Lexeme :=
  (pieces first position cs).filterMap Piece.lexeme?

def frontLexeme (first : Bool) (position : Nat) (c : Char) (cs : List Char) : Lexeme :=
  ⟨(munch first c cs).1, c :: (munch first c cs).2.1, position⟩

theorem stop_frontLexeme (first : Bool) (position : Nat) (c : Char) (cs : List Char) :
    (frontLexeme first position c cs).stop + byteLength (munch first c cs).2.2 =
      position + byteLength (c :: cs) := by
  have hlength := congrArg byteLength (munch_append first c cs)
  simp only [frontLexeme, Lexeme.stop, byteLength_cons, ← hlength, byteLength_append]
  omega

theorem pieces_lexeme {first : Bool} {position : Nat} {c : Char} {cs : List Char}
    (h : isSeparator c = false) :
    pieces first position (c :: cs) = .lexeme (frontLexeme first position c cs) ::
      pieces false (frontLexeme first position c cs).stop (munch first c cs).2.2 := by
  simp [pieces, h, frontLexeme, Lexeme.stop]

def gapPieces (gap : List Char) : List Piece := if gap = [] then [] else [.gap gap]

/-- Separators are one piece if none comes behind them. -/
theorem pieces_gap {gap : List Char} (hgap : ∀ c ∈ gap, isSeparator c = true) {cs : List Char}
    (hcs : ∀ c ∈ cs.head?, isSeparator c = false) (first : Bool) (position : Nat) :
    pieces first position (gap ++ cs) =
      gapPieces gap ++ pieces first (position + byteLength gap) cs := by
  cases gap with
  | nil => rfl
  | cons c gap =>
      obtain ⟨hc, hgap⟩ := List.forall_mem_cons.mp hgap
      have hnone : cs.takeWhile isSeparator = [] ∧ cs.dropWhile isSeparator = cs := by
        cases cs with
        | nil => exact ⟨rfl, rfl⟩
        | cons d cs => simp [hcs d rfl]
      rw [List.cons_append, pieces]
      simp only [hc, if_true, List.takeWhile_append_of_pos hgap, List.dropWhile_append_of_pos hgap,
        hnone.1, hnone.2, List.append_nil]
      rfl

theorem gap_of_mem_pieces {first : Bool} {position : Nat} {cs gap : List Char}
    (h : .gap gap ∈ pieces first position cs) : gap ≠ [] ∧ ∀ c ∈ gap, isSeparator c = true := by
  fun_induction pieces first position cs with
  | case1 => simp at h
  | case2 first position c cs hc tail ih =>
      rcases List.mem_cons.mp h with hgap | h
      · obtain rfl : gap = c :: tail := by simpa using hgap
        exact ⟨by simp, List.forall_mem_cons.mpr ⟨hc, fun d hd => List.mem_takeWhile_imp hd⟩⟩
      · exact ih h
  | case3 first position c cs hc found ih => exact ih (by simpa using h)

@[simp] theorem lexemesFrom_nil (first : Bool) (position : Nat) :
    lexemesFrom first position [] = [] := by
  simp [lexemesFrom, pieces]

theorem lexemesFrom_lexeme {first : Bool} {position : Nat} {c : Char} {cs : List Char}
    (h : isSeparator c = false) :
    lexemesFrom first position (c :: cs) =
      frontLexeme first position c cs ::
        lexemesFrom false (frontLexeme first position c cs).stop (munch first c cs).2.2 := by
  rw [lexemesFrom, pieces_lexeme h]
  rfl

theorem lexemesFrom_separator {first : Bool} {position : Nat} {c : Char} {cs : List Char}
    (h : isSeparator c = true) :
    lexemesFrom first position (c :: cs) = lexemesFrom first (position + c.utf8Size) cs := by
  have hgap : ∀ (c : Char) (cs : List Char) (position : Nat), isSeparator c = true →
      lexemesFrom first position (c :: cs) =
        lexemesFrom first (position + byteLength (c :: cs.takeWhile isSeparator))
          (cs.dropWhile isSeparator) := by
    intro c cs position h
    simp [lexemesFrom, pieces, h, List.filterMap_cons, Piece.lexeme?]
  rw [hgap c cs position h]
  cases cs with
  | nil => simp
  | cons d cs =>
      by_cases hd : isSeparator d = true
      · rw [hgap d cs _ hd]
        simp [hd, Nat.add_assoc]
      · simp [hd]

theorem lexemesFrom_gap {gap : List Char} (h : ∀ c ∈ gap, isSeparator c = true) (first : Bool)
    (position : Nat) (rest : List Char) : lexemesFrom first position (gap ++ rest) =
      lexemesFrom first (position + byteLength gap) rest := by
  induction gap generalizing position with
  | nil => rfl
  | cons c cs ih =>
      obtain ⟨hc, hcs⟩ := List.forall_mem_cons.mp h
      rw [List.cons_append, lexemesFrom_separator hc, ih hcs, byteLength_cons, Nat.add_assoc]

/-- Induction along the lexemes of a text. -/
theorem lexemes_induction {motive : Bool → Nat → List Char → Prop}
    (nil : ∀ first position, motive first position [])
    (separator : ∀ first position c cs, isSeparator c = true →
      motive first (position + c.utf8Size) cs → motive first position (c :: cs))
    (lexeme : ∀ first position c cs, isSeparator c = false →
      motive false (frontLexeme first position c cs).stop (munch first c cs).2.2 →
      motive first position (c :: cs))
    (first : Bool) (position : Nat) (cs : List Char) : motive first position cs := by
  induction hlength : cs.length using Nat.strongRecOn generalizing first position cs with
  | ind length ih =>
      cases cs with
      | nil => exact nil first position
      | cons c cs =>
          rw [List.length_cons] at hlength
          by_cases hc : isSeparator c = true
          · exact separator first position c cs hc (ih cs.length (by omega) _ _ _ rfl)
          · have hle := munch_length_le first c cs
            exact lexeme first position c cs (by simpa using hc) (ih _ (by omega) _ _ _ rfl)

theorem lexemesFrom_append {s : Char} (hs : isSeparator s = true) (first : Bool) (position : Nat)
    (cs rest : List Char)
    (hterminated : ∀ lexeme ∈ lexemesFrom first position cs, lexeme.isUnterminated = false) :
    lexemesFrom first position (cs ++ s :: rest) =
      lexemesFrom first position cs ++
        lexemesFrom (first && (lexemesFrom first position cs).isEmpty)
          (position + byteLength cs) (s :: rest) := by
  induction first, position, cs using lexemes_induction with
  | nil first position => simp
  | separator first position c cs hc ih =>
      rw [lexemesFrom_separator hc] at hterminated
      rw [List.cons_append, lexemesFrom_separator hc, lexemesFrom_separator hc, ih hterminated,
        byteLength_cons, Nat.add_assoc]
  | lexeme first position c cs hc ih =>
      rw [lexemesFrom_lexeme hc] at hterminated
      have hmunch := munch_append_stop hs (hterminated _ (List.mem_cons_self ..)) rest
      have hlength := congrArg byteLength (munch_append first c cs)
      have hfront : frontLexeme first position c (cs ++ s :: rest) =
          frontLexeme first position c cs := by
        simp only [frontLexeme, hmunch]
      rw [List.cons_append, lexemesFrom_lexeme hc, lexemesFrom_lexeme hc, hfront, hmunch,
        ih fun lexeme hmem => hterminated lexeme (List.mem_cons_of_mem _ hmem)]
      simp only [frontLexeme, Lexeme.stop, byteLength_cons, List.isEmpty_cons, Bool.and_false,
        Bool.false_and, List.cons_append, ← hlength, byteLength_append, Nat.add_assoc]

/-- No string of a text is open at its end. -/
def Terminated (cs : List Char) : Prop := ∀ lexeme ∈ lexemes cs, lexeme.isUnterminated = false

/-- A text whose last character is a separator. -/
def EndsSeparated (cs : List Char) : Prop := cs.getLast?.any isSeparator = true

theorem EndsSeparated.exists_append {cs : List Char} (h : EndsSeparated cs) :
    ∃ front s, cs = front ++ [s] ∧ isSeparator s = true := by
  obtain ⟨s, hlast, hs⟩ := (Option.any_eq_true _ _).mp h
  obtain ⟨front, rfl⟩ := List.getLast?_eq_some_iff.mp hlast
  exact ⟨front, s, rfl, hs⟩

theorem terminated_of_append_separator {s : Char} (hs : isSeparator s = true) (first : Bool)
    (position : Nat) (cs : List Char)
    (h : ∀ lexeme ∈ lexemesFrom first position (cs ++ [s]), lexeme.isUnterminated = false) :
    ∀ lexeme ∈ lexemesFrom first position cs, lexeme.isUnterminated = false := by
  induction first, position, cs using lexemes_induction with
  | nil first position => simp
  | separator first position c cs hc ih =>
      rw [List.cons_append, lexemesFrom_separator hc] at h
      rw [lexemesFrom_separator hc]
      exact ih h
  | lexeme first position c cs hc ih =>
      cases hfront : (frontLexeme first position c cs).isUnterminated with
      | false =>
          have hmunch := munch_append_stop hs hfront []
          have hsame : frontLexeme first position c (cs ++ [s]) =
              frontLexeme first position c cs := by
            simp only [frontLexeme, hmunch]
          rw [List.cons_append, lexemesFrom_lexeme hc, hsame, hmunch] at h
          rw [lexemesFrom_lexeme hc]
          intro lexeme hmem
          rcases List.mem_cons.mp hmem with rfl | hmem
          · exact hfront
          · exact ih (fun lexeme hmem => h lexeme (List.mem_cons_of_mem _ hmem)) lexeme hmem
      | true =>
          -- A string that is open stays open: the separator behind it does not close it.
          have hstring : (munch first c cs).1 = .string := Lexeme.kind_of_isUnterminated hfront
          have hquote := isQuote_of_munch_eq_string hstring
          have hopen : c ∉ cs := by
            rw [frontLexeme, munch_quote hquote] at hfront
            intro hmem
            rw [isUnterminated_quoted.mpr hmem] at hfront
            cases hfront
          have hlonger := h (frontLexeme first position c (cs ++ [s])) (by
            rw [List.cons_append, lexemesFrom_lexeme hc]
            exact List.mem_cons_self ..)
          rw [frontLexeme, munch_quote hquote, isUnterminated_quoted] at hlonger
          have hsame : c = s := by simpa [hopen] using hlonger
          rw [hsame, hs] at hc
          cases hc

theorem lexemesFrom_append_gap {gap : List Char} (hgap : ∀ c ∈ gap, isSeparator c = true)
    {first : Bool} {position : Nat} {cs : List Char}
    (h : ∀ lexeme ∈ lexemesFrom first position (cs ++ gap), lexeme.isUnterminated = false) :
    lexemesFrom first position (cs ++ gap) = lexemesFrom first position cs := by
  induction gap generalizing cs with
  | nil => rw [List.append_nil]
  | cons s gap ih =>
      obtain ⟨hs, hgap⟩ := List.forall_mem_cons.mp hgap
      rw [List.append_cons] at h ⊢
      have hsame := ih hgap h
      rw [hsame] at h ⊢
      rw [lexemesFrom_append hs first position cs []
        (terminated_of_append_separator hs first position cs h), lexemesFrom_separator hs,
        lexemesFrom_nil, List.append_nil]

/-- Every lexeme of a text stands at the front of some part of it. -/
theorem exists_eq_frontLexeme {first : Bool} {position : Nat} {cs : List Char} {lexeme : Lexeme}
    (h : lexeme ∈ lexemesFrom first position cs) :
    ∃ first c cs, isSeparator c = false ∧ lexeme = frontLexeme first lexeme.start c cs := by
  induction first, position, cs using lexemes_induction with
  | nil first position => simp at h
  | separator first position c cs hc ih =>
      rw [lexemesFrom_separator hc] at h
      exact ih h
  | lexeme first position c cs hc ih =>
      rw [lexemesFrom_lexeme hc] at h
      rcases List.mem_cons.mp h with rfl | h
      · exact ⟨first, c, cs, hc, rfl⟩
      · exact ih h

/-- A lexeme has at least one character, and stands where it says. -/
theorem exists_source_append {first : Bool} {position : Nat} {cs : List Char} {lexeme : Lexeme}
    (h : lexeme ∈ lexemesFrom first position cs) :
    lexeme.source ≠ [] ∧ ∃ front back, cs = front ++ lexeme.source ++ back ∧
      lexeme.start = position + byteLength front := by
  induction first, position, cs using lexemes_induction with
  | nil first position => simp at h
  | separator first position c cs hc ih =>
      rw [lexemesFrom_separator hc] at h
      obtain ⟨hne, front, back, hcs, hstart⟩ := ih h
      exact ⟨hne, c :: front, back, by rw [hcs]; rfl, by
        rw [hstart, byteLength_cons, Nat.add_assoc]⟩
  | lexeme first position c cs hc ih =>
      have hfront : c :: cs =
          (frontLexeme first position c cs).source ++ (munch first c cs).2.2 := by
        rw [frontLexeme, List.cons_append, munch_append]
      rw [lexemesFrom_lexeme hc] at h
      rcases List.mem_cons.mp h with rfl | h
      · exact ⟨by simp [frontLexeme], [], _, hfront, rfl⟩
      · obtain ⟨hne, front, back, hcs, hstart⟩ := ih h
        refine ⟨hne, (frontLexeme first position c cs).source ++ front, back, ?_, ?_⟩
        · rw [hfront, hcs]
          simp
        · rw [hstart, byteLength_append, Lexeme.stop, Nat.add_assoc]
          rfl

theorem exists_append_source {cs : List Char} {lexeme : Lexeme} (h : lexeme ∈ lexemes cs)
    (hstop : lexeme.stop = byteLength cs) :
    lexeme.source ≠ [] ∧
      ∃ front, cs = front ++ lexeme.source ∧ lexeme.start = byteLength front := by
  obtain ⟨hne, front, back, hcs, hstart⟩ :=
    exists_source_append (h : lexeme ∈ lexemesFrom true 0 cs)
  rw [Nat.zero_add] at hstart
  have hlength := congrArg byteLength hcs
  rw [byteLength_append, byteLength_append, ← hstop, Lexeme.stop, hstart] at hlength
  have hback := byteLength_eq_zero_iff.mp (Nat.left_eq_add.mp hlength)
  exact ⟨hne, front, by rw [hcs, hback, List.append_nil], hstart⟩

theorem kind_ne_endOfInput {first : Bool} {position : Nat} {cs : List Char} {lexeme : Lexeme}
    (h : lexeme ∈ lexemesFrom first position cs) : lexeme.kind ≠ .endOfInput := by
  obtain ⟨first, c, cs, -, hlexeme⟩ := exists_eq_frontLexeme h
  rw [hlexeme]
  exact munch_kind_ne_endOfInput first c cs

theorem kind_ne_command {position : Nat} {cs : List Char} {lexeme : Lexeme}
    (h : lexeme ∈ lexemesFrom false position cs) (command : Command) :
    lexeme.kind ≠ .command command := by
  generalize hfirst : false = first at h
  induction first, position, cs using lexemes_induction with
  | nil first position => simp at h
  | separator first position c cs hc ih =>
      rw [lexemesFrom_separator hc] at h
      exact ih hfirst h
  | lexeme first position c cs hc ih =>
      subst hfirst
      rw [lexemesFrom_lexeme hc] at h
      rcases List.mem_cons.mp h with rfl | h
      · exact munch_kind_ne_command c cs command
      · exact ih rfl h

theorem stop_le {first : Bool} {position : Nat} {cs : List Char} {lexeme : Lexeme}
    (h : lexeme ∈ lexemesFrom first position cs) : lexeme.stop ≤ position + byteLength cs := by
  induction first, position, cs using lexemes_induction with
  | nil first position => simp at h
  | separator first position c cs hc ih =>
      rw [lexemesFrom_separator hc] at h
      rw [byteLength_cons, ← Nat.add_assoc]
      exact ih h
  | lexeme first position c cs hc ih =>
      rw [lexemesFrom_lexeme hc] at h
      have hstop := stop_frontLexeme first position c cs
      rcases List.mem_cons.mp h with rfl | h
      · omega
      · rw [← hstop]
        exact ih h

/-- The lexeme, with what it says about its place changed. -/
def Lexeme.move (place : Nat → Nat) (lexeme : Lexeme) : Lexeme :=
  { lexeme with start := place lexeme.start }

theorem Lexeme.stop_move_add (shift : Nat) (lexeme : Lexeme) :
    (lexeme.move (· + shift)).stop = lexeme.stop + shift := by
  simp only [move, stop]
  omega

theorem lexemesFrom_add (first : Bool) (position shift : Nat) (cs : List Char) :
    lexemesFrom first (position + shift) cs =
      (lexemesFrom first position cs).map (Lexeme.move (· + shift)) := by
  induction first, position, cs using lexemes_induction with
  | nil first position => simp
  | separator first position c cs hc ih =>
      rw [lexemesFrom_separator hc, lexemesFrom_separator hc, Nat.add_right_comm, ih]
  | lexeme first position c cs hc ih =>
      have hfront : frontLexeme first (position + shift) c cs =
          (frontLexeme first position c cs).move (· + shift) := rfl
      rw [lexemesFrom_lexeme hc, lexemesFrom_lexeme hc, List.map_cons, hfront,
        Lexeme.stop_move_add, ih]

/-- The tokens of a text, without the end. -/
def tokensFrom (first : Bool) (cs : List Char) : List Token :=
  (lexemesFrom first 0 cs).map Lexeme.token

theorem map_token_lexemesFrom (first : Bool) (position : Nat) (cs : List Char) :
    (lexemesFrom first position cs).map Lexeme.token = tokensFrom first cs := by
  rw [← Nat.zero_add position, lexemesFrom_add, List.map_map]
  rfl

theorem tokens_eq (cs : List Char) : tokens cs = tokensFrom true cs ++ [Token.atEnd] := by
  rw [tokens, tokenize, List.map_append]
  rfl

theorem tokensFrom_separator {first : Bool} {s : Char} {cs : List Char}
    (hs : isSeparator s = true) : tokensFrom first (s :: cs) = tokensFrom first cs := by
  rw [tokensFrom, lexemesFrom_separator hs, map_token_lexemesFrom]

theorem kind_ne_endOfInput_of_mem_tokensFrom {first : Bool} {cs : List Char} {token : Token}
    (h : token ∈ tokensFrom first cs) : token.kind ≠ .endOfInput := by
  obtain ⟨lexeme, hmem, rfl⟩ := List.mem_map.mp h
  exact kind_ne_endOfInput hmem

theorem tokensFrom_append_separator {s : Char} (hs : isSeparator s = true) {first : Bool}
    {cs : List Char}
    (hterminated : ∀ lexeme ∈ lexemesFrom first 0 cs, lexeme.isUnterminated = false)
    (rest : List Char) :
    tokensFrom first (cs ++ s :: rest) =
      tokensFrom first cs ++ tokensFrom (first && (tokensFrom first cs).isEmpty) rest := by
  rw [tokensFrom, lexemesFrom_append hs first 0 cs rest hterminated, List.map_append,
    map_token_lexemesFrom, map_token_lexemesFrom, tokensFrom_separator hs]
  simp [tokensFrom]

section Separated

variable {text : List Char} (hend : EndsSeparated text) (hterminated : Terminated text)

include hend hterminated

/-- A text that ends in a separator has the lexemes of the text before it. -/
theorem exists_lexemes_eq : ∃ front s, text = front ++ [s] ∧ isSeparator s = true ∧
    Terminated front ∧ lexemes text = lexemes front := by
  obtain ⟨front, s, rfl, hs⟩ := hend.exists_append
  have hfront := terminated_of_append_separator hs true 0 front hterminated
  refine ⟨front, s, rfl, hs, hfront, ?_⟩
  refine (lexemesFrom_append hs true 0 front [] hfront).trans ?_
  rw [lexemesFrom_separator hs, lexemesFrom_nil, List.append_nil]
  rfl

theorem stop_lt {lexeme : Lexeme} (h : lexeme ∈ lexemes text) :
    lexeme.stop < byteLength text := by
  obtain ⟨front, s, rfl, hs, -, hsame⟩ := exists_lexemes_eq hend hterminated
  rw [hsame] at h
  have hle : lexeme.stop ≤ 0 + byteLength front := stop_le (h : lexeme ∈ lexemesFrom true 0 front)
  have hpos : 0 < s.utf8Size := s.utf8Size_pos
  simp only [byteLength_append, byteLength_cons, byteLength_nil]
  omega

theorem lexemes_append (rest : List Char) : lexemes (text ++ rest) =
    lexemes text ++ lexemesFrom (lexemes text).isEmpty (byteLength text) rest := by
  obtain ⟨front, s, rfl, hs, hfront, hsame⟩ := exists_lexemes_eq hend hterminated
  rw [List.append_assoc, List.singleton_append, hsame]
  refine (lexemesFrom_append hs true 0 front rest hfront).trans ?_
  rw [lexemesFrom_separator hs, Nat.zero_add, Bool.true_and, byteLength_append, byteLength_cons,
    byteLength_nil]
  rfl

theorem tokensFrom_append (rest : List Char) :
    tokensFrom true (text ++ rest) =
      tokensFrom true text ++ tokensFrom (tokensFrom true text).isEmpty rest := by
  refine (congrArg (List.map Lexeme.token) (lexemes_append hend hterminated rest)).trans ?_
  have hempty : (tokensFrom true text).isEmpty = (lexemes text).isEmpty := List.isEmpty_map
  rw [List.map_append, map_token_lexemesFrom, hempty]
  rfl

end Separated

end DocShell.Query
