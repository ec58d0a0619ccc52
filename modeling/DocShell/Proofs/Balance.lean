import DocShell.Editor.Balance
import DocShell.Proofs.Lossless

namespace DocShell.Query

open DocShell.Text.Bytes

def TokenKind.opens (kind : TokenKind) : Bool :=
  kind == .punctuation .openBracket || kind == .punctuation .openParen

def TokenKind.closes (kind : TokenKind) : Bool :=
  kind == .punctuation .closeBracket || kind == .punctuation .closeParen

/-- How much deeper a token leads into brackets. -/
def TokenKind.depth (kind : TokenKind) : Int := kind.opens.toNat - kind.closes.toNat

def opening (tokens : List Token) : Nat := tokens.countP fun token => token.kind.opens

def closing (tokens : List Token) : Nat := tokens.countP fun token => token.kind.closes

/-- The number of brackets that some tokens open beyond those that they close. -/
def balance (tokens : List Token) : Int := opening tokens - closing tokens

@[simp] theorem balance_nil : balance [] = 0 := rfl

@[simp] theorem balance_cons (token : Token) (tokens : List Token) :
    balance (token :: tokens) = token.kind.depth + balance tokens := by
  simp only [balance, opening, closing, List.countP_cons, TokenKind.depth]
  cases token.kind.opens <;> cases token.kind.closes <;> simp <;> omega

@[simp] theorem balance_append (front back : List Token) :
    balance (front ++ back) = balance front + balance back := by
  simp only [balance, opening, closing, List.countP_append]
  omega

theorem depth_eq_zero {kind : TokenKind} (h : ∀ mark, kind ≠ .punctuation mark) :
    kind.depth = 0 := by
  have hbeq : ∀ mark, (kind == .punctuation mark) = false := fun mark => beq_false_of_ne (h mark)
  simp [TokenKind.depth, TokenKind.opens, TokenKind.closes, hbeq]

/-- A string that no quote closes: the text ends in it. -/
def LeftOpen (text : List Char) (lexeme : Lexeme) : Prop :=
  lexeme.kind = .string ∧ ∃ front quote behind, text = front ++ quote :: behind ∧
    byteLength front = lexeme.start ∧ lexeme.source = quote :: behind ∧ quote ∉ behind

theorem isUnterminated_iff_leftOpen {text : List Char} {lexeme : Lexeme}
    (h : lexeme ∈ lexemes text) : lexeme.isUnterminated = true ↔ LeftOpen text lexeme := by
  constructor
  · intro hopen
    have hkind := Lexeme.kind_of_isUnterminated hopen
    obtain ⟨quote, -, hquote, hclosed | ⟨hsource, hstop⟩⟩ := (standsIn_of_mem h).string_eq hkind
    · simp [Lexeme.isUnterminated, hclosed] at hopen
    · -- The string ends where the text does, so nothing stands behind it.
      obtain ⟨-, front, htext, hstart⟩ := exists_append_source h hstop
      rw [hsource] at htext
      exact ⟨hkind, front, quote, _, htext, hstart.symm, hsource, hquote⟩
  · rintro ⟨hkind, front, quote, behind, -, -, hsource, hquote⟩
    have hlast : behind.getLast? ≠ some quote := fun hlast => hquote (List.mem_of_getLast? hlast)
    simp [Lexeme.isUnterminated, hkind, hsource, hlast]

theorem eq_nil_of_leftOpen {text : List Char} {front back : List Lexeme} {lexeme : Lexeme}
    (h : lexemes text = front ++ lexeme :: back) (hopen : LeftOpen text lexeme) : back = [] := by
  obtain ⟨-, before, quote, behind, htext, hstart, hsource, -⟩ := hopen
  cases back with
  | nil => rfl
  | cons other back =>
      have hmem : other ∈ lexemes text := by
        rw [h]
        simp
      have hstop : lexeme.stop = byteLength text := by
        rw [Lexeme.stop, ← hstart, hsource, htext, byteLength_append]
      have hpairwise : (lexemes text).Pairwise fun a b => a.stop ≤ b.start :=
        (covers_lexemesFrom true 0 text).pairwise
      rw [h] at hpairwise
      have hapart : lexeme.stop ≤ other.start :=
        (List.pairwise_cons.mp (List.pairwise_append.mp hpairwise).2.1).1 other (by simp)
      have hfilled := (standsIn_of_mem hmem).start_lt_stop
      have hwithin : other.stop ≤ 0 + byteLength text := stop_le hmem
      omega

theorem exists_isUnterminated_iff {text : List Char} :
    (∃ lexeme ∈ lexemes text, lexeme.isUnterminated = true) ↔
      ∃ front last, lexemes text = front ++ [last] ∧ LeftOpen text last := by
  constructor
  · rintro ⟨last, hmem, hopen⟩
    have hleft := (isUnterminated_iff_leftOpen hmem).mp hopen
    obtain ⟨front, back, hsplit⟩ := List.append_of_mem hmem
    rw [eq_nil_of_leftOpen hsplit hleft] at hsplit
    exact ⟨front, last, hsplit, hleft⟩
  · rintro ⟨front, last, hsplit, hleft⟩
    have hmem : last ∈ lexemes text := by
      rw [hsplit]
      simp
    exact ⟨last, hmem, (isUnterminated_iff_leftOpen hmem).mpr hleft⟩

theorem tokensFrom_lexeme {first : Bool} {c : Char} {cs : List Char} (h : isSeparator c = false) :
    tokensFrom first (c :: cs) =
      (frontLexeme first 0 c cs).token :: tokensFrom false (munch first c cs).2.2 := by
  rw [tokensFrom, lexemesFrom_lexeme h, List.map_cons, map_token_lexemesFrom]

end DocShell.Query

namespace DocShell.Editor

open DocShell.Query
open DocShell.Text.Blank

def marks : List Char := ['"', '\'', '[', '(', ']', ')']

/-- A property that no mark has keeps a character from being one. -/
theorem not_mem_marks {p : Char → Bool} (hmarks : marks.any p = false) {c : Char}
    (h : p c = true) : c ∉ marks := by
  intro hmem
  exact List.any_eq_false.mp hmarks c hmem h

theorem not_mem_marks_of_isWordChar {c : Char} (h : isWordChar c = true) : c ∉ marks :=
  not_mem_marks (by decide) h

theorem not_mem_marks_of_isBlank {c : Char} (h : isBlank c = true) : c ∉ marks :=
  not_mem_marks (by decide) h

theorem closes_append_of_plain (depth : Int32) {front : List Char} (hfront : ∀ c ∈ front, c ∉ marks)
    (back : List Char) : closes none depth (front ++ back) = closes none depth back := by
  induction front with
  | nil => rfl
  | cons c front ih =>
      obtain ⟨hc, hfront⟩ := List.forall_mem_cons.mp hfront
      simp only [marks, List.mem_cons, List.not_mem_nil, not_or] at hc
      simp [closes, hc, ih hfront]

/-- Inside a string all that counts is the quote that ends it. -/
theorem closes_quoted (quote : Char) (depth : Int32) (cs : List Char) :
    closes (some quote) depth cs =
      (decide (quote ∈ cs) && closes none depth (quoted quote cs).2) := by
  induction cs with
  | nil => rfl
  | cons c cs ih =>
      by_cases hc : c = quote
      · simp [closes, quoted, hc]
      · simp [closes, quoted, hc, Ne.symm hc, ih]

/-- Blanks at the end close no string: no quote is blank. -/
theorem closes_append_blank {quote : Option Char} (hquote : ∀ q ∈ quote, q ∈ marks) (depth : Int32)
    (front : List Char) {back : List Char} (hback : ∀ c ∈ back, isBlank c = true) :
    closes quote depth (front ++ back) = closes quote depth front := by
  have hplain : ∀ c ∈ back, c ∉ marks := fun c hc => not_mem_marks_of_isBlank (hback c hc)
  induction front generalizing quote depth with
  | nil =>
      cases quote with
      | none =>
          have hpass := closes_append_of_plain depth hplain []
          rwa [List.append_nil] at hpass
      | some q =>
          have hq : q ∉ back := fun hmem => hplain q hmem (hquote q rfl)
          simp [closes_quoted, hq]
  | cons c front ih =>
      rw [List.cons_append]
      unfold closes
      cases quote with
      | none =>
          dsimp only
          split
          · rename_i hc
            have hmark : c ∈ marks := by rcases hc with rfl | rfl <;> decide
            exact ih (by simpa using hmark) depth
          · split
            · exact ih hquote _
            · split
              · exact ih hquote _
              · exact ih hquote _
      | some q =>
          dsimp only
          split
          · exact ih (by simp) depth
          · exact ih hquote depth

theorem isComplete_eq (line : List Char) : isComplete line = closes none 0 line := by
  have hends : ∀ cs : List Char, ∀ c ∈ cs.takeWhile isBlank, isBlank c = true :=
    fun cs c hc => List.mem_takeWhile_imp hc
  have hstart := List.takeWhile_append_dropWhile (p := isBlank) (l := line)
  have hend := List.takeWhile_append_dropWhile (p := isBlank) (l := (trimStart line).reverse)
  have hline : line = line.takeWhile isBlank ++
      (trim line ++ ((trimStart line).reverse.takeWhile isBlank).reverse) := by
    rw [trim, trimEnd, ← List.reverse_append, hend, List.reverse_reverse, trimStart, hstart]
  have hblank : ∀ c ∈ ((trimStart line).reverse.takeWhile isBlank).reverse, isBlank c = true := by
    intro c hc
    exact hends _ c (List.mem_reverse.mp hc)
  have hcloses : closes none 0 line = closes none 0 (trim line) := by
    conv_lhs => rw [hline]
    rw [closes_append_of_plain 0 fun c hc => not_mem_marks_of_isBlank (hends _ c hc),
      closes_append_blank (by simp) 0 _ hblank]
  rw [isComplete, hcloses]
  cases htrim : trim line with
  | nil => rfl
  | cons c cs => rfl

theorem isWordChar_of_mem_number {cs : List Char} {d : Char} (h : d ∈ (number cs).2.1) :
    isWordChar d = true := by
  have hdigit : ∀ cs : List Char, ∀ d ∈ cs.takeWhile Char.isDigit, isWordChar d = true := by
    intro cs d hd
    have hd : d.isDigit = true := List.mem_takeWhile_imp hd
    simp [isWordChar, hd]
  unfold number at h
  split at h
  · rename_i rest _
    rcases List.mem_append.mp h with h | h
    · exact hdigit cs d h
    · rcases List.mem_cons.mp h with rfl | h
      · rfl
      · exact hdigit rest d h
  · exact hdigit cs d h

theorem eq_of_mem_comparison {c d : Char} {cs : List Char} (h : d ∈ (comparison c cs).2.1) :
    d = '=' := by
  unfold comparison at h
  split at h <;> simp_all

theorem not_mem_marks_of_munched {first : Bool} {c : Char} {cs : List Char}
    {found : TokenKind × List Char × List Char} (h : Munched first c cs found)
    (hstring : found.1 ≠ .string) (hmark : ∀ mark, found.1 ≠ .punctuation mark) :
    ∀ d ∈ c :: found.2.1, d ∉ marks := by
  have htail : ∀ d ∈ cs.takeWhile isWordChar, d ∉ marks :=
    fun d hd => not_mem_marks_of_isWordChar (List.mem_takeWhile_imp hd)
  cases h with
  | command _ hc =>
      refine List.forall_mem_cons.mpr ⟨?_, htail⟩
      rw [hc]
      decide
  | string => exact absurd rfl hstring
  | number hc =>
      refine List.forall_mem_cons.mpr ⟨?_, fun d hd =>
        not_mem_marks_of_isWordChar (isWordChar_of_mem_number hd)⟩
      rcases hc with hc | ⟨rfl, -⟩
      · exact not_mem_marks_of_isWordChar (by simp [isWordChar, hc])
      · decide
  | word hc =>
      exact List.forall_mem_cons.mpr ⟨not_mem_marks_of_isWordChar (by simp [isWordChar, hc]), htail⟩
  | punctuation => exact absurd rfl (hmark _)
  | comparison hdouble hsingle _ _ hnone =>
      refine List.forall_mem_cons.mpr ⟨?_, fun d hd => ?_⟩
      · intro hmem
        simp only [marks, List.mem_cons, List.not_mem_nil, or_false, hdouble, hsingle,
          false_or] at hmem
        rcases hmem with rfl | rfl | rfl | rfl <;> cases hnone
      · rw [eq_of_mem_comparison hd]
        decide

theorem char_of_ofChar? {c : Char} {mark : Punctuation} (h : Punctuation.ofChar? c = some mark) :
    c = mark.char := by
  unfold Punctuation.ofChar? at h
  split at h <;> cases h <;> rfl

theorem closes_char (mark : Punctuation) (depth : Int32) (cs : List Char) :
    closes none depth (mark.char :: cs) =
      closes none (depth + Int32.ofInt (TokenKind.punctuation mark).depth) cs := by
  cases mark with
  | openBracket => rfl
  | openParen => rfl
  | closeBracket => exact congrArg (closes none · cs) (Int32.sub_eq_add_neg depth 1)
  | closeParen => exact congrArg (closes none · cs) (Int32.sub_eq_add_neg depth 1)
  | comma => exact congrArg (closes none · cs) (Int32.add_zero depth).symm

theorem closes_plain (first : Bool) (depth : Int32) {c : Char} {cs : List Char}
    (hstring : (munch first c cs).1 ≠ .string)
    (hmark : ∀ mark, (munch first c cs).1 ≠ .punctuation mark) :
    closes none depth (c :: cs) = closes none depth (munch first c cs).2.2 := by
  have hplain := not_mem_marks_of_munched (munch_munched first c cs) hstring hmark
  have hpass := closes_append_of_plain depth hplain (munch first c cs).2.2
  rwa [List.cons_append, munch_append] at hpass

/-- What a lexeme does to the depth: a bracket alone changes it, and a string must be closed. -/
theorem closes_lexeme (first : Bool) (position : Nat) (depth : Int32) (c : Char) (cs : List Char) :
    closes none depth (c :: cs) = true ↔
      (frontLexeme first position c cs).isUnterminated = false ∧
        closes none (depth + Int32.ofInt (munch first c cs).1.depth) (munch first c cs).2.2 =
          true := by
  by_cases hstring : (munch first c cs).1 = .string
  · have hquote := isQuote_of_munch_eq_string hstring
    have hopens : closes none depth (c :: cs) = closes (some c) depth cs := by
      rcases hquote with rfl | rfl <;> rfl
    have hzero : depth + Int32.ofInt TokenKind.string.depth = depth := Int32.add_zero depth
    rw [hopens, closes_quoted, frontLexeme, munch_quote hquote, isUnterminated_quoted, hzero,
      Bool.and_eq_true, decide_eq_true_eq]
  · have hterminated : (frontLexeme first position c cs).isUnterminated = false := by
      simp [Lexeme.isUnterminated, frontLexeme, hstring]
    rw [eq_true hterminated, true_and]
    by_cases hmark : ∃ mark, (munch first c cs).1 = .punctuation mark
    · obtain ⟨mark, hmark⟩ := hmark
      obtain ⟨hchar, hmunch⟩ := ofChar?_of_munch_eq_punctuation hmark
      rw [hmunch, char_of_ofChar? hchar, closes_char]
    · have hnone : ∀ mark, (munch first c cs).1 ≠ .punctuation mark := not_exists.mp hmark
      have hzero : depth + Int32.ofInt (munch first c cs).1.depth = depth := by
        rw [depth_eq_zero hnone]
        exact Int32.add_zero depth
      rw [closes_plain first depth hstring hnone, hzero]

/-- The characters and the tokens of a text lead equally deep, from any depth on, and with the same
wrapping around. -/
theorem closes_iff (first : Bool) (position : Nat) (depth : Int32) (cs : List Char) :
    closes none depth cs = true ↔
      (∀ lexeme ∈ lexemesFrom first position cs, lexeme.isUnterminated = false) ∧
        depth + Int32.ofInt (balance (tokensFrom first cs)) ≤ 0 := by
  induction first, position, cs using lexemes_induction generalizing depth with
  | nil first position => simp [closes, tokensFrom]
  | separator first position c cs hc ih =>
      have hplain : ∀ d ∈ [c], d ∉ marks := by
        simpa using not_mem_marks (p := isSeparator) (by decide) hc
      have hpass := closes_append_of_plain depth hplain cs
      rw [List.singleton_append] at hpass
      rw [hpass, lexemesFrom_separator hc, tokensFrom_separator hc]
      exact ih depth
  | lexeme first position c cs hc ih =>
      rw [closes_lexeme first position, ih, lexemesFrom_lexeme hc, tokensFrom_lexeme hc,
        List.forall_mem_cons, balance_cons, Int32.ofInt_add, ← Int32.add_assoc, and_assoc]
      rfl

theorem isComplete_iff (line : List Char) :
    isComplete line = true ↔ (∀ lexeme ∈ lexemes line, lexeme.isUnterminated = false) ∧
      Int32.ofInt (balance (tokens line)) ≤ 0 := by
  have hbalance : balance (tokens line) = balance (tokensFrom true line) := by
    have hzero : Token.atEnd.kind.depth = 0 := rfl
    rw [tokens_eq, balance_append, balance_cons, hzero, balance_nil]
    omega
  rw [isComplete_eq, closes_iff true 0, hbalance, Int32.zero_add]
  rfl

theorem ofInt_balance_le_zero {tokens : List Token} (h : opening tokens + closing tokens < 2 ^ 31) :
    Int32.ofInt (balance tokens) ≤ 0 ↔ opening tokens ≤ closing tokens := by
  have hfits : (Int32.ofInt (balance tokens)).toInt = balance tokens := by
    apply Int32.toInt_ofInt_of_le <;> simp only [balance] <;> omega
  rw [Int32.le_iff_toInt_le, hfits, Int32.toInt_zero, balance]
  omega

/-- A line is complete if no string of it is left open and it opens no more brackets than it
closes, and a string is told to be left open exactly when the text ends in it. -/
theorem isComplete_iff_opening_le_closing (line : List Char)
    (h : opening (tokens line) + closing (tokens line) < 2 ^ 31) :
    (isComplete line = true ↔ (∀ lexeme ∈ lexemes line, ¬LeftOpen line lexeme) ∧
      opening (tokens line) ≤ closing (tokens line)) ∧
    ∀ text, ∀ lexeme ∈ lexemes text, lexeme.isUnterminated = true ↔ LeftOpen text lexeme := by
  refine ⟨?_, fun text lexeme => isUnterminated_iff_leftOpen⟩
  rw [isComplete_iff, ofInt_balance_le_zero h]
  refine and_congr_left fun _ => forall₂_congr fun lexeme hmem => ?_
  rw [← isUnterminated_iff_leftOpen hmem, Bool.not_eq_true]

/-- A bracket and another quote inside a string count for nothing, and one bracket too many is
closed. -/
theorem isComplete_iff_opening_le_closing_quoted :
    isComplete " [ \"it's [(\" ] )\u3000".toList = true := by
  have hterminated : ∀ lexeme ∈ lexemes " [ \"it's [(\" ] )\u3000".toList,
      lexeme.isUnterminated = false := by decide +kernel
  obtain ⟨hcomplete, hopen⟩ :=
    isComplete_iff_opening_le_closing " [ \"it's [(\" ] )\u3000".toList (by decide +kernel)
  refine hcomplete.mpr ⟨fun lexeme hmem hleft => ?_, by decide +kernel⟩
  rw [← hopen _ lexeme hmem, hterminated lexeme hmem] at hleft
  cases hleft

end DocShell.Editor
