import DocShell.Proofs.Lexing
import DocShell.Query.Parser

namespace DocShell.Query

open DocShell.Text.Bytes

/-- Behind its separators a text begins with a backslash and a word. They are one lexeme at the
front of a line, and two lexemes or more behind another one. -/
def BeginsCommand (cs : List Char) : Prop :=
  ∃ c rest, cs.dropWhile isSeparator = '\\' :: c :: rest ∧ isWordChar c = true

theorem munch_of_ne_backslash {c : Char} (h : c ≠ '\\') (cs : List Char) :
    munch false c cs = munch true c cs := by
  simp [munch, h]

theorem munch_backslash_iff {cs : List Char} : munch false '\\' cs = munch true '\\' cs ↔
    ¬∃ c rest, cs = c :: rest ∧ isWordChar c = true := by
  have hsign : munch false '\\' cs = (.illegal, [], cs) := rfl
  have hcommand : munch true '\\' cs = (.ofCommand ('\\' :: cs.takeWhile isWordChar),
      cs.takeWhile isWordChar, cs.dropWhile isWordChar) := rfl
  have hlone : TokenKind.ofCommand ['\\'] = .illegal := by decide
  rw [hsign, hcommand]
  cases cs with
  | nil => simp [hlone]
  | cons c cs => cases hc : isWordChar c <;> simp [hc, hlone]

theorem frontLexeme_first_iff {position : Nat} {c : Char} {cs : List Char} :
    frontLexeme false position c cs = frontLexeme true position c cs ↔
      munch false c cs = munch true c cs := by
  constructor
  · intro h
    simp only [frontLexeme, Lexeme.mk.injEq, List.cons.injEq, true_and, and_true] at h
    have hrest := (munch_append false c cs).trans (munch_append true c cs).symm
    rw [h.2] at hrest
    exact Prod.ext h.1 (Prod.ext h.2 (List.append_cancel_left hrest))
  · intro h
    rw [frontLexeme, h]
    rfl

/-- Whether a text stands at the front of its line shows in nothing but a command. -/
theorem lexemesFrom_first_iff {position : Nat} {cs : List Char} :
    lexemesFrom false position cs = lexemesFrom true position cs ↔ ¬BeginsCommand cs := by
  induction cs generalizing position with
  | nil => simp [BeginsCommand]
  | cons c cs ih =>
      cases hc : isSeparator c with
      | true =>
          rw [lexemesFrom_separator hc, lexemesFrom_separator hc, ih, BeginsCommand, BeginsCommand,
            List.dropWhile_cons_of_pos hc]
      | false =>
          have hmunch : lexemesFrom false position (c :: cs) = lexemesFrom true position (c :: cs) ↔
              munch false c cs = munch true c cs := by
            rw [lexemesFrom_lexeme hc, lexemesFrom_lexeme hc]
            constructor
            · intro h
              exact frontLexeme_first_iff.mp (List.cons.inj h).1
            · intro h
              rw [frontLexeme_first_iff.mpr h, h]
          rw [hmunch, BeginsCommand, List.dropWhile_cons_of_neg (by simp [hc])]
          by_cases hbackslash : c = '\\'
          · subst hbackslash
            rw [munch_backslash_iff]
            simp
          · simp [munch_of_ne_backslash hbackslash, hbackslash]

theorem map_move_tokenize (shift : Nat) (cs : List Char) :
    (tokenize cs).map (Lexeme.move (· + shift)) =
      lexemesFrom true shift cs ++ [⟨.endOfInput, [], shift + byteLength cs⟩] := by
  have hmove := lexemesFrom_add true 0 shift cs
  rw [Nat.zero_add] at hmove
  rw [tokenize, List.map_append, hmove, Nat.add_comm shift]
  rfl

section Gap

variable {front gap : List Char} (hgap : ∀ c ∈ gap, isSeparator c = true)

include hgap

theorem lexemes_joined (hterminated : Terminated front) (hne : gap ≠ []) (back : List Char) :
    lexemes (front ++ gap ++ back) = lexemes front ++
      lexemesFrom (lexemes front).isEmpty (byteLength (front ++ gap)) back := by
  obtain ⟨s, gap, rfl⟩ := List.exists_cons_of_ne_nil hne
  have hsplit := lexemesFrom_append (hgap s (List.mem_cons_self ..)) true 0 front (gap ++ back)
    hterminated
  rw [← List.cons_append, lexemesFrom_gap hgap, Nat.zero_add, ← byteLength_append,
    ← List.append_assoc] at hsplit
  exact hsplit

/-- Two texts are read one after the other, each as if it were alone. For the second one this fails
exactly if it begins with a command and does not come first. -/
theorem tokenize_joined_iff (hterminated : Terminated front) (hne : gap ≠ []) (back : List Char) :
    tokenize (front ++ gap ++ back) =
        lexemes front ++ (tokenize back).map (Lexeme.move (· + byteLength (front ++ gap))) ↔
      lexemes front = [] ∨ ¬BeginsCommand back := by
  rw [map_move_tokenize, tokenize, lexemes_joined hgap hterminated hne, byteLength_append _ back,
    List.append_assoc, List.append_cancel_left_eq, List.append_cancel_right_eq]
  cases hfront : lexemes front with
  | nil => simp
  | cons lexeme rest => simp [lexemesFrom_first_iff]

/-- Behind a word the command is a lone backslash and a word. -/
example : (tokenize "QUERY \\d".toList).map Lexeme.kind =
    [.keyword .query, .illegal, .word, .endOfInput] := by decide +kernel

theorem tokensFrom_gap (first : Bool) (cs : List Char) :
    tokensFrom first (gap ++ cs) = tokensFrom first cs := by
  rw [tokensFrom, lexemesFrom_gap hgap, map_token_lexemesFrom]

theorem tokensFrom_separators (first : Bool) : tokensFrom first gap = [] := by
  have hnone := tokensFrom_gap hgap first []
  rw [List.append_nil] at hnone
  rw [hnone, tokensFrom, lexemesFrom_nil, List.map_nil]

theorem tokensFrom_append_gap (hterminated : Terminated front) :
    tokensFrom true (front ++ gap) = tokensFrom true front := by
  cases gap with
  | nil => rw [List.append_nil]
  | cons s gap =>
      obtain ⟨hs, hgap⟩ := List.forall_mem_cons.mp hgap
      rw [tokensFrom_append_separator hs hterminated, tokensFrom_separators hgap, List.append_nil]

end Gap

/-- Of its line a parser knows the tokens only. -/
theorem Parser.ofLine_congr {line line' : String}
    (h : tokensFrom true line.toList = tokensFrom true line'.toList) :
    ofLine line = ofLine line' := by
  rw [ofLine, ofLine, tokens_eq, tokens_eq, h]

theorem parse_congr {line line' : String}
    (h : tokensFrom true line.toList = tokensFrom true line'.toList) :
    parse line = parse line' := by
  rw [parse, parse, Parser.ofLine_congr h]

/-- Reading composes at a gap. The lexemes of two texts with separators between them are those of
the first and, as much later as it begins, those of the second, if the first has none or the second
does not begin with a backslash. Separators in front of a line or behind it change nothing. -/
theorem tokenize_composes {gap : List Char} (hgap : ∀ c ∈ gap, isSeparator c = true) :
    (∀ front back, gap ≠ [] → Terminated front →
      (lexemes front ≠ [] ∧ (back.dropWhile isSeparator).head? ≠ some '\\' ∨
        ∀ c ∈ front, isSeparator c = true) →
      tokenize (front ++ gap ++ back) = (tokenize front).dropLast ++
        (tokenize back).map (Lexeme.move (· + byteLength (front ++ gap)))) ∧
    ∀ line : String, parse (String.ofList gap ++ line) = parse line ∧
      (Terminated line.toList → parse (line ++ String.ofList gap) = parse line) := by
  refine ⟨fun front back hne hterminated hfront => ?_, fun line => ⟨?_, fun hterminated => ?_⟩⟩
  · have hlast : (tokenize front).dropLast = lexemes front := List.dropLast_concat
    rw [hlast, tokenize_joined_iff hgap hterminated hne]
    rcases hfront with ⟨-, hback⟩ | hfront
    · refine .inr ?_
      rintro ⟨c, rest, hbegins, -⟩
      exact hback (by rw [hbegins]; rfl)
    · exact .inl (List.map_eq_nil_iff.mp (tokensFrom_separators hfront true))
  · refine parse_congr ?_
    rw [String.toList_append, String.toList_ofList]
    exact tokensFrom_gap hgap true line.toList
  · refine parse_congr ?_
    rw [String.toList_append, String.toList_ofList]
    exact tokensFrom_append_gap hgap hterminated

/-- Without the gap the two signs would be one. Behind separators a command still comes first. -/
theorem tokenize_composes_signs :
    tokenize ("'é' >".toList ++ "\t".toList ++ "=-3. 5".toList) =
        [⟨.string, ['\'', 'é', '\''], 0⟩, ⟨.comparison .greater, ['>'], 5⟩, ⟨.illegal, ['='], 7⟩,
          ⟨.float, ['-', '3', '.'], 8⟩, ⟨.int, ['5'], 12⟩, ⟨.endOfInput, [], 13⟩] ∧
      tokenize ("\n".toList ++ "\t".toList ++ "\\d".toList) =
        [⟨.command .listCollections, ['\\', 'd'], 2⟩, ⟨.endOfInput, [], 4⟩] ∧
      parse "\tGET users/1" = .ok (.get "users" "1") ∧
      parse "GET users/1\t" = .ok (.get "users" "1") := by
  have hgap : ∀ c ∈ "\t".toList, isSeparator c = true := List.all_eq_true.mp (by decide)
  obtain ⟨hjoined, hline⟩ := tokenize_composes hgap
  have hget : parse "GET users/1" = .ok (.get "users" "1") := by decide +kernel
  refine ⟨?_, ?_, ?_, ?_⟩
  · rw [hjoined _ _ (by decide) (by unfold Terminated; decide +kernel)
      (.inl ⟨by decide +kernel, by decide +kernel⟩)]
    decide +kernel
  · rw [hjoined _ _ (by decide) (by unfold Terminated; decide +kernel)
      (.inr (List.all_eq_true.mp (by decide)))]
    decide +kernel
  · rw [← hget]
    exact (hline "GET users/1").1
  · rw [← hget]
    exact (hline "GET users/1").2 (by unfold Terminated; decide +kernel)

end DocShell.Query
