import DocShell.Proofs.ExactDecimal
import DocShell.Proofs.Lexing
import DocShell.Text.Segments
import Mathlib.Data.List.TakeWhile

namespace DocShell.Query

open DocShell.Number
open DocShell.Number.Decimal
open DocShell.Text.Bytes
open DocShell.Text.Segments

theorem isAlpha_iff {c : Char} : c.isAlpha = true ↔
    65 ≤ c.toNat ∧ c.toNat ≤ 90 ∨ 97 ≤ c.toNat ∧ c.toNat ≤ 122 := by
  have halpha : c.isAlpha = (c.isUpper || c.isLower) := rfl
  have hupper : c.isUpper = decide ('A'.val ≤ c.val ∧ c.val ≤ 'Z'.val) := rfl
  have hlower : c.isLower = (decide ('a'.val ≤ c.val) && decide (c.val ≤ 'z'.val)) := rfl
  simp [halpha, hupper, hlower, UInt32.le_iff_toNat_le, ← Char.toNat_val]

theorem toUpper_cases (c : Char) :
    c.toUpper = c ∨ c.isAlpha = true ∧ c.toUpper.isAlpha = true := by
  unfold Char.toUpper
  split
  · rename_i hlower
    rw [isAlpha_iff, isAlpha_iff]
    simp only [UInt32.le_iff_toNat_le, ← Char.toNat_val, UInt32.toNat_add] at hlower ⊢
    simp only [Char.reduceVal, UInt32.reduceToNat, UInt32.reduceSub] at hlower ⊢
    omega
  · exact .inl rfl

theorem toLower_cases (c : Char) :
    c.toLower = c ∨ c.isAlpha = true ∧ c.toLower.isAlpha = true := by
  unfold Char.toLower
  split
  · rename_i hupper
    rw [isAlpha_iff, isAlpha_iff]
    simp only [ge_iff_le, UInt32.le_iff_toNat_le, ← Char.toNat_val, UInt32.toNat_add] at hupper ⊢
    simp only [Char.reduceVal, UInt32.reduceToNat, UInt32.reduceSub] at hupper ⊢
    omega
  · exact .inl rfl

theorem isWordStart_of_isAlpha {c : Char} (h : c.isAlpha = true) : isWordStart c = true := by
  simp [isWordStart, h]

theorem isWordStart_eq {c d : Char} (h : d = c ∨ c.isAlpha = true ∧ d.isAlpha = true) :
    isWordStart d = isWordStart c := by
  rcases h with rfl | ⟨hc, hd⟩
  · rfl
  · rw [isWordStart_of_isAlpha hc, isWordStart_of_isAlpha hd]

theorem isWordStart_toUpper (c : Char) : isWordStart c.toUpper = isWordStart c :=
  isWordStart_eq (toUpper_cases c)

theorem isWordStart_toLower (c : Char) : isWordStart c.toLower = isWordStart c :=
  isWordStart_eq (toLower_cases c)

theorem not_isDigit_of_isWordStart {c : Char} (h : isWordStart c = true) : c.isDigit = false := by
  cases hdigit : c.isDigit with
  | false => rfl
  | true =>
      simp only [Char.isDigit, Bool.and_eq_true, decide_eq_true_eq, ge_iff_le,
        UInt32.le_iff_toNat_le] at hdigit
      simp only [isWordStart, Bool.or_eq_true, isAlpha_iff, beq_iff_eq, ← Char.toNat_val] at h
      rcases h with (((h | rfl) | rfl) | rfl) | rfl
      all_goals simp only [Char.reduceVal, UInt32.reduceToNat] at *
      all_goals omega

theorem not_isSeparator_of_isWordChar {c : Char} (h : isWordChar c = true) :
    isSeparator c = false := by
  cases hc : isSeparator c with
  | false => rfl
  | true =>
      rw [not_isWordChar_of_isSeparator hc] at h
      cases h

theorem ne_of_isWordChar {c d : Char} (h : isWordChar c = true) (hd : isWordChar d = false) :
    c ≠ d := by
  rintro rfl
  rw [h] at hd
  cases hd

/-- A text that is one finished token. `first` says that no other stands before it. -/
structure Spells (first : Bool) (source : List Char) (token : Token) : Prop where
  tokens : tokensFrom first source = [token]
  terminated : ∀ lexeme ∈ lexemesFrom first 0 source, lexeme.isUnterminated = false

theorem spells_of_munch {first : Bool} {c : Char} {cs : List Char} {kind : TokenKind}
    (hc : isSeparator c = false) (hmunch : munch first c cs = (kind, cs, []))
    (hterminated : (⟨kind, c :: cs, 0⟩ : Lexeme).isUnterminated = false) :
    Spells first (c :: cs) (⟨kind, c :: cs, 0⟩ : Lexeme).token := by
  have hlexemes : lexemesFrom first 0 (c :: cs) = [⟨kind, c :: cs, 0⟩] := by
    simp only [lexemesFrom_lexeme hc, frontLexeme, hmunch, lexemesFrom_nil]
  constructor
  · rw [tokensFrom, hlexemes]
    rfl
  · rw [hlexemes]
    intro lexeme hmem
    rwa [List.mem_singleton.mp hmem]

theorem spells_of_munch_of_ne {first : Bool} {c : Char} {cs : List Char} {kind : TokenKind}
    (hkind : kind ≠ .string) (hc : isSeparator c = false)
    (hmunch : munch first c cs = (kind, cs, [])) :
    Spells first (c :: cs) ⟨kind, String.ofList (c :: cs)⟩ := by
  have hterminated : (⟨kind, c :: cs, 0⟩ : Lexeme).isUnterminated = false := by
    simp [Lexeme.isUnterminated, hkind]
  have htoken : (⟨kind, c :: cs, 0⟩ : Lexeme).token = ⟨kind, String.ofList (c :: cs)⟩ := by
    simp only [Lexeme.token, Lexeme.literal, Token.mk.injEq, true_and]
    split
    · exact absurd rfl hkind
    · rfl
  rw [← htoken]
  exact spells_of_munch hc hmunch hterminated

/-- Whether the word is more than a number: a hyphen in front of a digit begins a number. -/
def beginsWord : List Char → Bool
  | [] => false
  | c :: cs => isWordStart c && !(c == '-' && cs.head?.any Char.isDigit)

theorem munch_word {first : Bool} {c : Char} {cs : List Char} (hstart : beginsWord (c :: cs) = true)
    (hcs : ∀ d ∈ cs, isWordChar d = true) :
    munch first c cs = (.ofWord (c :: cs), cs, []) := by
  simp only [beginsWord, Bool.and_eq_true, Bool.not_eq_true'] at hstart
  have hchar : isWordChar c = true := by simp [isWordChar, hstart.1]
  have htake : cs.takeWhile isWordChar = cs := List.takeWhile_eq_self_iff.mpr hcs
  have hdrop : cs.dropWhile isWordChar = [] := List.dropWhile_eq_nil_iff.mpr hcs
  have hbackslash : (c == '\\') = false := beq_false_of_ne (ne_of_isWordChar hchar rfl)
  have hdouble : (c == '"') = false := beq_false_of_ne (ne_of_isWordChar hchar rfl)
  have hsingle : (c == '\'') = false := beq_false_of_ne (ne_of_isWordChar hchar rfl)
  simp only [munch, hbackslash, hdouble, hsingle, not_isDigit_of_isWordStart hstart.1, hstart.2,
    hstart.1, htake, hdrop, Bool.and_false, Bool.or_false, Bool.false_eq_true, if_false, if_true]

theorem lexemesFrom_word {word : List Char} (hstart : beginsWord word = true)
    (hchars : ∀ c ∈ word, isWordChar c = true) (first : Bool) (position : Nat) :
    lexemesFrom first position word = [⟨.ofWord word, word, position⟩] := by
  cases word with
  | nil => cases hstart
  | cons c cs =>
      obtain ⟨hc, hcs⟩ := List.forall_mem_cons.mp hchars
      rw [lexemesFrom_lexeme (not_isSeparator_of_isWordChar hc), frontLexeme,
        munch_word hstart hcs, lexemesFrom_nil]

theorem spells_ofWord (word : String) (first : Bool) (hstart : beginsWord word.toList = true)
    (hchars : ∀ c ∈ word.toList, isWordChar c = true) :
    Spells first word.toList ⟨.ofWord word.toList, word⟩ := by
  cases hword : word.toList with
  | nil =>
      rw [hword] at hstart
      cases hstart
  | cons c cs =>
      rw [hword] at hstart hchars
      have hliteral : word = String.ofList (c :: cs) := by rw [← hword, String.ofList_toList]
      rw [hliteral]
      refine spells_of_munch_of_ne ?_ (not_isSeparator_of_isWordChar (hchars c (by simp)))
        (munch_word hstart fun d hd => hchars d (List.mem_cons_of_mem _ hd))
      rcases ofWord_eq (c :: cs) with ⟨keyword, hkind⟩ | hkind <;> simp [hkind]

theorem isWord_of_ofWord {word : List Char} {keyword : Keyword}
    (h : TokenKind.ofWord word = .keyword keyword) :
    beginsWord word = true ∧ ∀ c ∈ word, isWordChar c = true := by
  have hfound : Keyword.ofWord? word = some keyword := by
    unfold TokenKind.ofWord at h
    split at h <;> simp_all
  have hname : keyword.name.toList = word.map Char.toUpper := by
    simpa using List.find?_some hfound
  have hletters : ∀ d ∈ keyword.name.toList, isWordStart d = true ∧ d ≠ '-' := by
    have hall : keyword.name.toList.all (fun d => isWordStart d && d != '-') = true := by
      cases keyword <;> decide
    simpa using hall
  have hstart : ∀ c ∈ word, isWordStart c = true ∧ c ≠ '-' := by
    intro c hc
    obtain ⟨hupper, hne⟩ := hletters c.toUpper (hname ▸ List.mem_map_of_mem hc)
    refine ⟨isWordStart_toUpper c ▸ hupper, ?_⟩
    rintro rfl
    exact hne rfl
  constructor
  · cases word with
    | nil => cases keyword <;> cases hname
    | cons c cs =>
        obtain ⟨hc, hne⟩ := hstart c (List.mem_cons_self ..)
        simp [beginsWord, hc, hne]
  · intro c hc
    simp [isWordChar, (hstart c hc).1]

/-- A word that is no keyword, in any case, and no number: a field, or a path with its slash. -/
structure IsField (word : String) : Prop where
  begins : beginsWord word.toList = true
  chars : ∀ c ∈ word.toList, isWordChar c = true
  not_keyword : Keyword.ofWord? word.toList = none

theorem ofWord?_of_slash_mem {word : List Char} (h : '/' ∈ word) : Keyword.ofWord? word = none := by
  rw [Keyword.ofWord?, List.find?_eq_none]
  intro keyword _ hname
  have hmem : '/' ∉ keyword.name.toList := by cases keyword <;> decide
  rw [beq_iff_eq.mp hname] at hmem
  exact hmem (List.mem_map_of_mem h)

theorem IsField.spells {word : String} (h : IsField word) (first : Bool) :
    Spells first word.toList ⟨.word, word⟩ := by
  have hspells := spells_ofWord word first h.begins h.chars
  rwa [TokenKind.ofWord, h.not_keyword] at hspells

theorem spells_keyword (first : Bool) (keyword : Keyword) :
    Spells first keyword.name.toList ⟨.keyword keyword, keyword.name⟩ := by
  have hspells := spells_ofWord keyword.name first (by cases keyword <;> decide)
    (List.all_eq_true.mp (by cases keyword <;> decide))
  rwa [TokenKind.ofWord, Keyword.ofWord?_name] at hspells

theorem number_of_digits {digits : List Char} (h : ∀ c ∈ digits, c.isDigit = true) :
    number digits = (.int, digits, []) := by
  have htake : digits.takeWhile Char.isDigit = digits := List.takeWhile_eq_self_iff.mpr h
  have hdrop : digits.dropWhile Char.isDigit = [] := List.dropWhile_eq_nil_iff.mpr h
  simp only [number, htake, hdrop]

theorem number_of_point {whole fraction : List Char} (hwhole : ∀ c ∈ whole, c.isDigit = true)
    (hfraction : ∀ c ∈ fraction, c.isDigit = true) :
    number (whole ++ '.' :: fraction) = (.float, whole ++ '.' :: fraction, []) := by
  have htake : whole.takeWhile Char.isDigit = whole := List.takeWhile_eq_self_iff.mpr hwhole
  have hdrop : whole.dropWhile Char.isDigit = [] := List.dropWhile_eq_nil_iff.mpr hwhole
  have htake' : fraction.takeWhile Char.isDigit = fraction :=
    List.takeWhile_eq_self_iff.mpr hfraction
  have hdrop' : fraction.dropWhile Char.isDigit = [] :=
    List.dropWhile_eq_nil_iff.mpr hfraction
  simp only [number, takeWhile_append_stop (p := Char.isDigit) (s := '.') rfl,
    dropWhile_append_stop (p := Char.isDigit) (s := '.') rfl, htake, hdrop, List.nil_append, htake',
    hdrop']

theorem number_cons {c : Char} (hc : c.isDigit = true) (cs : List Char) :
    number (c :: cs) = ((number cs).1, c :: (number cs).2.1, (number cs).2.2) := by
  simp only [number, List.takeWhile_cons, List.dropWhile_cons, hc, if_true]
  split <;> rfl

/-- Digits, perhaps with a point, after an optional hyphen. -/
theorem spells_number (first negative : Bool) {kind : TokenKind} {body : List Char}
    (hkind : kind ≠ .string) (hhead : body.head?.any Char.isDigit = true)
    (hnumber : number body = (kind, body, [])) :
    Spells first ((if negative then ['-'] else []) ++ body)
      ⟨kind, String.ofList ((if negative then ['-'] else []) ++ body)⟩ := by
  cases negative with
  | true =>
      refine spells_of_munch_of_ne hkind rfl ?_
      simp [munch, hhead, hnumber]
  | false =>
      cases body with
      | nil => cases hhead
      | cons c cs =>
          have hc : c.isDigit = true := by simpa using hhead
          have hchar : isWordChar c = true := by simp [isWordChar, hc]
          rw [number_cons hc, Prod.mk.injEq, Prod.mk.injEq, List.cons.injEq] at hnumber
          obtain ⟨hfound, ⟨-, hcs⟩, hrest⟩ := hnumber
          have hrun : number cs = (kind, cs, []) := Prod.ext hfound (Prod.ext hcs hrest)
          refine spells_of_munch_of_ne hkind (not_isSeparator_of_isWordChar hchar) ?_
          have hbackslash : c ≠ '\\' := ne_of_isWordChar hchar rfl
          have hdouble : c ≠ '"' := ne_of_isWordChar hchar rfl
          have hsingle : c ≠ '\'' := ne_of_isWordChar hchar rfl
          simp [munch, hbackslash, hdouble, hsingle, hc, hrun]

theorem head_digits (n : Nat) (rest : List Char) :
    (digits n ++ rest).head?.any Char.isDigit = true := by
  cases hdigits : digits n with
  | nil => exact absurd hdigits (digits_ne_nil n)
  | cons c cs =>
      have hc := isDigit_of_mem_digits (hdigits ▸ List.mem_cons_self : c ∈ digits n)
      simp [hc]

theorem spells_int (first : Bool) (n : Int) :
    Spells first (ofInt n) ⟨.int, String.ofList (ofInt n)⟩ := by
  have hofInt : ofInt n = (if n < 0 then ['-'] else []) ++ digits n.natAbs := by
    unfold ofInt
    split <;> rfl
  have hspells := spells_number first (n < 0) (by simp) (by simpa using head_digits n.natAbs [])
    (number_of_digits fun _ => isDigit_of_mem_digits)
  simpa [hofInt] using hspells

theorem spells_float (first : Bool) (x : Binary64) :
    Spells first x.literal ⟨.float, String.ofList x.literal⟩ :=
  spells_number first x.negative (by simp) (head_digits _ _)
    (number_of_point (fun _ => isDigit_of_mem_digits) fun _ => isDigit_of_mem_padded)

theorem token_quoted {quote : Char} {literal : String} (h : quote ∉ literal.toList)
    (position : Nat) : (⟨.string, quote :: (literal.toList ++ [quote]), position⟩ : Lexeme).token =
      ⟨.string, literal⟩ := by
  have htake : (literal.toList ++ [quote]).takeWhile (· != quote) = literal.toList := by
    rw [List.takeWhile_append_of_pos]
    · simp
    · intro c hc
      simpa using ne_of_mem_of_not_mem hc h
  simp only [Lexeme.token, Lexeme.literal, htake, String.ofList_toList]

theorem spells_string (first : Bool) {quote : Char} {literal : String}
    (hquote : quote = '"' ∨ quote = '\'') (h : quote ∉ literal.toList) :
    Spells first (quote :: (literal.toList ++ [quote])) ⟨.string, literal⟩ := by
  have hclosed := quoted_of_closed h []
  rw [← token_quoted h 0]
  refine spells_of_munch ?_ ?_ ?_
  · rcases hquote with rfl | rfl <;> rfl
  · rw [munch_quote hquote, hclosed]
  · have hterminated : (⟨.string, quote :: (quoted quote (literal.toList ++ [quote])).1, 0⟩ :
        Lexeme).isUnterminated = false := isUnterminated_quoted.mpr (by simp)
    rwa [hclosed] at hterminated

theorem spells_name {first : Bool} {name : String} {c : Char} {cs : List Char} {kind : TokenKind}
    (hname : name.toList = c :: cs) (hkind : kind ≠ .string) (hc : isSeparator c = false)
    (hmunch : munch first c cs = (kind, cs, [])) : Spells first name.toList ⟨kind, name⟩ := by
  have hliteral : name = String.ofList (c :: cs) := by rw [← hname, String.ofList_toList]
  have hspells := spells_of_munch_of_ne hkind hc hmunch
  rwa [← hname, String.ofList_toList] at hspells

theorem spells_comparison (first : Bool) (comparison : Comparison) :
    Spells first comparison.name.toList ⟨.comparison comparison, comparison.name⟩ := by
  cases comparison <;> cases first <;> exact spells_name rfl (by simp) rfl rfl

theorem spells_punctuation (first : Bool) (mark : Punctuation) :
    Spells first [mark.char] ⟨.punctuation mark, String.singleton mark.char⟩ := by
  cases mark <;> cases first <;> exact spells_of_munch_of_ne (by simp) rfl rfl

theorem spells_command (command : Command) :
    Spells true command.name.toList ⟨.command command, command.name⟩ := by
  cases command <;> exact spells_name rfl (by simp) rfl rfl

/-- A string can be written if it lacks one of the two quotes. -/
def IsQuotable (literal : String) : Prop := '"' ∉ literal.toList ∨ '\'' ∉ literal.toList

/-- How a token is written. -/
def Token.source (token : Token) : List Char :=
  match token.kind with
  | .string =>
      let quote := if '"' ∈ token.literal.toList then '\'' else '"'
      quote :: (token.literal.toList ++ [quote])
  | _ => token.literal.toList

theorem IsQuotable.spells {literal : String} (h : IsQuotable literal) (first : Bool) :
    Spells first (Token.source ⟨.string, literal⟩) ⟨.string, literal⟩ := by
  simp only [Token.source]
  split
  · rename_i hdouble
    exact spells_string first (.inr rfl) (h.resolve_left fun hnot => hnot hdouble)
  · rename_i hdouble
    exact spells_string first (.inl rfl) hdouble

def line (tokens : List Token) : List Char := joinWith ' ' (tokens.map Token.source)

/-- What is written token by token is read token by token. -/
theorem tokensFrom_line {first : Bool} {token : Token} {tokens : List Token}
    (h : Spells first token.source token)
    (htokens : ∀ token ∈ tokens, Spells false token.source token) :
    tokensFrom first (line (token :: tokens)) = token :: tokens := by
  induction tokens generalizing first token with
  | nil => exact h.tokens
  | cons second tokens ih =>
      have hsecond := htokens second (List.mem_cons_self ..)
      have hrest := ih hsecond fun token hmem => htokens token (List.mem_cons_of_mem _ hmem)
      have hline : line (token :: second :: tokens) =
          token.source ++ ' ' :: line (second :: tokens) := rfl
      rw [hline, tokensFrom_append_separator rfl h.terminated, h.tokens, List.isEmpty_cons,
        Bool.and_false, hrest]
      rfl

/-- Every token of a text is the lexeme at the front of some part of it. -/
theorem exists_frontLexeme {first : Bool} {cs : List Char} {token : Token}
    (h : token ∈ tokensFrom first cs) :
    ∃ first c cs, isSeparator c = false ∧ token = (frontLexeme first 0 c cs).token := by
  obtain ⟨lexeme, hmem, rfl⟩ := List.mem_map.mp h
  obtain ⟨first, c, cs, hc, hlexeme⟩ := exists_eq_frontLexeme hmem
  exact ⟨first, c, cs, hc, by rw [hlexeme]; rfl⟩

theorem ofWord_eq_word_iff {word : List Char} :
    TokenKind.ofWord word = .word ↔ Keyword.ofWord? word = none := by
  unfold TokenKind.ofWord
  split <;> simp_all

theorem beginsWord_takeWhile {c : Char} {cs : List Char} (hc : isWordStart c = true)
    (hnumber : ¬(c = '-' ∧ cs.head?.any Char.isDigit = true)) :
    beginsWord (c :: cs.takeWhile isWordChar) = true := by
  have hhead : (cs.takeWhile isWordChar).head?.any Char.isDigit = true →
      cs.head?.any Char.isDigit = true := by
    cases cs with
    | nil => simp
    | cons d ds =>
        rw [List.takeWhile_cons]
        split <;> simp
  simp only [beginsWord, hc, Bool.true_and, Bool.not_eq_true', Bool.and_eq_false_imp, beq_iff_eq]
  intro hhyphen
  exact Bool.eq_false_iff.mpr fun hdigit => hnumber ⟨hhyphen, hhead hdigit⟩

theorem isField_of_mem_tokensFrom {first : Bool} {cs : List Char} {word : String}
    (h : ⟨.word, word⟩ ∈ tokensFrom first cs) : IsField word := by
  obtain ⟨first, c, cs, hc, htoken⟩ := exists_frontLexeme h
  have hmunched := munch_munched first c cs
  simp only [frontLexeme, Lexeme.token, Token.mk.injEq] at htoken
  generalize munch first c cs = found at htoken hmunched
  obtain ⟨hkind, hword⟩ := htoken
  cases hmunched with
  | command =>
      rcases ofCommand_eq (c :: cs.takeWhile isWordChar) with ⟨_, hcommand⟩ | hcommand <;> simp_all
  | string => cases hkind
  | number => rcases number_kind cs with hnumber | hnumber <;> simp_all
  | word hstart hnumber =>
      dsimp only at hkind hword
      rw [← hkind] at hword
      have hsource : word.toList = c :: cs.takeWhile isWordChar := by
        rw [hword]
        exact String.toList_ofList
      constructor
      · rw [hsource]
        exact beginsWord_takeWhile hstart hnumber
      · rw [hsource]
        intro d hd
        rcases List.mem_cons.mp hd with rfl | hd
        · simp [isWordChar, hstart]
        · exact List.mem_takeWhile_imp hd
      · rw [hsource]
        exact ofWord_eq_word_iff.mp hkind.symm
  | punctuation => cases hkind
  | comparison => rcases comparison_kind c cs with ⟨_, hsign⟩ | hsign <;> simp_all

theorem isField_of_tokens_eq {word : String}
    (h : tokens word.toList = [⟨.word, word⟩, Token.atEnd]) : IsField word := by
  have htokens : tokensFrom true word.toList = [⟨.word, word⟩] := by
    rw [tokens_eq] at h
    exact (List.append_inj' h rfl).1
  have hmem : ⟨.word, word⟩ ∈ tokensFrom true word.toList := by simp [htokens]
  exact isField_of_mem_tokensFrom hmem

theorem lexemesFrom_field {word : String} (h : IsField word) (first : Bool) (position : Nat) :
    lexemesFrom first position word.toList = [⟨.word, word.toList, position⟩] := by
  rw [lexemesFrom_word h.begins h.chars, ofWord_eq_word_iff.mpr h.not_keyword]

/-- A word ends where a separator follows it, or nothing. -/
theorem lexemesFrom_field_append {word : String} (h : IsField word) {rest : List Char}
    (hrest : ∀ c ∈ rest.head?, isSeparator c = true) (first : Bool) (position : Nat) :
    lexemesFrom first position (word.toList ++ rest) =
      ⟨.word, word.toList, position⟩ ::
        lexemesFrom false (position + byteLength word.toList) rest := by
  have hword := lexemesFrom_field h first position
  cases rest with
  | nil => rw [List.append_nil, hword, lexemesFrom_nil]
  | cons s rest =>
      rw [lexemesFrom_append (hrest s rfl) first position _ rest, hword, List.isEmpty_cons,
        Bool.and_false]
      · rfl
      · rw [hword]
        simp [Lexeme.isUnterminated]

/-- Whatever is read as a string lacks the quote that it stood in. -/
theorem isQuotable_of_mem_tokensFrom {first : Bool} {cs : List Char} {literal : String}
    (h : ⟨.string, literal⟩ ∈ tokensFrom first cs) : IsQuotable literal := by
  obtain ⟨first, c, cs, hc, htoken⟩ := exists_frontLexeme h
  simp only [frontLexeme, Lexeme.token, Token.mk.injEq] at htoken
  obtain ⟨hkind, hliteral⟩ := htoken
  have hquote := isQuote_of_munch_eq_string hkind.symm
  rw [← hkind] at hliteral
  have hmem : c ∉ literal.toList := by
    rw [hliteral]
    simp only [Lexeme.literal, String.toList_ofList]
    intro hmem
    simpa using List.mem_takeWhile_imp hmem
  rcases hquote with rfl | rfl
  · exact .inl hmem
  · exact .inr hmem

end DocShell.Query
