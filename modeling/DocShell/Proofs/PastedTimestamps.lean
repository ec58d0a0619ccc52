import DocShell.Proofs.Balance
import DocShell.Proofs.Slots
import DocShell.Query.Plan

namespace DocShell.Query

open DocShell.Json
open DocShell.Time

def FilterValue.timestamp? : FilterValue → Option Timestamp
  | timestamp value => some value
  | _ => none

theorem FilterValue.isArray_of_timestamp? {found : FilterValue} (h : found.timestamp?.isSome) :
    found.isArray = false := by
  cases found with
  | timestamp => rfl
  | _ => cases h

theorem FilterValue.eq_of_timestamp? {found : FilterValue} {t : Timestamp}
    (h : found.timestamp? = some t) : found = .timestamp t := by
  cases found with
  | timestamp => rw [Option.some.inj h]
  | _ => cases h

namespace Rule

def namedTimestamp : Rule Timestamp
  | [] => .error (.unexpectedToken .value .atEnd) []
  | token :: rest =>
      if isTimestampName token.literal then timestamp rest
      else .error (.invalidLiteral .filterValue token.literal) rest

theorem slot_timestamp : Slot .word value [] namedTimestamp FilterValue.timestamp? := by
  have htimestamp : Slot .word (FilterValue.timestamp <$> namedTimestamp) [] namedTimestamp
      FilterValue.timestamp? := (Slot.refl _ _).map fun _ _ h => h
  refine htimestamp.of_eq fun name back => ?_
  by_cases hname : isTimestampName name = true
  · simp [value, namedTimestamp, hname, Functor.map, EStateM.map]
  · simp [value, namedTimestamp, hname, Functor.map, EStateM.map]

end Rule

/-- The tokens of a timestamp that is read from a text. -/
def timestampCall (name raw : String) : List Token :=
  [⟨.word, name⟩, ⟨.punctuation .openParen, "("⟩, ⟨.string, raw⟩, ⟨.punctuation .closeParen, ")"⟩]

/-- A line in which a timestamp is written between two texts. -/
def withTimestamp (text printed rest : String) : String :=
  text ++ " TIMESTAMP(\"" ++ printed ++ "\") " ++ rest

theorem namedTimestamp_eq_ok {name raw : String} {t : Timestamp} (hname : isTimestampName name = true)
    (hraw : Timestamp.ofText? raw = some t) (back : List Token) :
    Rule.namedTimestamp (timestampCall name raw ++ back) = .ok t back := by
  refine (if_pos hname).trans ?_
  exact Rule.timestamp_eq_ok.mpr ⟨"(", raw, ")", hraw, rfl⟩

theorem munch_timestamp (rest : List Char) :
    munch false 'T' ("IMESTAMP".toList ++ '(' :: rest) =
      (.word, "IMESTAMP".toList, '(' :: rest) := by
  have htake := takeWhile_append_stop (rfl : isWordChar '(' = false) "IMESTAMP".toList rest
  have hdrop := dropWhile_append_stop (rfl : isWordChar '(' = false) "IMESTAMP".toList rest
  simp only [munch, htake, hdrop]
  rfl

theorem tokensFrom_timestampCall {printed : String} (h : '"' ∉ printed.toList) (rest : List Char) :
    tokensFrom false ("TIMESTAMP".toList ++ '(' :: '"' :: (printed.toList ++ '"' :: ')' :: rest)) =
      timestampCall "TIMESTAMP" printed ++ tokensFrom false rest := by
  have hname := munch_timestamp ('"' :: (printed.toList ++ '"' :: ')' :: rest))
  have hstring : munch false '"' (printed.toList ++ '"' :: ')' :: rest) =
      (.string, printed.toList ++ ['"'], ')' :: rest) := by
    rw [munch_quote (.inl rfl), quoted_of_closed h]
  have hopen : ∀ rest, munch false '(' rest = (.punctuation .openParen, [], rest) := fun _ => rfl
  have hclose : ∀ rest, munch false ')' rest = (.punctuation .closeParen, [], rest) := fun _ => rfl
  have hwhole : "TIMESTAMP".toList ++ '(' :: '"' :: (printed.toList ++ '"' :: ')' :: rest) =
      'T' :: ("IMESTAMP".toList ++ '(' :: '"' :: (printed.toList ++ '"' :: ')' :: rest)) := rfl
  rw [hwhole, tokensFrom_lexeme rfl, frontLexeme, hname, tokensFrom_lexeme rfl, frontLexeme, hopen,
    tokensFrom_lexeme rfl, frontLexeme, hstring, token_quoted h, tokensFrom_lexeme rfl, frontLexeme,
    hclose]
  rfl

theorem terminated_of_last {text : List Char} {token : Token}
    (hlast : (tokensFrom true text).getLast? = some token) (hkind : token.kind ≠ .string) :
    Terminated text := by
  intro lexeme hmem
  refine Bool.eq_false_iff.mpr fun hopen => ?_
  obtain ⟨front, last, hsplit, hleft⟩ := exists_isUnterminated_iff.mp ⟨lexeme, hmem, hopen⟩
  have hlexeme : last ∈ lexemes text := by simp [hsplit]
  have htoken : token = last.token := by
    have hmap := congrArg (List.map Lexeme.token) hsplit
    rw [List.map_append, List.map_singleton] at hmap
    rw [show tokensFrom true text = (lexemes text).map Lexeme.token from rfl, hmap,
      List.getLast?_concat] at hlast
    exact (Option.some.inj hlast).symm
  rw [htoken] at hkind
  exact hkind (Lexeme.kind_of_isUnterminated ((isUnterminated_iff_leftOpen hlexeme).mpr hleft))

theorem OperandFront.exists_last {operator : Operator} {index : Nat} {line : List Token}
    (h : OperandFront operator index line) :
    ∃ token, line.getLast? = some token ∧ token.kind ≠ .string := by
  cases h with
  | @mk line tokens filters field kind literal _ _ hkind =>
      refine ⟨⟨kind, literal⟩, by simp, ?_⟩
      cases hkind <;> simp

theorem OperandFront.terminated {operator : Operator} {index : Nat} {text : List Char}
    (h : OperandFront operator index (tokensFrom true text)) : Terminated text := by
  obtain ⟨token, hlast, hkind⟩ := h.exists_last
  exact terminated_of_last hlast hkind

theorem tokens_withTimestamp {operator : Operator} {index : Nat} {text printed : String}
    (hfront : OperandFront operator index (tokensFrom true text.toList))
    (h : '"' ∉ printed.toList) (rest : String) :
    tokens (withTimestamp text printed rest).toList = tokensFrom true text.toList ++
      (timestampCall "TIMESTAMP" printed ++ (tokensFrom false rest.toList ++ [Token.atEnd])) := by
  have hne : (tokensFrom true text.toList).isEmpty = false := by
    obtain ⟨token, hlast, -⟩ := hfront.exists_last
    refine List.isEmpty_eq_false_iff.mpr fun hnil => ?_
    simp [hnil] at hlast
  have hwhole : (withTimestamp text printed rest).toList = text.toList ++
      ' ' :: ("TIMESTAMP".toList ++ '(' :: '"' ::
        (printed.toList ++ '"' :: ')' :: ' ' :: rest.toList)) := by
    simp [withTimestamp]
  rw [tokens_eq, hwhole, tokensFrom_append_separator rfl hfront.terminated, hne, Bool.and_false,
    tokensFrom_timestampCall h, tokensFrom_separator rfl]
  simp

/-- The text of a timestamp in a plan is read as that timestamp, by itself and in a line: there is
a value for it, it is the value of the filter, and a line that has anything else from which the
timestamp is read has the same operation, or is refused for the same cause. -/
theorem parse_printed_timestamp {raw : String} {t : Timestamp} (hraw : Timestamp.ofText? raw = some t)
    (hyear : 0 ≤ t.year ∧ t.year ≤ 9999) :
    ∃ printed : String, (FilterValue.timestamp t).content = .string printed ∧
      Timestamp.ofText? printed = some t ∧
      ∀ {operator index} {text : String},
        OperandFront operator index (tokensFrom true text.toList) →
        (operator.takesArray = false →
          ∃ operation, parse (withTimestamp text printed "") = .ok operation) ∧
        ∀ rest,
          (∀ operation, parse (withTimestamp text printed rest) = .ok operation →
            operation.filters[index]?.map Filter.value = some (.timestamp t)) ∧
          ∀ (line : String) name, isTimestampName name = true →
            tokens line.toList = tokensFrom true text.toList ++
              (timestampCall name raw ++ (tokensFrom false rest.toList ++ [Token.atEnd])) →
            parse (withTimestamp text printed rest) = parse line := by
  have hwell := Timestamp.wellFormed_of_ofText? hraw
  have hliteral : t.literal = t.text := if_pos hyear
  have hquote : '"' ∉ (String.ofList t.text).toList := by
    rw [String.toList_ofList, ← hliteral]
    exact t.quote_not_mem_literal
  have hread : Timestamp.ofText? (String.ofList t.text) = some t := by
    rw [← hliteral]
    exact hwell.ofText?_literal
  refine ⟨String.ofList t.text, rfl, hread, fun {operator index text} hfront => ?_⟩
  have hslot := hfront.slot Rule.slot_timestamp fun found found' h h' =>
    (FilterValue.isArray_of_timestamp? h).trans (FilterValue.isArray_of_timestamp? h').symm
  rw [List.append_nil] at hslot
  have hname : isTimestampName "TIMESTAMP" = true := by decide
  have hline := tokens_withTimestamp hfront hquote
  refine ⟨fun hfit => ?_, fun rest => ⟨fun operation hparse => ?_, fun line name hname' hold => ?_⟩⟩
  · obtain ⟨operation, hphrase⟩ := hfront.exists_operation (.timestamp hname hread) hfit
    refine ⟨operation, (parse_eq_ok_iff _ operation).mpr ?_⟩
    rw [hline, ← List.append_assoc, ← List.append_assoc, List.dropLast_concat]
    simpa [timestampCall, tokensFrom, lexemesFrom_nil] using hphrase
  · rw [parse_eq_wholeLine, hline] at hparse
    have hvalue := hslot.accepted (namedTimestamp_eq_ok hname hread _)
      (Rule.run_of_outcome_eq_ok hparse)
    obtain ⟨filter, hfilter, hfound⟩ := Option.bind_eq_some_iff.mp hvalue
    rw [hfilter, Option.map_some, FilterValue.eq_of_timestamp? hfound]
  · have hsame := hslot.run_congr ((namedTimestamp_eq_ok hname hread _).trans
      (namedTimestamp_eq_ok hname' hraw (tokensFrom false rest.toList ++ [Token.atEnd])).symm)
    rw [parse_eq_wholeLine, parse_eq_wholeLine, hline, hold]
    exact Rule.outcome_congr hsame

/-- A leap second with more digits than are kept, on a leap day and west of UTC. -/
theorem parse_printed_timestamp_leap : ∃ operation,
    parse (withTimestamp "COUNT a WHERE b >=" "2024-02-29T23:59:60.123456789-05:30" "") =
        .ok operation ∧
      operation.filters[0]?.map Filter.value =
        some (.timestamp ⟨2024, 2, 29, 23, 59, 60, 123456789, -330⟩) := by
  have hraw : Timestamp.ofText? "2024-02-29t23:59:60.12345678999\u221205:30" =
      some ⟨2024, 2, 29, 23, 59, 60, 123456789, -330⟩ := by decide +kernel
  have hclause : ClauseFront .filter [⟨.keyword .count, "COUNT"⟩, ⟨.word, "a"⟩,
      ⟨.keyword .whereWord, "WHERE"⟩] :=
    @ClauseFront.mk _ .count "COUNT" "a" [] [] "WHERE" (by decide) (by decide) .nil (by decide)
  have hfront : OperandFront (.compare .greaterOrEqual) 0
      (tokensFrom true "COUNT a WHERE b >=".toList) := by
    have htokens : tokensFrom true "COUNT a WHERE b >=".toList =
        [⟨.keyword .count, "COUNT"⟩, ⟨.word, "a"⟩, ⟨.keyword .whereWord, "WHERE"⟩, ⟨.word, "b"⟩,
          ⟨.comparison .greaterOrEqual, ">="⟩] := by decide +kernel
    rw [htokens]
    exact .mk hclause .nil .compare
  obtain ⟨printed, hprinted, -, hparse⟩ := parse_printed_timestamp hraw (by decide)
  obtain ⟨haccepted, hline⟩ := hparse hfront
  have htext : "2024-02-29T23:59:60.123456789-05:30" = printed := by
    refine Eq.trans ?_ (Json.string.inj hprinted)
    decide +kernel
  subst htext
  obtain ⟨operation, hoperation⟩ := haccepted rfl
  exact ⟨operation, hoperation, (hline "").1 operation hoperation⟩

end DocShell.Query
