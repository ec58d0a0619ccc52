import DocShell.Proofs.BytePrefix
import DocShell.Proofs.Relocation
import DocShell.Proofs.Replacement

namespace DocShell.Completion

open DocShell.Query
open DocShell.Text.Ascii
open DocShell.Text.Bytes

/-- A word ends in front of a separator, so no word ends where the text does. -/
theorem past_lexemes {text : List Char} (hend : EndsSeparated text) :
    Context.Past (byteLength text) (lexemes text) := by
  intro lexeme hmem hword hstop
  obtain ⟨hne, front, htext, -⟩ := exists_append_source hmem hstop
  have hfield : IsField lexeme.literal := by
    have htoken : (⟨.word, lexeme.literal⟩ : Token) = lexeme.token := by rw [← hword]; rfl
    refine isField_of_mem_tokensFrom (?_ : _ ∈ tokensFrom true text)
    rw [htoken]
    exact List.mem_map_of_mem hmem
  obtain ⟨init, s, rfl, hs⟩ := hend.exists_append
  rcases List.eq_nil_or_concat lexeme.source with hnil | ⟨chars, last, hsource⟩
  · exact hne hnil
  · rw [hsource, List.concat_eq_append, ← List.append_assoc] at htext
    obtain ⟨-, hlast⟩ := List.append_inj' htext rfl
    obtain rfl : s = last := List.singleton_inj.mp hlast
    have hchar := hfield.chars s (by rw [Lexeme.literal_of_word hword, hsource]; simp)
    rw [not_isWordChar_of_isSeparator hs] at hchar
    cases hchar

section Word

variable {word : String} (hword : IsField word)

include hword

theorem ofText_append_word {text : List Char} (hend : EndsSeparated text) :
    Context.ofText text = .nothing ∨ ∃ all, Context.ofText text = .words all "" ∧
      Context.ofText (text ++ word.toList) = .words all word := by
  have hstop : (⟨.word, word.toList, byteLength text⟩ : Lexeme).stop =
      byteLength (text ++ word.toList) := (byteLength_append _ _).symm
  rcases Context.ofLexemes_append_word rfl hstop (past_lexemes hend) with
    hnothing | ⟨hterminated, all, hwords, hlonger⟩
  · exact .inl hnothing
  · refine .inr ⟨all, hwords, ?_⟩
    rw [Context.ofText, lexemes_append hend hterminated, lexemesFrom_field hword, hlonger]
    exact congrArg _ String.ofList_toList

theorem suggest_append_word (names : String → List String) {text : List Char}
    (hend : EndsSeparated text) (hsome : suggest names text ≠ []) :
    suggest names (text ++ word.toList) =
      (suggest names text).filter fun offer => startsWith offer.text.toList word.toList := by
  rcases ofText_append_word hword hend with hnothing | ⟨all, hwords, hlonger⟩
  · exact absurd (suggest_of_words hnothing) hsome
  · rw [suggest_of_words hwords, suggest, hlonger]
    rfl

theorem suggest_first_word (names : String → List String) {gap : List Char}
    (hgap : ∀ c ∈ gap, isSeparator c = true) :
    suggest names (gap ++ word.toList) =
      (Request.all.map Request.offer).filter fun offer =>
        startsWith offer.text.toList word.toList := by
  have hlexemes : lexemes (gap ++ word.toList) = [⟨.word, word.toList, byteLength gap⟩] := by
    refine (lexemesFrom_gap hgap true 0 word.toList).trans ?_
    rw [lexemesFrom_field hword, Nat.zero_add]
  have hopen : Context.openWord? (byteLength (gap ++ word.toList))
      [⟨.word, word.toList, byteLength gap⟩] = some ⟨.word, word.toList, byteLength gap⟩ :=
    Context.openWord?_word rfl (byteLength_append _ _).symm
  have hcontext : Context.ofText (gap ++ word.toList) =
      .words (Request.all.map Request.offer) word := by
    rw [Context.ofText, hlexemes]
    unfold Context.ofLexemes
    rw [hopen]
    exact congrArg _ String.ofList_toList
  rw [suggest, hcontext]
  rfl

end Word

/-- Typing a word narrows the menu: behind a separator, where something is offered, the suggestions
for a word are those in front of it that begin with the word, in their order, and for a longer word
a part of them. For the first word they are the requests that begin with it. -/
theorem suggest_narrows (names : String → List String) {word : String}
    (hword : tokens word.toList = [⟨.word, word⟩, Token.atEnd]) :
    (∀ text, EndsSeparated text → suggest names text ≠ [] →
      suggest names (text ++ word.toList) = (suggest names text).filter (fun offer =>
        (lower word.toList).isPrefixOf (lower offer.text.toList)) ∧
      ∀ longer : String, word.toList <+: longer.toList →
        tokens longer.toList = [⟨.word, longer⟩, Token.atEnd] →
        (suggest names (text ++ longer.toList)).Sublist (suggest names (text ++ word.toList))) ∧
    ∀ gap : List Char, (∀ c ∈ gap, isSeparator c = true) →
      suggest names (gap ++ word.toList) = (Request.all.map Request.offer).filter (fun offer =>
        (lower word.toList).isPrefixOf (lower offer.text.toList)) := by
  have hfield := isField_of_tokens_eq hword
  have hstarts : ∀ (typed : String) (offer : Offer), startsWith offer.text.toList typed.toList =
      (lower typed.toList).isPrefixOf (lower offer.text.toList) := fun typed offer => by
    rw [Bool.eq_iff_iff, startsWith_iff_lower, List.isPrefixOf_iff_prefix]
  refine ⟨fun text hend hsome => ?_, fun gap hgap => ?_⟩
  · have hnarrow := suggest_append_word hfield names hend hsome
    simp only [hstarts] at hnarrow
    refine ⟨hnarrow, fun longer hlonger htokens => ?_⟩
    have hnarrower := suggest_append_word (isField_of_tokens_eq htokens) names hend hsome
    simp only [hstarts] at hnarrower
    rw [hnarrow, hnarrower]
    refine List.monotone_filter_right _ fun offer hoffer => ?_
    rw [List.isPrefixOf_iff_prefix] at hoffer ⊢
    exact (hlonger.map Char.toLower).trans hoffer
  · have hfirst := suggest_first_word hfield names hgap
    simp only [hstarts] at hfirst
    exact hfirst

/-- Of the directions and the clauses behind an order, one begins with a D. -/
theorem suggest_narrows_direction :
    tokens "d".toList = [⟨.word, "d"⟩, Token.atEnd] ∧
      suggest (fun _ => []) "QUERY users ORDER BY age\t".toList =
        [ascOffer, descOffer, Clause.limit.offer] ∧
      suggest (fun _ => []) ("QUERY users ORDER BY age\t".toList ++ "d".toList) = [descOffer] ∧
      (suggest (fun _ => []) ("QUERY users ORDER BY age\t".toList ++ "di".toList)).Sublist
        [descOffer] := by
  have hword : tokens "d".toList = [⟨.word, "d"⟩, Token.atEnd] := by decide +kernel
  have hall : suggest (fun _ => []) "QUERY users ORDER BY age\t".toList =
      [ascOffer, descOffer, Clause.limit.offer] := by decide +kernel
  have hend : EndsSeparated "QUERY users ORDER BY age\t".toList := by
    unfold EndsSeparated
    decide
  obtain ⟨hnarrow, hlonger⟩ := (suggest_narrows (fun _ => []) hword).1 _ hend
    (hall ▸ List.cons_ne_nil _ _)
  have hone : suggest (fun _ => []) ("QUERY users ORDER BY age\t".toList ++ "d".toList) =
      [descOffer] := by
    rw [hnarrow, hall]
    decide
  refine ⟨hword, hall, hone, ?_⟩
  rw [← hone]
  exact hlonger "di" (by decide) (by decide +kernel)

end DocShell.Completion
