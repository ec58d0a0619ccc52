import DocShell.Proofs.LastWord
import DocShell.Proofs.PathSegments

namespace DocShell.Query

open DocShell.Text.Bytes

theorem Lexeme.literal_of_word {lexeme : Lexeme} (h : lexeme.kind = .word) :
    lexeme.literal.toList = lexeme.source :=
  literal_of_ne_string (by simp [h])

end DocShell.Query

namespace DocShell.Completion

open DocShell.Query
open DocShell.Text.Ascii
open DocShell.Text.Bytes
open DocShell.Text.Segments

/-- A partial path is the document before it, if it has one, and the part that was typed. -/
theorem normalize_of_splitPartial? {typed base last : String}
    (h : splitPartial? typed = some (base, last)) :
    Path.normalize typed = if base = "" then last else base ++ "/" ++ last := by
  unfold splitPartial? at h
  dsimp only at h
  split at h
  · rename_i last' parents hreverse
    split at h
    · cases h
    · rename_i hodd
      cases h
      rw [Path.not_isDocument_iff] at hodd
      have hsegments : Path.segments (Path.normalize typed) = parents.reverse ++ [last] := by
        rw [← List.reverse_reverse (Path.segments (Path.normalize typed)), hreverse]
        simp
      rw [← Path.ofSegments_segments (Path.normalize typed), hsegments]
      rcases parents with _ | ⟨parent, _ | ⟨grandparent, parents⟩⟩
      · simp [Path.ofSegments, joinWith]
      · simp [hsegments] at hodd
      · rw [Path.ofSegments_append_singleton (by simp), if_neg]
        rw [List.reverse_cons, Path.ofSegments_append_singleton (by simp)]
        simp
  · cases h

namespace Context

variable {names : List String} {offer : Offer} {typed : String}

theorem startsWith_of_mem_suggestions (h : offer ∈ (collection typed).suggestions names) :
    startsWith offer.text.toList (Path.normalize typed).toList = true := by
  unfold suggestions at h
  dsimp only at h
  split at h
  · cases h
  · rename_i base last hpartial
    obtain ⟨name, hname, rfl⟩ := List.mem_map.mp h
    have hstarts := (Names.mem_matching.mp hname).2
    rw [normalize_of_splitPartial? hpartial]
    split
    · exact hstarts
    · simp only [String.toList_append]
      exact startsWith_append _ hstarts

theorem startsWith_of_mem_replacements (h : offer ∈ (collection typed).replacements names) :
    startsWith offer.text.toList typed.toList = true := by
  unfold replacements at h
  dsimp only at h
  rcases Path.normalize_cases typed with ⟨hhead, htyped⟩ | ⟨hhead, htyped⟩
  · rw [if_pos hhead] at h
    obtain ⟨bare, hbare, rfl⟩ := List.mem_map.mp h
    rw [htyped, String.toList_append]
    exact startsWith_append ['/'] (startsWith_of_mem_suggestions hbare)
  · rw [if_neg hhead] at h
    have hstarts := startsWith_of_mem_suggestions h
    rwa [htyped] at hstarts

/-- No word that is begun goes on to two words with different first letters. -/
theorem not_startsWith_both {c d : Char} {cs ds word : List Char} (hne : c.toLower ≠ d.toLower)
    (hword : word ≠ []) (hc : startsWith (c :: cs) word = true)
    (hd : startsWith (d :: ds) word = true) : False := by
  cases word with
  | nil => exact hword rfl
  | cons e es => exact hne ((toLower_eq_of_startsWith hc).trans (toLower_eq_of_startsWith hd).symm)

theorem AtWord.extends_iff {front : List Lexeme} {word : String} {context : Context}
    (h : AtWord front word context) (hword : word.toList ≠ []) :
    (∀ offer ∈ context.replacements names, startsWith offer.text.toList word.toList = true) ↔
      context.replacements names = [] ∨ ¬Lists front := by
  cases h with
  | nothing =>
      have hnone : Context.nothing.replacements names = [] := rfl
      simp [hnone]
  | words hlists =>
      refine iff_of_true (fun offer hoffer => ?_) (.inr hlists)
      exact (List.mem_filter.mp hoffer).2
  | collection hlists =>
      exact iff_of_true (fun offer hoffer => startsWith_of_mem_replacements hoffer) (.inr hlists)
  | @field offers hlists hlimit hother =>
      have hall : (Context.words offers "").replacements names = offers := by
        simp only [replacements, suggestions, List.filter_eq_self]
        exact fun offer _ => startsWith_nil _
      rw [hall]
      refine iff_of_false (fun hstarts => ?_) ?_
      · have hl := hstarts _ hlimit
        rcases hother with hother | hother
        · exact not_startsWith_both (c := 'L') (d := 'W') (by decide) hword hl (hstarts _ hother)
        · exact not_startsWith_both (c := 'L') (d := 'A') (by decide) hword hl (hstarts _ hother)
      · rintro (hnil | hnot)
        · rw [hnil] at hlimit
          cases hlimit
        · exact hnot hlists

end Context

/-- The text ends in a word that is a field of a list: in front of it there is `SELECT`, `BY` or a
comma. -/
def EndsInField (text : List Char) : Prop :=
  ∃ front word, lexemes text = front ++ [word] ∧ Lists front ∧ word.kind = .word ∧
    word.stop = byteLength text

/-- The suggestions at a position go on from the text that they replace, up to the case of the
letters A to Z. -/
def Extends (names : String → List String) (line : List Char) (position : Nat) : Prop :=
  (complete names line position).1 ≤ position ∧
    ∃ typed, slice? line (complete names line position).1 position = some typed ∧
      ∀ offer ∈ (complete names line position).2, startsWith offer.text.toList typed = true

section Line

variable {line : List Char} {position : Nat}

theorem extends_of_not_word (names : String → List String) (h : position ∈ boundaries line)
    (hword : ∀ front word, lexemes (upTo line position) = front ++ [word] →
      ¬(word.kind = .word ∧ word.stop = byteLength (upTo line position))) :
    Extends names line position := by
  obtain ⟨hlength, back, hback⟩ := exists_upTo_append h
  have hstart : (complete names line position).1 = position := by
    show replacedFrom (upTo line position) = position
    unfold replacedFrom
    dsimp only
    split
    · rename_i word hlast
      obtain ⟨front, hfront⟩ := List.getLast?_eq_some_iff.mp hlast
      rw [if_neg (hword front word hfront), hlength]
    · exact hlength
  have hslice : slice? line position position = some [] := by
    have hcut := slice?_append (upTo line position) [] back
    rw [List.append_nil, ← hback, hlength] at hcut
    exact hcut
  refine ⟨Nat.le_of_eq hstart, [], ?_, fun offer _ => startsWith_nil _⟩
  rw [hstart]
  exact hslice

theorem slice?_of_word (names : String → List String) (h : position ∈ boundaries line)
    {front : List Lexeme} {word : Lexeme} (hlexemes : lexemes (upTo line position) = front ++ [word])
    (hword : word.kind = .word) (hstop : word.stop = byteLength (upTo line position)) :
    word.source ≠ [] ∧ (complete names line position).1 ≤ position ∧
      slice? line (complete names line position).1 position = some word.source := by
  obtain ⟨hlength, back, hback⟩ := exists_upTo_append h
  have hstart : (complete names line position).1 = word.start := by
    show replacedFrom (upTo line position) = word.start
    rw [replacedFrom, hlexemes, List.getLast?_concat]
    exact if_pos ⟨hword, hstop⟩
  have hmem : word ∈ lexemes (upTo line position) := by simp [hlexemes]
  obtain ⟨hne, before, htext, hbefore⟩ := exists_append_source hmem hstop
  rw [hstart, hbefore]
  refine ⟨hne, ?_, ?_⟩
  · rw [← hlength, htext, byteLength_append]
    exact Nat.le_add_right _ _
  · have hcut := slice?_append before word.source back
    rwa [← htext, ← hback, hlength] at hcut

/-- No suggestion replaces text behind the cursor, and all go on from what they replace, unless
there are some behind a finished field: that field is then replaced by what could follow it. -/
theorem complete_extends_iff (names : String → List String) (h : position ∈ boundaries line) :
    (complete names line position).1 ≤ position ∧
      (Extends names line position ↔
        (complete names line position).2 = [] ∨ ¬EndsInField (upTo line position)) := by
  by_cases hopen : ∃ front word, lexemes (upTo line position) = front ++ [word] ∧
      word.kind = .word ∧ word.stop = byteLength (upTo line position)
  · obtain ⟨front, word, hlexemes, hword, hstop⟩ := hopen
    obtain ⟨hne, hle, hslice⟩ := slice?_of_word names h hlexemes hword hstop
    have hfield : EndsInField (upTo line position) ↔ Lists front := by
      constructor
      · rintro ⟨front', word', hlexemes', hlists, -⟩
        rw [hlexemes] at hlexemes'
        rwa [(List.append_inj' hlexemes' rfl).1]
      · exact fun hlists => ⟨front, word, hlexemes, hlists, hword, hstop⟩
    have hcontext := Context.ofLexemes_atWord hword hstop front
    rw [← hlexemes] at hcontext
    rw [← Lexeme.literal_of_word hword] at hne hslice
    rw [hfield]
    refine ⟨hle, Iff.trans ?_ (hcontext.extends_iff hne)⟩
    constructor
    · rintro ⟨-, typed, htyped, hoffers⟩
      cases htyped.symm.trans hslice
      exact hoffers
    · exact fun hoffers => ⟨hle, _, hslice, hoffers⟩
  · have hfield : ¬EndsInField (upTo line position) := by
      rintro ⟨front, word, hlexemes, -, hword, hstop⟩
      exact hopen ⟨front, word, hlexemes, hword, hstop⟩
    have hextends := extends_of_not_word names h fun front word hlexemes hword =>
      hopen ⟨front, word, hlexemes, hword⟩
    exact ⟨hextends.1, iff_of_true hextends (.inr hfield)⟩

/-- The word in front of the cursor is gone on from, whatever stands behind the cursor. -/
theorem complete_extends_request :
    2 ∈ boundaries "QU users".toList ∧ Extends (fun _ => []) "QU users".toList 2 := by
  have hboundary : 2 ∈ boundaries "QU users".toList := by decide
  have hlexemes : lexemes (upTo "QU users".toList 2) = [⟨.word, ['Q', 'U'], 0⟩] := by
    decide +kernel
  refine ⟨hboundary, (complete_extends_iff _ hboundary).2.mpr (.inr ?_)⟩
  rintro ⟨front, word, hfront, hlists, -⟩
  rw [hlexemes] at hfront
  cases front with
  | nil => exact not_lists_nil hlists
  | cons lexeme front => simp at hfront

/-- The field of a selection is overwritten by each of the clauses that could follow it. -/
theorem not_extends_behind_select :
    23 ∈ boundaries "QUERY users SELECT name".toList ∧
      complete (fun _ => []) "QUERY users SELECT name".toList 23 =
        (19, [Clause.filter.offer, Clause.order.offer, Clause.limit.offer]) ∧
      ¬Extends (fun _ => []) "QUERY users SELECT name".toList 23 := by
  have hcomplete : complete (fun _ => []) "QUERY users SELECT name".toList 23 =
      (19, [Clause.filter.offer, Clause.order.offer, Clause.limit.offer]) := by decide +kernel
  have hslice : slice? "QUERY users SELECT name".toList 19 23 = some "name".toList := by
    decide +kernel
  refine ⟨by decide, hcomplete, ?_⟩
  rintro ⟨-, typed, htyped, hoffers⟩
  rw [hcomplete] at htyped hoffers
  cases htyped.symm.trans hslice
  have hstarts := hoffers Clause.limit.offer (by simp)
  exact absurd hstarts (by decide)

end Line

end DocShell.Completion
