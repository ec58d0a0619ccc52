import DocShell.Proofs.Walk
import Mathlib.Data.List.Forall2

namespace DocShell.Completion

open DocShell.Query

variable {α β : Type}

/-- Lexemes between which the completer sees no difference, with the cursor in the text of each. -/
structure Alike (cursor cursor' : Nat) (lexeme lexeme' : Lexeme) : Prop where
  kind : lexeme'.kind = lexeme.kind
  isUnterminated : lexeme'.isUnterminated = lexeme.isUnterminated
  literal : lexeme.kind = .word → lexeme'.literal = lexeme.literal
  stop : lexeme.kind = .word → (lexeme'.stop = cursor' ↔ lexeme.stop = cursor)

variable {cursor cursor' : Nat}

namespace Skip

/-- A skip that passes over as much, to the same value, of lexemes that look alike. -/
def Blind (cursor cursor' : Nat) (skip : Skip α) : Prop :=
  ∀ ahead ahead', List.Forall₂ (Alike cursor cursor') ahead ahead' →
    skip ahead = none ∧ skip ahead' = none ∨
      ∃ value rest rest', skip ahead = some (value, rest) ∧ skip ahead' = some (value, rest') ∧
        List.Forall₂ (Alike cursor cursor') rest rest'

theorem blind_pure (value : α) : Blind cursor cursor' (pure value : Skip α) :=
  fun _ _ h => .inr ⟨value, _, _, rfl, rfl, h⟩

theorem Blind.bind {skip : Skip α} {next : α → Skip β} (h : Blind cursor cursor' skip)
    (hnext : ∀ value, Blind cursor cursor' (next value)) :
    Blind cursor cursor' (skip >>= next) := by
  intro ahead ahead' halike
  rw [bind_apply, bind_apply]
  rcases h _ _ halike with ⟨hnone, hnone'⟩ | ⟨value, rest, rest', hsome, hsome', hrest⟩
  · rw [hnone, hnone']
    exact .inl ⟨rfl, rfl⟩
  · rw [hsome, hsome']
    exact hnext value _ _ hrest

theorem blind_one {p : Lexeme → Bool}
    (hp : ∀ {lexeme lexeme'}, Alike cursor cursor' lexeme lexeme' → p lexeme' = p lexeme) :
    Blind cursor cursor' (one p) := by
  intro ahead ahead' halike
  cases halike with
  | nil => exact .inl ⟨rfl, rfl⟩
  | @cons lexeme lexeme' rest rest' hlexeme hrest =>
      rw [one, one, hp hlexeme]
      split
      · exact .inr ⟨(), rest, rest', rfl, rfl, hrest⟩
      · exact .inl ⟨rfl, rfl⟩

theorem blind_kind (kind : TokenKind) : Blind cursor cursor' (Skip.kind kind) :=
  blind_one fun h => by rw [h.kind]

theorem blind_optional (kind : TokenKind) : Blind cursor cursor' (optional kind) := by
  intro ahead ahead' halike
  cases halike with
  | nil => exact .inr ⟨false, [], [], rfl, rfl, .nil⟩
  | @cons lexeme lexeme' rest rest' hlexeme hrest =>
      rw [optional, optional, hlexeme.kind]
      split
      · exact .inr ⟨true, rest, rest', rfl, rfl, hrest⟩
      · exact .inr ⟨false, _, _, rfl, rfl, .cons hlexeme hrest⟩

theorem separated_eq (item : Skip α) (hitem : Advances item) (separator : TokenKind)
    (ahead : List Lexeme) :
    separated item hitem separator ahead =
      match item ahead with
      | none => none
      | some (value, []) => some (value, [])
      | some (value, lexeme :: rest) =>
          if lexeme.kind = separator then separated item hitem separator rest
          else some (value, lexeme :: rest) := by
  rcases hrun : item ahead with _ | ⟨value, _ | ⟨lexeme, rest⟩⟩
  · rw [separated, hrun]
  · rw [separated, hrun]
  · rw [separated, hrun]

theorem Blind.separated {item : Skip α} {hitem : Advances item} {separator : TokenKind}
    (h : Blind cursor cursor' item) : Blind cursor cursor' (separated item hitem separator) := by
  intro ahead
  -- The items are counted off by the lexemes that are left, which are as many on both sides.
  induction hlength : ahead.length using Nat.strongRecOn generalizing ahead with
  | ind length ih =>
      intro ahead' halike
      rw [separated_eq item hitem separator ahead, separated_eq item hitem separator ahead']
      rcases h _ _ halike with ⟨hnone, hnone'⟩ | ⟨value, rest, rest', hsome, hsome', hrest⟩
      · rw [hnone, hnone']
        exact .inl ⟨rfl, rfl⟩
      · rw [hsome, hsome']
        cases hrest with
        | nil => exact .inr ⟨value, [], [], rfl, rfl, .nil⟩
        | @cons lexeme lexeme' tail tail' hlexeme htail =>
            dsimp only
            rw [hlexeme.kind]
            split
            · have hshorter := hitem _ _ _ hsome
              rw [List.length_cons] at hshorter
              exact ih tail.length (by omega) tail rfl tail' htail
            · exact .inr ⟨value, _, _, rfl, rfl, .cons hlexeme htail⟩

theorem blind_scalar : Blind cursor cursor' scalar :=
  blind_one fun h => by rw [h.kind, h.isUnterminated]

theorem blind_array : Blind cursor cursor' array := by
  refine (blind_optional _).bind fun closed => ?_
  split
  · exact blind_pure _
  · exact blind_scalar.separated.bind fun _ => blind_kind _

theorem blind_timestamp : Blind cursor cursor' timestamp :=
  (blind_kind _).bind fun _ =>
    (blind_one fun h => by rw [h.kind, h.isUnterminated]).bind fun _ => blind_kind _

theorem blind_value : Blind cursor cursor' value := by
  intro ahead ahead' halike
  cases halike with
  | nil => exact .inl ⟨rfl, rfl⟩
  | @cons lexeme lexeme' rest rest' hlexeme hrest =>
      unfold value
      dsimp only
      rw [hlexeme.kind]
      split
      · exact blind_array _ _ hrest
      · rename_i hword
        rw [hlexeme.literal hword]
        split
        · exact blind_timestamp _ _ hrest
        · exact .inl ⟨rfl, rfl⟩
      · exact blind_scalar _ _ (.cons hlexeme hrest)

theorem blind_filter : Blind cursor cursor' filter :=
  (blind_kind _).bind fun _ => (blind_one fun h => by rw [h.kind]).bind fun _ => blind_value

theorem blind_ordering : Blind cursor cursor' ordering := by
  refine (blind_kind _).bind fun _ => (blind_optional _).bind fun ascending => ?_
  split
  · exact blind_pure _
  · exact blind_optional _

theorem blind_orderings : Blind cursor cursor' (do
    Skip.kind (.keyword .byWord)
    separated ordering ordering_advances (.punctuation .comma) : Skip Bool) :=
  (blind_kind _).bind fun _ => blind_ordering.separated

end Skip

namespace Context

variable {ahead ahead' : List Lexeme}

theorem clauses_of_open {word : Lexeme} (h : openWord? cursor ahead = some word)
    (offers : List Offer) (later : List Clause) :
    clauses cursor offers later ahead =
      words (offers ++ later.map Clause.offer) word.literal := by
  cases ahead with
  | nil => cases h
  | cons lexeme rest => rw [clauses.eq_def, h]

theorem openWord?_alike (h : List.Forall₂ (Alike cursor cursor') ahead ahead') :
    openWord? cursor ahead = none ∧ openWord? cursor' ahead' = none ∨
      ∃ word word', openWord? cursor ahead = some word ∧ openWord? cursor' ahead' = some word' ∧
        word'.literal = word.literal := by
  cases h with
  | nil => exact .inl ⟨rfl, rfl⟩
  | @cons lexeme lexeme' rest rest' hlexeme hrest =>
      cases hrest with
      | cons _ _ => exact .inl ⟨rfl, rfl⟩
      | nil =>
          by_cases hopen : lexeme.kind = .word ∧ lexeme.stop = cursor
          · have hopen' : lexeme'.kind = .word ∧ lexeme'.stop = cursor' :=
              ⟨hlexeme.kind.trans hopen.1, (hlexeme.stop hopen.1).mpr hopen.2⟩
            exact .inr ⟨_, _, if_pos hopen, if_pos hopen', hlexeme.literal hopen.1⟩
          · have hopen' : ¬(lexeme'.kind = .word ∧ lexeme'.stop = cursor') := by
              rintro ⟨hword, hstop⟩
              rw [hlexeme.kind] at hword
              exact hopen ⟨hword, (hlexeme.stop hword).mp hstop⟩
            exact .inl ⟨if_neg hopen, if_neg hopen'⟩

/-- What a clause is walked over to, or why it is not, is the same. -/
def ClauseAlike (cursor cursor' : Nat) (found found' : Except Context (List Offer × List Lexeme)) :
    Prop :=
  (∃ context, found = .error context ∧ found' = .error context) ∨
    ∃ offers rest rest', found = .ok (offers, rest) ∧ found' = .ok (offers, rest') ∧
      List.Forall₂ (Alike cursor cursor') rest rest'

theorem finish_alike {skip : Skip α} (h : Skip.Blind cursor cursor' skip) (offers : α → List Offer)
    (halike : List.Forall₂ (Alike cursor cursor') ahead ahead') :
    ClauseAlike cursor cursor' (clause.finish offers (skip ahead))
      (clause.finish offers (skip ahead')) := by
  rcases h _ _ halike with ⟨hnone, hnone'⟩ | ⟨value, rest, rest', hsome, hsome', hrest⟩
  · rw [hnone, hnone']
    exact .inl ⟨nothing, rfl, rfl⟩
  · rw [hsome, hsome']
    exact .inr ⟨offers value, rest, rest', rfl, rfl, hrest⟩

theorem clause_alike (opened : Clause)
    (halike : List.Forall₂ (Alike cursor cursor') ahead ahead') :
    ClauseAlike cursor cursor' (clause cursor opened ahead) (clause cursor' opened ahead') := by
  unfold clause
  cases opened with
  | select => exact finish_alike (Skip.blind_kind _).separated _ halike
  | filter => exact finish_alike Skip.blind_filter.separated _ halike
  | limit => exact finish_alike (Skip.blind_kind _) _ halike
  | order =>
      have hopen := openWord?_alike halike
      cases halike with
      | nil => exact .inl ⟨_, rfl, rfl⟩
      | cons hlexeme hrest =>
          rcases hopen with ⟨hnone, hnone'⟩ | ⟨word, word', hsome, hsome', hliteral⟩
          · rw [hnone, hnone']
            exact finish_alike Skip.blind_orderings _ (.cons hlexeme hrest)
          · rw [hsome, hsome']
            exact .inl ⟨words [byOffer] word.literal, rfl, by dsimp only; rw [hliteral]⟩

/-- A clause that is walked over takes those in front of it from the ones that may still come. -/
theorem clauses_alike (offers : List Offer) (later : List Clause)
    (halike : List.Forall₂ (Alike cursor cursor') ahead ahead') :
    clauses cursor' offers later ahead' = clauses cursor offers later ahead := by
  induction hlength : later.length using Nat.strongRecOn
    generalizing offers later ahead ahead' with
  | ind length ih =>
      have hopen := openWord?_alike halike
      cases halike with
      | nil => rw [clauses_nil, clauses_nil]
      | @cons lexeme lexeme' rest rest' hlexeme hrest =>
          rcases hopen with ⟨hnone, hnone'⟩ | ⟨word, word', hsome, hsome', hliteral⟩
          · rw [clauses_of_not_open hnone, clauses_of_not_open hnone', hlexeme.kind]
            cases hfind : Clause.find? lexeme.kind later with
            | none => rfl
            | some found =>
                obtain ⟨opened, later'⟩ := found
                have hshorter : later'.length < length := hlength ▸ Clause.find?_length hfind
                dsimp only
                rcases clause_alike opened hrest with ⟨context, hclause, hclause'⟩ |
                  ⟨offers', back, back', hclause, hclause', hback⟩
                · rw [hclause, hclause']
                · rw [hclause, hclause']
                  exact ih _ hshorter offers' later' hback rfl
          · rw [clauses_of_open hsome, clauses_of_open hsome', hliteral]

theorem path_alike (request : Request)
    (halike : List.Forall₂ (Alike cursor cursor') ahead ahead') :
    path cursor' request ahead' = path cursor request ahead := by
  have hopen := openWord?_alike halike
  unfold path
  rcases hopen with ⟨hnone, hnone'⟩ | ⟨word, word', hsome, hsome', hliteral⟩
  · rw [hnone, hnone']
    cases halike with
    | nil => rfl
    | cons hlexeme hrest =>
        dsimp only
        rw [hlexeme.kind, clauses_alike [] request.clauses hrest]
  · rw [hsome, hsome']
    dsimp only
    rw [hliteral]

theorem ofLexemes_alike (halike : List.Forall₂ (Alike cursor cursor') ahead ahead') :
    ofLexemes cursor' ahead' = ofLexemes cursor ahead := by
  have hopen := openWord?_alike halike
  unfold ofLexemes
  rcases hopen with ⟨hnone, hnone'⟩ | ⟨word, word', hsome, hsome', hliteral⟩
  · rw [hnone, hnone']
    cases halike with
    | nil => rfl
    | cons hlexeme hrest =>
        dsimp only
        rw [hlexeme.kind]
        cases Request.ofKind? _ with
        | none => rfl
        | some request => exact path_alike request hrest
  · rw [hsome, hsome']
    dsimp only
    rw [hliteral]

end Context

end DocShell.Completion
