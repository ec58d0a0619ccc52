import DocShell.Proofs.Joining
import DocShell.Proofs.Replacement
import DocShell.Proofs.Spelling

namespace DocShell.Query

open DocShell.Text.Bytes

/-- A text that begins a request: its word, in any case, and the gap behind it. -/
inductive Opens (request : Request) : List Char → Prop where
  | intro {opener gap} : TokenKind.ofWord opener = request.opener → gap ≠ [] →
      (∀ c ∈ gap, isSeparator c = true) → Opens request (opener ++ gap)

/-- A text that a path follows: a request, or the command that lists collections, with its gap. -/
inductive OpensPath : TokenKind → List Char → Prop where
  | request {request front} : Opens request front → OpensPath request.opener front
  | listing {gap} : gap ≠ [] → (∀ c ∈ gap, isSeparator c = true) →
      OpensPath (.command .listCollections) (Command.listCollections.name.toList ++ gap)

def pathLexeme (front path : String) : Lexeme := ⟨.word, path.toList, byteLength front.toList⟩

theorem literal_pathLexeme (front path : String) : (pathLexeme front path).literal = path :=
  String.toList_injective (Lexeme.literal_of_word rfl)

theorem stop_pathLexeme (front path : String) :
    (pathLexeme front path).stop = byteLength (front ++ path).toList := by
  rw [Lexeme.stop, String.toList_append, byteLength_append]
  rfl

theorem lexemes_append_gap {kind : TokenKind} {source gap : List Char}
    (hsource : lexemesFrom true 0 source = [⟨kind, source, 0⟩]) (hkind : kind ≠ .string)
    (hne : gap ≠ []) (hgap : ∀ c ∈ gap, isSeparator c = true) (rest : List Char) :
    lexemes (source ++ gap ++ rest) =
      ⟨kind, source, 0⟩ :: lexemesFrom false (byteLength (source ++ gap)) rest := by
  have hterminated : ∀ lexeme ∈ lexemesFrom true 0 source, lexeme.isUnterminated = false := by
    rw [hsource]
    simp [Lexeme.isUnterminated, hkind]
  have hlexemes : lexemes source = [⟨kind, source, 0⟩] := hsource
  rw [lexemes_joined hgap hterminated hne, hlexemes]
  rfl

theorem Opens.lexemes_append {request : Request} {front : List Char} (h : Opens request front)
    (rest : List Char) : ∃ opener, opener.kind = request.opener ∧
      lexemes (front ++ rest) = opener :: lexemesFrom false (byteLength front) rest := by
  obtain ⟨hopener, hne, hgap⟩ := h
  rename_i word gap
  obtain ⟨keyword, hkeyword⟩ : ∃ keyword, request.opener = .keyword keyword := by
    cases request <;> exact ⟨_, rfl⟩
  obtain ⟨hstart, hchars⟩ := isWord_of_ofWord (hopener.trans hkeyword)
  have hword := lexemesFrom_word hstart hchars true 0
  rw [hopener] at hword
  exact ⟨_, rfl, lexemes_append_gap hword (by simp [hkeyword]) hne hgap rest⟩

theorem opens_offer (request : Request) : Opens request (request.offer.text ++ " ").toList := by
  rw [String.toList_append]
  exact .intro (by cases request <;> decide) (by decide) (List.all_eq_true.mp (by decide))

section Path

variable {kind : TokenKind} {front path rest : String} (hfront : OpensPath kind front.toList)
  (hpath : IsField path) (hrest : ∀ c ∈ rest.toList.head?, isSeparator c = true)

include hfront hpath hrest

theorem OpensPath.lexemes_append : ∃ opener, opener.kind = kind ∧
    lexemes (front ++ path ++ rest).toList =
      opener :: pathLexeme front path ::
        lexemesFrom false (byteLength (front ++ path).toList) rest.toList := by
  obtain ⟨opener, hopener, hlexemes⟩ : ∃ opener, opener.kind = kind ∧
      lexemes (front.toList ++ (path.toList ++ rest.toList)) =
        opener :: lexemesFrom false (byteLength front.toList) (path.toList ++ rest.toList) := by
    generalize front.toList = text at hfront
    cases hfront with
    | request hopens => exact hopens.lexemes_append _
    | listing hne hgap =>
        have hsource : lexemesFrom true 0 Command.listCollections.name.toList =
            [⟨.command .listCollections, Command.listCollections.name.toList, 0⟩] := by
          decide +kernel
        exact ⟨_, rfl, lexemes_append_gap hsource (by simp) hne hgap _⟩
  refine ⟨opener, hopener, ?_⟩
  rw [lexemesFrom_field_append hpath hrest, ← byteLength_append, ← List.append_assoc,
    ← String.toList_append, ← String.toList_append] at hlexemes
  exact hlexemes

theorem OpensPath.tokensFrom_append : ∃ opening,
    tokensFrom true (front ++ path ++ rest).toList =
      ⟨kind, opening⟩ :: ⟨.word, path⟩ :: tokensFrom false rest.toList := by
  obtain ⟨opener, rfl, hlexemes⟩ := hfront.lexemes_append hpath hrest
  have hwhole : lexemesFrom true 0 (front ++ path ++ rest).toList = _ := hlexemes
  refine ⟨opener.literal, ?_⟩
  rw [tokensFrom, hwhole, List.map_cons, List.map_cons, map_token_lexemesFrom, Lexeme.token,
    Lexeme.token, literal_pathLexeme]
  rfl

end Path

end DocShell.Query

namespace DocShell.Completion

open DocShell.Query
open DocShell.Text.Bytes

section Path

variable {kind : TokenKind} {front path rest : String} (hfront : OpensPath kind front.toList)
  (hpath : IsField path)

include hfront hpath

/-- The path of a request is completed at its end, and the clauses of the request behind it. -/
theorem ofText_of_opensPath (hrest : ∀ c ∈ rest.toList.head?, isSeparator c = true) :
    Context.ofText (front ++ path ++ rest).toList =
      match Request.ofKind? kind with
      | some request =>
          if rest = "" then .collection path
          else Context.clauses (byteLength (front ++ path ++ rest).toList) [] request.clauses
            (lexemesFrom false (byteLength (front ++ path).toList) rest.toList)
      | none => .nothing := by
  obtain ⟨opener, rfl, hlexemes⟩ := hfront.lexemes_append hpath hrest
  have hpair : ∀ cursor tail,
      Context.openWord? cursor (opener :: pathLexeme front path :: tail) = none := fun _ _ => rfl
  rw [Context.ofText, hlexemes]
  cases hrequest : Request.ofKind? opener.kind with
  | none => simp only [Context.ofLexemes, hpair, hrequest]
  | some request =>
      by_cases hempty : rest = ""
      · subst hempty
        rw [String.append_empty, String.toList_empty, lexemesFrom_nil]
        simp only [Context.ofLexemes, hpair, hrequest, Context.path,
          Context.openWord?_word rfl (stop_pathLexeme front path), literal_pathLexeme, if_true]
      · have hlonger : byteLength (front ++ path).toList ≠
            byteLength (front ++ path ++ rest).toList := by
          have hwhole : (front ++ path ++ rest).toList = (front ++ path).toList ++ rest.toList :=
            String.toList_append
          rw [hwhole, byteLength_append]
          intro hsame
          have hzero := byteLength_eq_zero_iff.mp (Nat.left_eq_add.mp hsame)
          exact hempty (String.toList_injective hzero)
        -- The path ends in front of the cursor, so it is not what is being typed.
        have hpast : ¬((pathLexeme front path).kind = .word ∧
            (pathLexeme front path).stop = byteLength (front ++ path ++ rest).toList) :=
          fun h => hlonger (stop_pathLexeme front path ▸ h.2)
        have hword : (pathLexeme front path).kind = .word := rfl
        simp only [Context.ofLexemes, hpair, hrequest, Context.path,
          Context.openWord?_of_not hpast, hword, if_neg hempty, if_true]

theorem ofText_of_path : Context.ofText (front ++ path).toList =
    match Request.ofKind? kind with
    | some _ => .collection path
    | none => .nothing := by
  have hempty : ∀ c ∈ "".toList.head?, isSeparator c = true := by simp
  have hwhole := ofText_of_opensPath hfront hpath hempty
  rw [String.append_empty] at hwhole
  exact hwhole

theorem replacedFrom_of_path : replacedFrom (front ++ path).toList = byteLength front.toList := by
  have hempty : ∀ c ∈ "".toList.head?, isSeparator c = true := by simp
  obtain ⟨opener, -, hlexemes⟩ := hfront.lexemes_append hpath hempty
  rw [String.append_empty, String.toList_empty, lexemesFrom_nil] at hlexemes
  rw [replacedFrom, hlexemes]
  exact if_pos ⟨rfl, stop_pathLexeme front path⟩

end Path

end DocShell.Completion
