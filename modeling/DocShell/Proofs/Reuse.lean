import DocShell.Proofs.Refusal

namespace DocShell.Query

namespace Rule

variable {α : Type}

/-- The tokens that a rule does not read. -/
def left (rule : Rule α) (ahead : List Token) : List Token :=
  match rule ahead with
  | .ok _ rest => rest
  | .error _ rest => rest

def outcome (rule : Rule α) (ahead : List Token) : Except ParseError α :=
  match rule ahead with
  | .ok value _ => .ok value
  | .error cause _ => .error cause

theorem run_of_outcome_eq_ok {rule : Rule α} {ahead : List Token} {value : α}
    (h : outcome rule ahead = .ok value) : rule ahead = .ok value (left rule ahead) := by
  cases hrun : rule ahead with
  | ok found rest =>
      simp only [outcome, hrun, Except.ok.injEq] at h
      rw [h, left, hrun]
  | error cause rest => simp [outcome, hrun] at h

theorem Local.left_suffix {rule : Rule α} {ahead : List Token} (h : Local rule ahead) :
    left rule ahead <:+ ahead := by
  cases h with
  | ok front rest value hahead hsame =>
      rw [hahead, left, hsame rest rfl]
      exact List.suffix_append front rest
  | peeked front rest cause _ hahead hsame =>
      rw [hahead, left, hsame rest rfl]
      exact List.suffix_append front rest
  | current front token rest cause _ hahead hsame =>
      rw [hahead, left, hsame rest]
      exact ⟨front ++ [token], by simp⟩
  | ended cause hended =>
      rw [left, hended]
      exact List.nil_suffix

theorem left_operation_suffix (token : Token) (ahead : List Token) :
    left (operation token) ahead <:+ ahead := by
  rcases decides_operation token ahead with ⟨cause, -, hthrow⟩ | hlocal
  · rw [hthrow]
    exact List.suffix_rfl
  · exact hlocal.left_suffix

end Rule

namespace Parser

/-- The message that a reading adds to the earlier ones. -/
def message? : Except ParseError Operation → Option String
  | .ok _ => none
  | .error cause => some cause.message

def after (parser : Parser) : Nat → Parser
  | 0 => parser
  | count + 1 => (after parser count).next.2

section Next

variable {parser : Parser} {token : Token} {ahead : List Token}

theorem next_of_drop (h : parser.tokens.drop parser.cursor = token :: ahead) :
    parser.next = (Rule.outcome (Rule.operation token) ahead,
      ⟨parser.tokens, parser.tokens.length - 1 - (Rule.left (Rule.operation token) ahead).length,
        parser.errors ++ (message? (Rule.outcome (Rule.operation token) ahead)).toList⟩) := by
  rw [next, h]
  unfold Rule.outcome Rule.left
  cases hrun : Rule.operation token ahead <;> simp [hrun, message?]

end Next

/-- There is a token of the line under the cursor. -/
structure OnLine (line : String) (parser : Parser) : Prop where
  tokens_eq : parser.tokens = Query.tokens line.toList
  cursor_lt : parser.cursor < parser.tokens.length

section OnLine

variable {line : String} {parser : Parser}

theorem OnLine.exists_drop (h : OnLine line parser) :
    ∃ token ahead, parser.tokens.drop parser.cursor = token :: ahead :=
  ⟨_, _, List.drop_eq_getElem_cons h.cursor_lt⟩

/-- What a reading leaves begins behind the token where it stopped. -/
theorem OnLine.left_eq (h : OnLine line parser) {token : Token} {ahead : List Token}
    (hdrop : parser.tokens.drop parser.cursor = token :: ahead) :
    parser.next.2.tokens = parser.tokens ∧ parser.cursor ≤ parser.next.2.cursor ∧
      parser.next.2.cursor < parser.tokens.length ∧
      Rule.left (Rule.operation token) ahead = parser.tokens.drop (parser.next.2.cursor + 1) := by
  have hsuffix : Rule.left (Rule.operation token) ahead <:+ parser.tokens :=
    (Rule.left_operation_suffix token ahead).trans
      ((hdrop ▸ List.suffix_cons token ahead).trans (List.drop_suffix _ _))
  have hle := (Rule.left_operation_suffix token ahead).length_le
  have hlength := congrArg List.length hdrop
  rw [List.length_drop, List.length_cons] at hlength
  have hcursor : parser.next.2.cursor =
      parser.tokens.length - 1 - (Rule.left (Rule.operation token) ahead).length := by
    rw [next_of_drop hdrop]
  refine ⟨by rw [next_of_drop hdrop], by omega, by omega, ?_⟩
  rw [List.suffix_iff_eq_drop.mp hsuffix, hcursor]
  congr 1
  have hlt := h.cursor_lt
  omega

theorem OnLine.next (h : OnLine line parser) : OnLine line parser.next.2 := by
  obtain ⟨token, ahead, hdrop⟩ := h.exists_drop
  obtain ⟨htokens, -, hcursor, -⟩ := h.left_eq hdrop
  exact ⟨htokens.trans h.tokens_eq, htokens.symm ▸ hcursor⟩

theorem OnLine.after (h : OnLine line parser) (count : Nat) : OnLine line (parser.after count) := by
  induction count with
  | zero => exact h
  | succ count ih => exact ih.next

end OnLine

end Parser

theorem parse_eq_outcome (line : String) {token : Token} {ahead : List Token}
    (h : tokens line.toList = token :: ahead) :
    parse line = Rule.outcome (Rule.operation token) ahead := by
  have hdrop : (Parser.ofLine line).tokens.drop (Parser.ofLine line).cursor = token :: ahead := h
  rw [parse, Parser.next_of_drop hdrop]

theorem cursor_eq {line : String} {token : Token} {ahead : List Token}
    (h : tokens line.toList = token :: ahead) : (Parser.ofLine line).next.2.cursor =
      ahead.length - (Rule.left (Rule.operation token) ahead).length := by
  have hdrop : (Parser.ofLine line).tokens.drop (Parser.ofLine line).cursor = token :: ahead := h
  rw [Parser.next_of_drop hdrop]
  simp [Parser.ofLine, h]

end DocShell.Query
