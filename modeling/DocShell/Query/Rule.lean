import DocShell.Query.ParseError

namespace DocShell.Query

abbrev Rule (α : Type) := EStateM ParseError (List Token) α

namespace Rule

variable {α β : Type}

/-- A success leaves fewer tokens. -/
def Advances (rule : Rule α) : Prop :=
  ∀ ahead value rest, rule ahead = .ok value rest → rest.length < ahead.length

def Keeps (rule : Rule α) : Prop :=
  ∀ ahead value rest, rule ahead = .ok value rest → rest.length ≤ ahead.length

theorem Advances.keeps {rule : Rule α} (h : Advances rule) : Keeps rule :=
  fun ahead value rest hrun => Nat.le_of_lt (h ahead value rest hrun)

theorem bind_eq_ok {rule : Rule α} {next : α → Rule β} {ahead rest : List Token} {value : β}
    (h : (rule >>= next) ahead = .ok value rest) :
    ∃ first middle, rule ahead = .ok first middle ∧ next first middle = .ok value rest := by
  simp only [bind, EStateM.bind] at h
  split at h
  · rename_i first middle hrule
    exact ⟨first, middle, hrule, h⟩
  · simp at h

theorem advances_bind {rule : Rule α} {next : α → Rule β} (hrule : Advances rule)
    (hnext : ∀ value, Keeps (next value)) : Advances (rule >>= next) := by
  intro ahead value rest h
  obtain ⟨first, middle, hfirst, hsecond⟩ := bind_eq_ok h
  exact Nat.lt_of_le_of_lt (hnext first _ _ _ hsecond) (hrule _ _ _ hfirst)

theorem keeps_bind {rule : Rule α} {next : α → Rule β} (hrule : Keeps rule)
    (hnext : ∀ value, Keeps (next value)) : Keeps (rule >>= next) := by
  intro ahead value rest h
  obtain ⟨first, middle, hfirst, hsecond⟩ := bind_eq_ok h
  exact Nat.le_trans (hnext first _ _ _ hsecond) (hrule _ _ _ hfirst)

theorem keeps_pure (value : α) : Keeps (pure value : Rule α) := by
  intro ahead value' rest h
  cases h
  exact Nat.le_refl _

theorem keeps_throw (cause : ParseError) : Keeps (throw cause : Rule α) := by
  intro ahead value rest h
  cases h

/-- The text of the next token, which has to be of a kind. -/
def expect (kind : TokenKind) : Rule String
  | [] => .error (.unexpectedToken (.kind kind) .atEnd) []
  | token :: rest =>
      if token.kind = kind then .ok token.literal rest
      else .error (.unexpectedToken (.kind kind) token) (token :: rest)

theorem expect_advances (kind : TokenKind) : Advances (expect kind) := by
  intro ahead value rest h
  cases ahead with
  | nil => simp [expect] at h
  | cons token tokens =>
      simp only [expect] at h
      split at h <;> simp_all

/-- The text of the next token if it is of a kind. -/
def optional (kind : TokenKind) : Rule (Option String)
  | [] => .ok none []
  | token :: rest =>
      if token.kind = kind then .ok (some token.literal) rest else .ok none (token :: rest)

theorem optional_keeps (kind : TokenKind) : Keeps (optional kind) := by
  intro ahead value rest h
  cases ahead with
  | nil => simp_all [optional]
  | cons token tokens =>
      simp only [optional] at h
      split at h
      · simp only [EStateM.Result.ok.injEq] at h
        simp [← h.2]
      · simp_all

def expectEnd : Rule Unit
  | [] => .ok () []
  | token :: rest =>
      if token.kind = .endOfInput then .ok () (token :: rest)
      else .error (.unexpectedToken .endOfLine token) (token :: rest)

/-- What a rule reads once, and again after each separator that follows. -/
def separated (item : Rule α) (hitem : Advances item) (separator : TokenKind)
    (ahead : List Token) : EStateM.Result ParseError (List Token) (List α) :=
  match _hrun : item ahead with
  | .error cause rest => .error cause rest
  | .ok value [] => .ok [value] []
  | .ok value (token :: rest) =>
      if token.kind = separator then
        match separated item hitem separator rest with
        | .ok values rest => .ok (value :: values) rest
        | .error cause rest => .error cause rest
      else .ok [value] (token :: rest)
termination_by ahead.length
decreasing_by
  have hlt := hitem _ _ _ _hrun
  simp only [List.length_cons] at hlt
  omega

theorem separated_advances (item : Rule α) (hitem : Advances item) (separator : TokenKind) :
    Advances (separated item hitem separator) := by
  intro ahead
  fun_induction separated item hitem separator ahead with
  | case1 => intro value rest h; simp at h
  | case2 ahead first hrun =>
      intro value rest h
      simp only [EStateM.Result.ok.injEq] at h
      exact h.2 ▸ hitem _ _ _ hrun
  | case3 ahead first token tail hrun hkind values tail' hrest ih =>
      intro value rest h
      simp only [EStateM.Result.ok.injEq] at h
      have hfirst := hitem _ _ _ hrun
      have hlater := ih _ _ hrest
      rw [← h.2]
      simp only [List.length_cons] at hfirst
      omega
  | case4 => intro value rest h; simp at h
  | case5 ahead first token tail hrun hkind =>
      intro value rest h
      simp only [EStateM.Result.ok.injEq] at h
      exact h.2 ▸ hitem _ _ _ hrun

end Rule

end DocShell.Query
