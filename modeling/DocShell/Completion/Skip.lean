import DocShell.Query.Grammar
import DocShell.Query.Lexeme

/-!
A skip passes over lexemes at the front of a list, without regard to the values that they have.
It fails where the lexemes end too soon as well as where they do not fit.
-/

namespace DocShell.Completion

open DocShell.Query

abbrev Skip (α : Type) := StateT (List Lexeme) Option α

namespace Skip

variable {α β : Type}

/-- A success leaves fewer lexemes. -/
def Advances (skip : Skip α) : Prop :=
  ∀ ahead value rest, skip ahead = some (value, rest) → rest.length < ahead.length

def Keeps (skip : Skip α) : Prop :=
  ∀ ahead value rest, skip ahead = some (value, rest) → rest.length ≤ ahead.length

theorem Advances.keeps {skip : Skip α} (h : Advances skip) : Keeps skip :=
  fun ahead value rest hrun => Nat.le_of_lt (h ahead value rest hrun)

theorem bind_apply (skip : Skip α) (next : α → Skip β) (ahead : List Lexeme) :
    (skip >>= next) ahead = (skip ahead).bind fun found => next found.1 found.2 := rfl

theorem advances_bind {skip : Skip α} {next : α → Skip β} (hskip : Advances skip)
    (hnext : ∀ value, Keeps (next value)) : Advances (skip >>= next) := by
  intro ahead value rest h
  rw [bind_apply] at h
  obtain ⟨⟨first, middle⟩, hfirst, hsecond⟩ := Option.bind_eq_some_iff.mp h
  exact Nat.lt_of_le_of_lt (hnext first _ _ _ hsecond) (hskip _ _ _ hfirst)

theorem keeps_bind {skip : Skip α} {next : α → Skip β} (hskip : Keeps skip)
    (hnext : ∀ value, Keeps (next value)) : Keeps (skip >>= next) := by
  intro ahead value rest h
  rw [bind_apply] at h
  obtain ⟨⟨first, middle⟩, hfirst, hsecond⟩ := Option.bind_eq_some_iff.mp h
  exact Nat.le_trans (hnext first _ _ _ hsecond) (hskip _ _ _ hfirst)

theorem keeps_pure (value : α) : Keeps (pure value : Skip α) := by
  intro ahead value' rest h
  cases h
  exact Nat.le_refl _

def one (p : Lexeme → Bool) : Skip Unit
  | [] => none
  | lexeme :: rest => if p lexeme then some ((), rest) else none

theorem one_advances (p : Lexeme → Bool) : Advances (one p) := by
  intro ahead value rest h
  cases ahead with
  | nil => simp [one] at h
  | cons lexeme lexemes =>
      simp only [one] at h
      split at h <;> simp_all

def kind (kind : TokenKind) : Skip Unit := one fun lexeme => lexeme.kind = kind

theorem kind_advances (k : TokenKind) : Advances (kind k) := one_advances _

/-- One lexeme of a kind if it is the next, and whether it was. -/
def optional (kind : TokenKind) : Skip Bool
  | [] => some (false, [])
  | lexeme :: rest =>
      if lexeme.kind = kind then some (true, rest) else some (false, lexeme :: rest)

theorem optional_keeps (k : TokenKind) : Keeps (optional k) := by
  intro ahead value rest h
  cases ahead with
  | nil => simp_all [optional]
  | cons lexeme lexemes =>
      simp only [optional] at h
      split at h <;> simp only [Option.some.injEq, Prod.mk.injEq] at h <;> simp [← h.2]

/-- What a skip passes over once, and again after each separator that follows. The value is that
of the last time. -/
def separated (item : Skip α) (hitem : Advances item) (separator : TokenKind)
    (ahead : List Lexeme) : Option (α × List Lexeme) :=
  match _hrun : item ahead with
  | none => none
  | some (value, []) => some (value, [])
  | some (value, lexeme :: rest) =>
      if lexeme.kind = separator then separated item hitem separator rest
      else some (value, lexeme :: rest)
termination_by ahead.length
decreasing_by
  have hlt := hitem _ _ _ _hrun
  simp only [List.length_cons] at hlt
  omega

theorem separated_advances (item : Skip α) (hitem : Advances item) (separator : TokenKind) :
    Advances (separated item hitem separator) := by
  intro ahead
  fun_induction separated item hitem separator ahead with
  | case1 => intro value rest h; simp at h
  | case2 ahead first hrun =>
      intro value rest h
      simp only [Option.some.injEq, Prod.mk.injEq] at h
      exact h.2 ▸ hitem _ _ _ hrun
  | case3 ahead first lexeme tail hrun hkind ih =>
      intro value rest h
      have hfirst := hitem _ _ _ hrun
      have hlater := ih _ _ h
      simp only [List.length_cons] at hfirst
      omega
  | case4 ahead first lexeme tail hrun hkind =>
      intro value rest h
      simp only [Option.some.injEq, Prod.mk.injEq] at h
      exact h.2 ▸ hitem _ _ _ hrun

def scalar : Skip Unit :=
  one fun lexeme =>
    match lexeme.kind with
    | .int | .float => true
    | .string => !lexeme.isUnterminated
    | _ => false

/-- The values of a list after its opening bracket, and the closing one. -/
def array : Skip Unit := do
  if ← optional (.punctuation .closeBracket) then return ()
  separated scalar (one_advances _) (.punctuation .comma)
  kind (.punctuation .closeBracket)

theorem array_keeps : Keeps array := by
  refine keeps_bind (optional_keeps _) fun closed => ?_
  split
  · exact keeps_pure _
  · exact keeps_bind (separated_advances _ _ _).keeps fun _ => (kind_advances _).keeps

def timestamp : Skip Unit := do
  kind (.punctuation .openParen)
  one fun lexeme => lexeme.kind = .string && !lexeme.isUnterminated
  kind (.punctuation .closeParen)

theorem timestamp_keeps : Keeps timestamp :=
  keeps_bind (kind_advances _).keeps fun _ =>
    keeps_bind (one_advances _).keeps fun _ => (kind_advances _).keeps

def value : Skip Unit
  | [] => none
  | lexeme :: rest =>
      match lexeme.kind with
      | .punctuation .openBracket => array rest
      | .word => if isTimestampName lexeme.literal then timestamp rest else none
      | _ => scalar (lexeme :: rest)

theorem value_keeps : Keeps value := by
  intro ahead found rest h
  cases ahead with
  | nil => simp [value] at h
  | cons lexeme lexemes =>
      simp only [value] at h
      split at h
      · have hle := array_keeps _ _ _ h
        simp only [List.length_cons]
        omega
      · split at h
        · have hle := timestamp_keeps _ _ _ h
          simp only [List.length_cons]
          omega
        · simp at h
      · exact (one_advances _).keeps _ _ _ h

def filter : Skip Unit := do
  kind .word
  one fun lexeme => (Operator.ofKind? lexeme.kind).isSome
  value

theorem filter_advances : Advances filter :=
  advances_bind (kind_advances _) fun _ =>
    keeps_bind (one_advances _).keeps fun _ => value_keeps

/-- A field, and whether a direction follows it. -/
def ordering : Skip Bool := do
  kind .word
  if ← optional (.keyword .asc) then return true
  optional (.keyword .desc)

theorem ordering_advances : Advances ordering := by
  refine advances_bind (kind_advances _) fun _ => keeps_bind (optional_keeps _) fun ascending => ?_
  split
  · exact keeps_pure _
  · exact optional_keeps _

end Skip

end DocShell.Completion
