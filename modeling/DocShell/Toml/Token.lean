import DocShell.Json.Reader

/-!
The tokens of a TOML text. Strings are tokens with their values; keys without quotes, numbers and
the like are atoms, which points divide. A comment counts as a blank, and a blank keeps its source.
-/

namespace DocShell.Toml

open DocShell.Json

inductive Token where
  | newline
  | blank (source : List Char)
  | equals
  | dot
  | comma
  | openBracket
  | closeBracket
  | openBrace
  | closeBrace
  | string (value : List Char) (multiline : Bool)
  | atom (source : List Char)
deriving DecidableEq, Repr

def isSpace (c : Char) : Bool := c == ' ' || c == '\t'

/-- Control characters other than the tab stand in no string and no comment. -/
def isControl (c : Char) : Bool := c.toNat < 0x20 && c != '\t' || c.toNat == 0x7F

/-- Whether an atom goes on with a character. A quote opens a string only where an atom would
begin. -/
def isAtomChar (c : Char) : Bool :=
  !(isSpace c || c == '\n' || c == '\r' || c == '#' || c == '.' || c == '=' || c == ',' ||
    c == '[' || c == ']' || c == '{' || c == '}')

def charOf? (code : Nat) : Option Char :=
  if code < 0xD800 ∨ (0xE000 ≤ code ∧ code ≤ 0x10FFFF) then some (Char.ofNat code) else none

def hexPair? (a b : Char) : Option Nat := do return (← hexValue? a) * 16 + (← hexValue? b)

def unescape? : Char → Option Char
  | 'b' => some '\x08'
  | 't' => some '\t'
  | 'n' => some '\n'
  | 'f' => some '\x0c'
  | 'r' => some '\r'
  | 'e' => some '\x1b'
  | '"' => some '"'
  | '\\' => some '\\'
  | _ => none

def escape? : List Char → Option (Char × List Char)
  | 'x' :: a :: b :: rest => do
      return (← charOf? (← hexPair? a b), rest)
  | 'u' :: a :: b :: c :: d :: rest => do
      return (← charOf? (← hexQuad? a b c d), rest)
  | 'U' :: a :: b :: c :: d :: e :: f :: g :: h :: rest => do
      return (← charOf? ((← hexQuad? a b c d) * 0x10000 + (← hexQuad? e f g h)), rest)
  | c :: rest => (unescape? c).map fun c => (c, rest)
  | [] => none

theorem escape?_length {cs rest : List Char} {c : Char} (h : escape? cs = some (c, rest)) :
    rest.length < cs.length := by
  unfold escape? at h
  split at h
  · obtain ⟨pair, -, h⟩ := Option.bind_eq_some_iff.mp h
    obtain ⟨found, -, h⟩ := Option.bind_eq_some_iff.mp h
    cases h
    simp only [List.length_cons]
    omega
  · obtain ⟨quad, -, h⟩ := Option.bind_eq_some_iff.mp h
    obtain ⟨found, -, h⟩ := Option.bind_eq_some_iff.mp h
    cases h
    simp only [List.length_cons]
    omega
  · obtain ⟨high, -, h⟩ := Option.bind_eq_some_iff.mp h
    obtain ⟨low, -, h⟩ := Option.bind_eq_some_iff.mp h
    obtain ⟨found, -, h⟩ := Option.bind_eq_some_iff.mp h
    cases h
    simp only [List.length_cons]
    omega
  · obtain ⟨found, -, h⟩ := Option.map_eq_some_iff.mp h
    cases h
    simp
  · simp at h

def basic? : List Char → Option (List Char × List Char)
  | [] => none
  | c :: cs =>
      if c = '"' then some ([], cs)
      else if c = '\\' then
        match _hescape : escape? cs with
        | none => none
        | some (c, rest) => (basic? rest).map fun (body, rest) => (c :: body, rest)
      else if isControl c then none
      else (basic? cs).map fun (body, rest) => (c :: body, rest)
termination_by cs => cs.length
decreasing_by
  · have hlt := escape?_length _hescape
    simp only [List.length_cons]
    omega
  · simp

theorem basic?_length {cs body rest : List Char} (h : basic? cs = some (body, rest)) :
    rest.length < cs.length := by
  fun_induction basic? cs generalizing body with
  | case1 | case3 | case5 => simp at h
  | case2 => simp_all
  | case4 cs c tail hescape hquote ih =>
      obtain ⟨⟨body', rest'⟩, hbody, hparts⟩ := Option.map_eq_some_iff.mp h
      simp only [Prod.mk.injEq] at hparts
      have hlt := ih (hparts.2 ▸ hbody)
      have hshort := escape?_length hescape
      simp only [List.length_cons]
      omega
  | case6 c cs hquote hslash hcontrol ih =>
      obtain ⟨⟨body', rest'⟩, hbody, hparts⟩ := Option.map_eq_some_iff.mp h
      simp only [Prod.mk.injEq] at hparts
      have hlt := ih (hparts.2 ▸ hbody)
      simp only [List.length_cons]
      omega

def literal? : List Char → Option (List Char × List Char)
  | [] => none
  | c :: cs =>
      if c = '\'' then some ([], cs)
      else if isControl c then none
      else (literal? cs).map fun (body, rest) => (c :: body, rest)

theorem literal?_length {cs body rest : List Char} (h : literal? cs = some (body, rest)) :
    rest.length < cs.length := by
  fun_induction literal? cs generalizing body with
  | case1 | case3 => simp at h
  | case2 => simp_all
  | case4 c cs hquote hcontrol ih =>
      obtain ⟨⟨body', rest'⟩, hbody, hparts⟩ := Option.map_eq_some_iff.mp h
      simp only [Prod.mk.injEq] at hparts
      have hlt := ih (hparts.2 ▸ hbody)
      simp only [List.length_cons]
      omega

/-- What is left of a run of quotes that closes a string over many lines: three of them close it,
and up to two may stand before these. -/
def closing? (quote : Char) (cs : List Char) : Option (List Char × List Char) :=
  let run := (cs.takeWhile (· == quote)).take 5
  if run.length < 3 then none else some (run.drop 3, cs.drop run.length)

theorem closing?_length {quote : Char} {cs body rest : List Char}
    (h : closing? quote cs = some (body, rest)) : rest.length < cs.length := by
  unfold closing? at h
  dsimp only at h
  split at h
  · simp at h
  · rename_i hrun
    simp only [Option.some.injEq, Prod.mk.injEq] at h
    have hle : (cs.takeWhile (· == quote)).length ≤ cs.length :=
      (List.takeWhile_prefix (l := cs) (· == quote)).length_le
    rw [← h.2]
    simp only [List.length_take, List.length_drop] at hrun ⊢
    omega

/-- The characters of a line break, if the text begins with one. -/
def lineBreak? : List Char → Option (List Char × List Char)
  | '\n' :: rest => some (['\n'], rest)
  | '\r' :: '\n' :: rest => some (['\r', '\n'], rest)
  | _ => none

theorem lineBreak?_length {cs body rest : List Char} (h : lineBreak? cs = some (body, rest)) :
    rest.length < cs.length := by
  unfold lineBreak? at h
  split at h
  · obtain ⟨-, rfl⟩ := Prod.mk.inj (Option.some.inj h)
    exact Nat.lt_succ_self _
  · obtain ⟨-, rfl⟩ := Prod.mk.inj (Option.some.inj h)
    exact Nat.lt_succ_of_lt (Nat.lt_succ_self _)
  · simp at h

def dropBlankLines : List Char → List Char
  | [] => []
  | '\r' :: '\n' :: rest => dropBlankLines rest
  | c :: rest => if isSpace c || c == '\n' then dropBlankLines rest else c :: rest

theorem dropBlankLines_length (cs : List Char) : (dropBlankLines cs).length ≤ cs.length := by
  fun_induction dropBlankLines cs with
  | case1 | case4 => exact Nat.le_refl _
  | case2 rest ih => exact Nat.le_succ_of_le (Nat.le_succ_of_le ih)
  | case3 c rest hbreak hblank ih => exact Nat.le_succ_of_le ih

/-- What follows a backslash at the end of a line: the next character that is neither a space nor
in a line break, and all after it. -/
def continued? (cs : List Char) : Option (List Char) :=
  (lineBreak? (cs.dropWhile isSpace)).map fun (_, rest) => dropBlankLines rest

theorem continued?_length {cs rest : List Char} (h : continued? cs = some rest) :
    rest.length < cs.length := by
  obtain ⟨⟨written, tail⟩, hbreak, rfl⟩ := Option.map_eq_some_iff.mp h
  have hspace := (List.dropWhile_suffix (l := cs) isSpace).length_le
  exact Nat.lt_of_lt_of_le (Nat.lt_of_le_of_lt (dropBlankLines_length tail)
    (lineBreak?_length hbreak)) hspace

/-- A string over many lines after its opening quotes, and what follows the closing ones. In one
with the quote `"` a backslash begins an escape or joins two lines. -/
def multiline? (quote : Char) (cs : List Char) : Option (List Char × List Char) :=
  match cs with
  | [] => none
  | c :: tail =>
      match closing? quote (c :: tail) with
      | some found => some found
      | none =>
          match _hbreak : lineBreak? (c :: tail) with
          | some (written, rest) =>
              (multiline? quote rest).map fun (body, rest) => (written ++ body, rest)
          | none =>
              if quote = '"' ∧ c = '\\' then
                match _hcontinued : continued? tail with
                | some rest => multiline? quote rest
                | none =>
                    match _hescape : escape? tail with
                    | none => none
                    | some (c, rest) =>
                        (multiline? quote rest).map fun (body, rest) => (c :: body, rest)
              else if isControl c then none
              else (multiline? quote tail).map fun (body, rest) => (c :: body, rest)
termination_by cs.length
decreasing_by
  · exact lineBreak?_length _hbreak
  · exact Nat.lt_succ_of_lt (continued?_length _hcontinued)
  · have hlt := escape?_length _hescape
    simp only [List.length_cons]
    omega
  · simp

theorem multiline?_length {quote : Char} {cs body rest : List Char}
    (h : multiline? quote cs = some (body, rest)) : rest.length < cs.length := by
  fun_induction multiline? quote cs generalizing body with
  | case1 | case5 | case7 => simp at h
  | case2 c tail found hclosing =>
      simp only [Option.some.injEq] at h
      exact closing?_length (h ▸ hclosing)
  | case3 c tail hclosing written rest' hbreak ih =>
      obtain ⟨⟨body', tail'⟩, hbody, hparts⟩ := Option.map_eq_some_iff.mp h
      simp only [Prod.mk.injEq] at hparts
      have hlt := ih (hparts.2 ▸ hbody)
      have hshort := lineBreak?_length hbreak
      omega
  | case4 c tail hclosing hbreak hslash rest' hcontinued ih =>
      have hlt := ih h
      have hshort := continued?_length hcontinued
      simp only [List.length_cons]
      omega
  | case6 c tail hclosing hbreak hslash hcontinued c' rest' hescape ih =>
      obtain ⟨⟨body', tail'⟩, hbody, hparts⟩ := Option.map_eq_some_iff.mp h
      simp only [Prod.mk.injEq] at hparts
      have hlt := ih (hparts.2 ▸ hbody)
      have hshort := escape?_length hescape
      simp only [List.length_cons]
      omega
  | case8 c tail hclosing hbreak hslash hcontrol ih =>
      obtain ⟨⟨body', tail'⟩, hbody, hparts⟩ := Option.map_eq_some_iff.mp h
      simp only [Prod.mk.injEq] at hparts
      have hlt := ih (hparts.2 ▸ hbody)
      simp only [List.length_cons]
      omega

/-- A line break right after the opening quotes does not belong to the string. -/
def afterOpening (cs : List Char) : List Char :=
  match lineBreak? cs with
  | some (_, rest) => rest
  | none => cs

theorem afterOpening_length (cs : List Char) : (afterOpening cs).length ≤ cs.length := by
  unfold afterOpening
  split
  · rename_i hbreak
    exact Nat.le_of_lt (lineBreak?_length hbreak)
  · exact Nat.le_refl _

def string? (quote : Char) (cs : List Char) : Option (Token × List Char) :=
  match cs with
  | c :: d :: rest =>
      if c = quote ∧ d = quote then
        (multiline? quote (afterOpening rest)).map fun (body, rest) => (.string body true, rest)
      else single? cs
  | cs => single? cs
where
  single? (cs : List Char) : Option (Token × List Char) :=
    (if quote = '"' then basic? cs else literal? cs).map fun (body, rest) =>
      (.string body false, rest)

theorem single?_length {quote : Char} {cs rest : List Char} {token : Token}
    (h : string?.single? quote cs = some (token, rest)) : rest.length < cs.length := by
  obtain ⟨⟨body, tail⟩, hbody, hparts⟩ := Option.map_eq_some_iff.mp h
  simp only [Prod.mk.injEq] at hparts
  obtain ⟨-, rfl⟩ := hparts
  split at hbody
  · exact basic?_length hbody
  · exact literal?_length hbody

theorem string?_length {quote : Char} {cs rest : List Char} {token : Token}
    (h : string? quote cs = some (token, rest)) : rest.length < cs.length := by
  unfold string? at h
  split at h
  · split at h
    · obtain ⟨⟨body, tail⟩, hbody, hparts⟩ := Option.map_eq_some_iff.mp h
      simp only [Prod.mk.injEq] at hparts
      obtain ⟨-, rfl⟩ := hparts
      have hlt := multiline?_length hbody
      have hle := afterOpening_length
      rename_i front more _
      have hshort := hle more
      simp only [List.length_cons]
      omega
    · exact single?_length h
  · exact single?_length h

def token? (c : Char) (cs : List Char) : Option (Token × List Char) :=
  match c with
  | '\n' => some (.newline, cs)
  | '\r' => (lineBreak? (c :: cs)).map fun (_, rest) => (.newline, rest)
  | '=' => some (.equals, cs)
  | '.' => some (.dot, cs)
  | ',' => some (.comma, cs)
  | '[' => some (.openBracket, cs)
  | ']' => some (.closeBracket, cs)
  | '{' => some (.openBrace, cs)
  | '}' => some (.closeBrace, cs)
  | '"' => string? '"' cs
  | '\'' => string? '\'' cs
  | '#' =>
      let comment := cs.takeWhile fun c => c != '\n' && c != '\r'
      if comment.any isControl then none
      else some (.blank ('#' :: comment), cs.dropWhile fun c => c != '\n' && c != '\r')
  | c =>
      if isSpace c then some (.blank (c :: cs.takeWhile isSpace), cs.dropWhile isSpace)
      else some (.atom (c :: cs.takeWhile isAtomChar), cs.dropWhile isAtomChar)

theorem token?_length {c : Char} {cs rest : List Char} {token : Token}
    (h : token? c cs = some (token, rest)) : rest.length ≤ cs.length := by
  have hdrop : ∀ p : Char → Bool, (cs.dropWhile p).length ≤ cs.length :=
    fun p => (List.dropWhile_suffix p).length_le
  unfold token? at h
  split at h
  case h_2 =>
    obtain ⟨⟨body, tail⟩, hbody, hparts⟩ := Option.map_eq_some_iff.mp h
    simp only [Prod.mk.injEq] at hparts
    obtain ⟨-, rfl⟩ := hparts
    have hlt := lineBreak?_length hbody
    simp only [List.length_cons] at hlt
    omega
  case h_10 => exact Nat.le_of_lt (string?_length h)
  case h_11 => exact Nat.le_of_lt (string?_length h)
  case h_12 =>
    dsimp only at h
    split at h
    · simp at h
    · simp only [Option.some.injEq, Prod.mk.injEq] at h
      exact h.2 ▸ hdrop _
  case h_13 =>
    split at h <;> simp only [Option.some.injEq, Prod.mk.injEq] at h <;> exact h.2 ▸ hdrop _
  all_goals
    simp only [Option.some.injEq, Prod.mk.injEq] at h
    exact h.2 ▸ Nat.le_refl _

/-- The tokens of a text, unless it has a string or a character that is none. -/
def tokens? : List Char → Option (List Token)
  | [] => some []
  | c :: cs =>
      match _htoken : token? c cs with
      | none => none
      | some (token, rest) => (tokens? rest).map (token :: ·)
termination_by cs => cs.length
decreasing_by
  have hle := token?_length _htoken
  simp only [List.length_cons]
  omega

end DocShell.Toml
