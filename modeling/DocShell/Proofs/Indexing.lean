import DocShell.Proofs.Likeness
import DocShell.Proofs.Misplacement
import DocShell.Proofs.Stream

/-!
The walk over the text in front of a cursor once more: here lexemes are looked up by their place,
strings are cut out of the text, and a loop goes round until it is left. Such a walk has no outcome
if a place is outside of its table, if a cut goes through a character, or if a loop goes round more
often than there are places in its table.
Main statement: over every text the walk has an outcome, and finds what the walk from lexeme to
lexeme finds.
-/

namespace DocShell.Completion

open DocShell.Query
open DocShell.Text.Bytes

variable {α β : Type}

/-- A walk along a stream. It keeps the place of the lexeme that it passed last, and may give up
before its end. -/
abbrev Walk (α : Type) := OptionT (StateT Nat Option) α

namespace Walk

/-- What a walk finds, if it does not give up, and the place where it stops. -/
def outcome (walk : Walk α) (place : Nat) : Option (Option α × Nat) := walk.run.run place

def checked (find? : Nat → Option α) : Walk α :=
  OptionT.mk fun place => (find? place).map fun found => (some found, place)

def fault : Walk α := OptionT.mk fun _ => none

variable (stream : Stream)

def next : Walk Lexeme := checked fun place => stream.get? (place + 1)

def nextIsOpen : Walk Bool := checked fun place => stream.isOpen? (place + 1)

def advance : Walk Unit := OptionT.mk fun place => some (some (), place + 1)

def one (p : Lexeme → Bool) : Walk Unit := do
  if p (← next stream) then advance else failure

def kind (kind : TokenKind) : Walk Unit := one stream fun lexeme => lexeme.kind = kind

def optional (kind : TokenKind) : Walk Bool := do
  if (← next stream).kind = kind then
    advance
    return true
  return false

def string : Walk Unit := do
  kind stream .string
  if ← checked fun place => stream.get? place >>= stream.isUnterminated? then failure

def scalar : Walk Unit := do
  match (← next stream).kind with
  | .int | .float => advance
  | .string => string stream
  | _ => failure

def elements : (rounds : Nat) → Walk Unit
  | 0 => fault
  | rounds + 1 => do
      scalar stream
      if ← optional stream (.punctuation .closeBracket) then return ()
      kind stream (.punctuation .comma)
      elements rounds

def array : Walk Unit := do
  if ← optional stream (.punctuation .closeBracket) then return ()
  elements stream stream.found.length

def timestamp : Walk Unit := do
  kind stream (.punctuation .openParen)
  string stream
  kind stream (.punctuation .closeParen)

def value : Walk Unit := do
  let lexeme ← next stream
  match lexeme.kind with
  | .punctuation .openBracket => do
      advance
      array stream
  | .word => if isTimestampName lexeme.literal then (do advance; timestamp stream) else failure
  | _ => scalar stream

def filter : Walk Unit := do
  kind stream .word
  one stream fun lexeme => (Operator.ofKind? lexeme.kind).isSome
  value stream

def ordering : Walk Bool := do
  kind stream .word
  if ← optional stream (.keyword .asc) then return true
  optional stream (.keyword .desc)

/-- Items with a separator between each two. The value is that of the last one. -/
def separatedFor (item : Walk α) (separator : TokenKind) : (rounds : Nat) → Walk α
  | 0 => fault
  | rounds + 1 => do
      let value ← item
      if ← optional stream separator then separatedFor item separator rounds else return value

def separated (item : Walk α) (separator : TokenKind) : Walk α :=
  separatedFor stream item separator stream.found.length

/-- The words of the clauses in a table from a place on, if the table is that long. -/
def offersFrom? (table : List Clause) (first : Nat) : Option (List Offer) :=
  if first ≤ table.length then some ((table.drop first).map Clause.offer) else none

/-- The part that was typed of the next word, if there is no more than that. -/
def typed : Walk (Option String) := do
  let lexeme ← next stream
  if lexeme.kind = .endOfInput then return some ""
  if lexeme.kind = .word && (← nextIsOpen stream) then return some lexeme.literal
  return none

/-- A clause behind the word that opens it. What comes further is told which words may follow apart
from those of later clauses. -/
def clause (opened : Clause) (further : List Offer → Walk Context) : Walk Context :=
  match opened with
  | .select => do
      separated stream (kind stream .word) (.punctuation .comma)
      further []
  | .filter => do
      separated stream (filter stream) (.keyword .andWord)
      further [andOffer]
  | .order => do
      if ← optional stream (.keyword .byWord) then
        let directed ← separated stream (ordering stream) (.punctuation .comma)
        further (if directed then [] else [ascOffer, descOffer])
      else
        match ← typed stream with
        | some typed => return .words [byOffer] typed
        | none => failure
  | .limit => do
      kind stream .int
      further []

def clauses (table : List Clause) :
    (rounds : Nat) → (first : Nat) → (offers : List Offer) → Walk Context
  | 0, _, _ => fault
  | rounds + 1, first, offers => do
      let all := offers ++ (← checked fun _ => offersFrom? table first)
      match ← typed stream with
      | some typed => return .words all typed
      | none =>
          match Clause.index? (← next stream).kind table with
          | none => failure
          | some place =>
              if place < first then failure
              advance
              clause stream (← checked fun _ => table[place]?) (clauses table rounds (place + 1))

def path (request : Request) : Walk Context := do
  let lexeme ← next stream
  if lexeme.kind ≠ .word then failure
  if ← nextIsOpen stream then return .collection lexeme.literal
  advance
  clauses stream request.clauses (request.clauses.length + 1) 0 []

def root : Walk Context := do
  let lexeme ← checked stream.get?
  if ← checked stream.isOpen? then
    return .words (Request.all.map Request.offer) lexeme.literal
  match Request.ofKind? lexeme.kind with
  | none => failure
  | some request => path stream request

end Walk

def Stream.context? (stream : Stream) : Option Context := do
  let (found, _) ← (Walk.root stream).outcome 0
  return found.getD .nothing

namespace Skip

theorem separated_eq_bind (item : Skip α) (hitem : Advances item) (separator : TokenKind) :
    separated item hitem separator = (do
      let value ← item
      if ← optional separator then separated item hitem separator else return value : Skip α) := by
  funext ahead
  rw [separated_eq, bind_apply]
  rcases item ahead with _ | ⟨value, _ | ⟨lexeme, rest⟩⟩
  · rfl
  · rfl
  · show _ = (optional separator >>= _) _
    rw [bind_apply, optional]
    dsimp only
    split <;> rfl

theorem scalar_advances : Advances scalar := one_advances _

def elements : Skip Unit := do
  separated scalar scalar_advances (.punctuation .comma)
  kind (.punctuation .closeBracket)

/-- Behind a value it is the same to look for a comma first and to look for the bracket first. -/
theorem elements_eq_bind : elements = (do
    scalar
    if ← optional (.punctuation .closeBracket) then return ()
    kind (.punctuation .comma)
    elements : Skip Unit) := by
  funext ahead
  rw [elements, bind_apply, bind_apply, separated_eq]
  rcases scalar ahead with _ | ⟨⟨⟩, _ | ⟨lexeme, rest⟩⟩
  · rfl
  · rfl
  · have hkind : ∀ k, kind k (lexeme :: rest) =
        if lexeme.kind = k then some ((), rest) else none := by simp [kind, one]
    show _ = (optional (.punctuation .closeBracket) >>= _) _
    rw [bind_apply, optional]
    dsimp only
    by_cases hclose : lexeme.kind = .punctuation .closeBracket
    · rw [if_pos hclose, hclose, if_neg (by simp)]
      show kind (.punctuation .closeBracket) (lexeme :: rest) = some ((), rest)
      rw [hkind, if_pos hclose]
    · rw [if_neg hclose]
      show _ = (kind (.punctuation .comma) >>= fun _ => elements) (lexeme :: rest)
      rw [bind_apply, hkind]
      by_cases hcomma : lexeme.kind = .punctuation .comma
      · rw [if_pos hcomma, if_pos hcomma]
        rfl
      · rw [if_neg hcomma, if_neg hcomma]
        show kind (.punctuation .closeBracket) (lexeme :: rest) = none
        rw [hkind, if_neg hclose]

end Skip

namespace Walk

theorem outcome_bind (walk : Walk α) (further : α → Walk β) (place : Nat) :
    (walk >>= further).outcome place =
      match walk.outcome place with
      | none => none
      | some (none, stop) => some (none, stop)
      | some (some value, stop) => (further value).outcome stop := by
  unfold outcome
  rw [OptionT.run_bind]
  show (walk.run.run place).bind _ = _
  rcases walk.run.run place with _ | ⟨_ | value, stop⟩ <;> rfl

@[simp] theorem outcome_pure (value : α) (place : Nat) :
    (pure value : Walk α).outcome place = some (some value, place) := rfl

theorem outcome_checked {find? : Nat → Option α} {place : Nat} {found : α}
    (h : find? place = some found) : (checked find?).outcome place = some (some found, place) := by
  show (find? place).map _ = _
  rw [h]
  rfl

/-- From a place of a text on, a walk goes as a skip over the lexemes behind that place. -/
def FollowsAt (text : List Char) (place : Nat) (walk : Walk α) (skip : Skip α) : Prop :=
  (skip ((lexemes text).drop (place + 1)) = none ∧
      ∃ stop, walk.outcome place = some (none, stop)) ∨
    ∃ value stop, stop < (lexemes text).length ∧
      skip ((lexemes text).drop (place + 1)) = some (value, (lexemes text).drop (stop + 1)) ∧
      walk.outcome place = some (some value, stop)

def Follows (text : List Char) (walk : Walk α) (skip : Skip α) : Prop :=
  ∀ place < (lexemes text).length, FollowsAt text place walk skip

variable {text : List Char} {place : Nat}

/-- A walk that goes as another one does from here, or from the place of a lexeme farther on. -/
theorem FollowsAt.congr {walk walk' : Walk α} {skip skip' : Skip α} {place' : Nat}
    (h : FollowsAt text place' walk skip) (hwalk : walk'.outcome place = walk.outcome place')
    (hskip : skip' ((lexemes text).drop (place + 1)) = skip ((lexemes text).drop (place' + 1))) :
    FollowsAt text place walk' skip' := by
  rwa [FollowsAt, hwalk, hskip]

theorem FollowsAt.bind {walk : Walk α} {skip : Skip α} {further : α → Walk β} {next : α → Skip β}
    (h : FollowsAt text place walk skip)
    (hnext : ∀ value stop, stop < (lexemes text).length →
      skip ((lexemes text).drop (place + 1)) = some (value, (lexemes text).drop (stop + 1)) →
      FollowsAt text stop (further value) (next value)) :
    FollowsAt text place (walk >>= further) (skip >>= next) := by
  rw [FollowsAt, outcome_bind, Skip.bind_apply]
  rcases h with ⟨hskip, stop, hwalk⟩ | ⟨value, stop, hstop, hskip, hwalk⟩
  · rw [hskip, hwalk]
    exact .inl ⟨rfl, stop, rfl⟩
  · rw [hskip, hwalk]
    exact hnext value stop hstop hskip

theorem Follows.bind {walk : Walk α} {skip : Skip α} {further : α → Walk β} {next : α → Skip β}
    (h : Follows text walk skip) (hnext : ∀ value, Follows text (further value) (next value)) :
    Follows text (walk >>= further) (skip >>= next) :=
  fun place hplace => (h place hplace).bind fun value stop hstop _ => hnext value stop hstop

theorem follows_pure (value : α) : Follows text (pure value : Walk α) (pure value : Skip α) :=
  fun place hplace => .inr ⟨value, place, hplace, rfl, rfl⟩

/-- The next lexeme is the end if no lexeme is left, and otherwise the first of those that are. -/
theorem next_cases (h : place < (lexemes text).length) :
    (lexemes text).drop (place + 1) = [] ∧ (next (.ofText text)).outcome place =
        some (some ⟨.endOfInput, [], byteLength text⟩, place) ∨
      ∃ lexeme ∈ lexemes text, place + 1 < (lexemes text).length ∧
        (lexemes text).drop (place + 1) = lexeme :: (lexemes text).drop (place + 2) ∧
        (next (.ofText text)).outcome place = some (some lexeme, place) ∧
        (Stream.ofText text).get? (place + 1) = some lexeme := by
  have hget := Stream.get?_ofText h
  rcases hahead : (lexemes text).drop (place + 1) with _ | ⟨lexeme, rest⟩
  · rw [hahead] at hget
    exact .inl ⟨rfl, outcome_checked hget⟩
  · rw [hahead] at hget
    have hlt : place + 1 < (lexemes text).length := by
      have hlength := congrArg List.length hahead
      rw [List.length_drop, List.length_cons] at hlength
      omega
    rw [List.drop_eq_getElem_cons hlt] at hahead
    obtain ⟨rfl, rfl⟩ := List.cons.inj hahead
    exact .inr ⟨_, List.getElem_mem hlt, hlt, rfl, outcome_checked hget, hget⟩

theorem outcome_one {p : Lexeme → Bool} {stream : Stream} {lexeme : Lexeme}
    (hnext : (next stream).outcome place = some (some lexeme, place)) :
    (one stream p).outcome place =
      if p lexeme then some (some (), place + 1) else some (none, place) := by
  rw [one, outcome_bind, hnext]
  dsimp only
  split <;> rfl

theorem outcome_optional {kind : TokenKind} {stream : Stream} {lexeme : Lexeme}
    (hnext : (next stream).outcome place = some (some lexeme, place)) :
    (optional stream kind).outcome place =
      if lexeme.kind = kind then some (some true, place + 1) else some (some false, place) := by
  rw [optional, outcome_bind, hnext]
  dsimp only
  split <;> rfl

theorem follows_one {p : Lexeme → Bool} (hp : p ⟨.endOfInput, [], byteLength text⟩ = false) :
    Follows text (one (.ofText text) p) (Skip.one p) := by
  intro place hplace
  rcases next_cases hplace with ⟨hahead, hnext⟩ | ⟨lexeme, -, hlt, hahead, hnext, -⟩
  · rw [FollowsAt, outcome_one hnext, hahead, hp]
    exact .inl ⟨rfl, place, rfl⟩
  · rw [FollowsAt, outcome_one hnext, hahead, Skip.one]
    split
    · exact .inr ⟨(), place + 1, hlt, rfl, rfl⟩
    · exact .inl ⟨rfl, place, rfl⟩

theorem follows_kind {kind : TokenKind} (hkind : kind ≠ .endOfInput) :
    Follows text (Walk.kind (.ofText text) kind) (Skip.kind kind) :=
  follows_one (by simpa using hkind.symm)

theorem follows_optional {kind : TokenKind} (hkind : kind ≠ .endOfInput) :
    Follows text (optional (.ofText text) kind) (Skip.optional kind) := by
  intro place hplace
  rcases next_cases hplace with ⟨hahead, hnext⟩ | ⟨lexeme, -, hlt, hahead, hnext, -⟩
  · rw [FollowsAt, outcome_optional hnext, if_neg hkind.symm, hahead]
    exact .inr ⟨false, place, hplace, by rw [hahead]; rfl, rfl⟩
  · rw [FollowsAt, outcome_optional hnext, hahead, Skip.optional]
    split
    · exact .inr ⟨true, place + 1, hlt, rfl, rfl⟩
    · exact .inr ⟨false, place, hplace, by rw [hahead], rfl⟩

theorem follows_string : Follows text (string (.ofText text))
    (Skip.one fun lexeme => lexeme.kind = .string && !lexeme.isUnterminated) := by
  intro place hplace
  rcases next_cases hplace with ⟨hahead, hnext⟩ | ⟨lexeme, hmem, hlt, hahead, hnext, hget⟩
  · rw [FollowsAt, string, outcome_bind, kind, outcome_one hnext, hahead]
    exact .inl ⟨rfl, place, rfl⟩
  · rw [FollowsAt, string, outcome_bind, kind, outcome_one hnext, hahead, Skip.one]
    by_cases hstring : lexeme.kind = .string
    · have hopen : (checked fun place => (Stream.ofText text).get? place >>=
          (Stream.ofText text).isUnterminated?).outcome (place + 1) =
            some (some lexeme.isUnterminated, place + 1) := by
        refine outcome_checked ?_
        rw [hget]
        exact Stream.isUnterminated?_ofText hmem
      simp only [hstring, decide_true, if_true, Bool.true_and, outcome_bind, hopen]
      cases lexeme.isUnterminated with
      | true => exact .inl ⟨rfl, place + 1, rfl⟩
      | false => exact .inr ⟨(), place + 1, hlt, rfl, rfl⟩
    · simp only [hstring, decide_false, Bool.false_and]
      exact .inl ⟨rfl, place, rfl⟩

theorem follows_scalar : Follows text (scalar (.ofText text)) Skip.scalar := by
  intro place hplace
  rcases next_cases hplace with ⟨hahead, hnext⟩ | ⟨lexeme, hmem, hlt, hahead, hnext, hget⟩
  · rw [FollowsAt, scalar, outcome_bind, hnext, hahead]
    exact .inl ⟨rfl, place, rfl⟩
  · cases hkind : lexeme.kind with
    | string =>
        refine (follows_string place hplace).congr ?_ ?_
        · rw [scalar, outcome_bind, hnext]
          simp only [hkind]
        · rw [hahead, Skip.scalar, Skip.one, Skip.one]
          simp [hkind]
    | int | float =>
        rw [FollowsAt, scalar, outcome_bind, hnext, hahead, Skip.scalar, Skip.one]
        simp only [hkind]
        exact .inr ⟨(), place + 1, hlt, rfl, rfl⟩
    | _ =>
        rw [FollowsAt, scalar, outcome_bind, hnext, hahead, Skip.scalar, Skip.one]
        simp only [hkind]
        exact .inl ⟨rfl, place, rfl⟩

theorem lt_of_advances {skip : Skip α} (hskip : Skip.Advances skip) {value : α} {stop : Nat}
    (h : skip ((lexemes text).drop (place + 1)) =
      some (value, (lexemes text).drop (stop + 1))) : place < stop := by
  have hlt := hskip _ _ _ h
  simp only [List.length_drop] at hlt
  omega

theorem le_of_keeps {skip : Skip α} (hskip : Skip.Keeps skip) {value : α} {stop : Nat}
    (hplace : place < (lexemes text).length)
    (h : skip ((lexemes text).drop (place + 1)) =
      some (value, (lexemes text).drop (stop + 1))) : place ≤ stop := by
  have hle := hskip _ _ _ h
  simp only [List.length_drop] at hle
  omega

theorem follows_separatedFor {item : Walk α} {skip : Skip α} (hskip : Skip.Advances skip)
    {separator : TokenKind} (hseparator : separator ≠ .endOfInput) (h : Follows text item skip)
    {rounds : Nat} (hplace : place < (lexemes text).length)
    (hrounds : (lexemes text).length - place ≤ rounds) :
    FollowsAt text place (separatedFor (.ofText text) item separator rounds)
      (Skip.separated skip hskip separator) := by
  induction rounds generalizing place with
  | zero => omega
  | succ rounds ih =>
      rw [separatedFor, Skip.separated_eq_bind]
      refine (h place hplace).bind fun value stop hstop hsome => ?_
      refine (follows_optional hseparator stop hstop).bind fun more stop' hstop' hmore => ?_
      have hlt := lt_of_advances hskip hsome
      have hle := le_of_keeps (Skip.optional_keeps separator) hstop hmore
      cases more with
      | true => exact ih hstop' (by omega)
      | false => exact follows_pure value stop' hstop'

theorem follows_separated {item : Walk α} {skip : Skip α} (h : Follows text item skip)
    (hskip : Skip.Advances skip) {separator : TokenKind} (hseparator : separator ≠ .endOfInput) :
    Follows text (separated (.ofText text) item separator)
      (Skip.separated skip hskip separator) := by
  intro place hplace
  rw [separated, Stream.length_found_ofText]
  exact follows_separatedFor hskip hseparator h hplace (by omega)

theorem follows_elements {rounds : Nat} (hplace : place < (lexemes text).length)
    (hrounds : (lexemes text).length - place ≤ rounds) :
    FollowsAt text place (elements (.ofText text) rounds) Skip.elements := by
  induction rounds generalizing place with
  | zero => omega
  | succ rounds ih =>
      rw [elements, Skip.elements_eq_bind]
      refine (follows_scalar place hplace).bind fun _ stop hstop hsome => ?_
      refine (follows_optional (by simp) stop hstop).bind fun closed stop' hstop' hclosed => ?_
      have hlt := lt_of_advances Skip.scalar_advances hsome
      have hle := le_of_keeps (Skip.optional_keeps _) hstop hclosed
      cases closed with
      | true => exact follows_pure () stop' hstop'
      | false =>
          refine (follows_kind (by simp) stop' hstop').bind fun _ further hfurther hcomma => ?_
          have hlt' := lt_of_advances (Skip.kind_advances _) hcomma
          exact ih hfurther (by omega)

theorem follows_array : Follows text (array (.ofText text)) Skip.array := by
  refine (follows_optional (by simp)).bind fun closed => ?_
  cases closed with
  | true => exact follows_pure ()
  | false =>
      intro place hplace
      refine follows_elements hplace ?_
      rw [Stream.length_found_ofText]
      omega

theorem follows_timestamp : Follows text (timestamp (.ofText text)) Skip.timestamp :=
  (follows_kind (by simp)).bind fun _ => follows_string.bind fun _ => follows_kind (by simp)

theorem follows_value : Follows text (value (.ofText text)) Skip.value := by
  intro place hplace
  rcases next_cases hplace with ⟨hahead, hnext⟩ | ⟨lexeme, hmem, hlt, hahead, hnext, hget⟩
  · refine (follows_scalar place hplace).congr ?_ ?_
    · rw [value, outcome_bind, hnext]
    · rw [hahead]
      rfl
  · have hwalk : (value (.ofText text)).outcome place = (match lexeme.kind with
        | .punctuation .openBracket => do advance; array (.ofText text)
        | .word => if isTimestampName lexeme.literal then
            (do advance; timestamp (.ofText text)) else failure
        | _ => scalar (.ofText text) : Walk Unit).outcome place := by
      rw [value, outcome_bind, hnext]
    by_cases hopen : lexeme.kind = .punctuation .openBracket
    · refine (follows_array (place + 1) hlt).congr ?_ ?_
      · rw [hwalk, hopen]
        rfl
      · rw [hahead, Skip.value, hopen]
    · by_cases hword : lexeme.kind = .word
      · by_cases hname : isTimestampName lexeme.literal = true
        · refine (follows_timestamp (place + 1) hlt).congr ?_ ?_
          · rw [hwalk, hword]
            dsimp only
            rw [if_pos hname]
            rfl
          · rw [hahead, Skip.value, hword]
            exact if_pos hname
        · rw [FollowsAt, hwalk, hahead, Skip.value, hword]
          dsimp only
          rw [if_neg hname, if_neg hname]
          exact .inl ⟨rfl, place, rfl⟩
      · refine (follows_scalar place hplace).congr ?_ ?_
        · rw [hwalk]
          split <;> first | rfl | contradiction
        · rw [hahead, Skip.value]
          split <;> first | rfl | contradiction

theorem follows_filter : Follows text (filter (.ofText text)) Skip.filter :=
  (follows_kind (by simp)).bind fun _ => (follows_one rfl).bind fun _ => follows_value

theorem follows_ordering : Follows text (ordering (.ofText text)) Skip.ordering := by
  refine (follows_kind (by simp)).bind fun _ => ?_
  refine (follows_optional (by simp)).bind fun ascending => ?_
  cases ascending with
  | true => exact follows_pure true
  | false => exact follows_optional (by simp)

theorem eq_of_openWord? {cursor : Nat} {lexeme word : Lexeme} {rest : List Lexeme}
    (h : Context.openWord? cursor (lexeme :: rest) = some word) :
    word = lexeme ∧ lexeme.kind = .word := by
  cases rest with
  | nil =>
      rw [Context.openWord?] at h
      split at h
      · rename_i hopen
        cases h
        exact ⟨rfl, hopen.1⟩
      · cases h
  | cons _ _ => cases h

/-- The part that was typed of the next word, if it is the only lexeme that is left. -/
def typedOf (text : List Char) (ahead : List Lexeme) : Option String :=
  if ahead = [] then some ""
  else (Context.openWord? (byteLength text) ahead).map Lexeme.literal

theorem typedOf_eq_none {lexeme : Lexeme} {ahead : List Lexeme} (h : lexeme.kind ≠ .word) :
    typedOf text (lexeme :: ahead) = none := by
  rw [typedOf, if_neg (List.cons_ne_nil _ _), Option.map_eq_none_iff,
    Option.eq_none_iff_forall_ne_some]
  exact fun word hword => h (eq_of_openWord? hword).2

theorem outcome_typed (h : place < (lexemes text).length) : (typed (.ofText text)).outcome place =
    some (some (typedOf text ((lexemes text).drop (place + 1))), place) := by
  have hopen : (nextIsOpen (.ofText text)).outcome place = _ :=
    outcome_checked (Stream.isOpen?_ofText h)
  rw [typed, outcome_bind]
  rcases next_cases h with ⟨hahead, hnext⟩ | ⟨lexeme, hmem, hlt, hahead, hnext, hget⟩
  · rw [hnext, hahead]
    rfl
  · have hkind := kind_ne_endOfInput (hmem : lexeme ∈ lexemesFrom true 0 text)
    rw [hahead] at hopen ⊢
    rw [hnext]
    dsimp only
    rw [if_neg hkind, typedOf, if_neg (List.cons_ne_nil _ _)]
    show (nextIsOpen (.ofText text) >>= _).outcome place = _
    rw [outcome_bind, hopen]
    cases hword : Context.openWord? (byteLength text) _ with
    | none => simp
    | some word =>
        obtain ⟨rfl, hkind⟩ := eq_of_openWord? hword
        simp [hkind]

/-- From a place on, a walk finds what may be typed at the end of the text. It is nothing if the
walk gives up. -/
def Finds (place : Nat) (walk : Walk Context) (context : Context) : Prop :=
  ∃ found stop, walk.outcome place = some (found, stop) ∧ found.getD .nothing = context

theorem finds_pure (place : Nat) (context : Context) : Finds place (pure context) context :=
  ⟨some context, place, rfl, rfl⟩

theorem finds_failure (place : Nat) : Finds place failure .nothing := ⟨none, place, rfl, rfl⟩

theorem finds_bind {walk : Walk α} {further : α → Walk Context} {value : α} {stop : Nat}
    {context : Context} (hwalk : walk.outcome place = some (some value, stop))
    (hfurther : Finds stop (further value) context) : Finds place (walk >>= further) context := by
  rwa [Finds, outcome_bind, hwalk]

/-- What comes behind the end of a clause, or else why the clause has no end. -/
def rest (cursor : Nat) (later : List Clause) :
    Except Context (List Offer × List Lexeme) → Context
  | .error context => context
  | .ok (offers, ahead) => Context.clauses cursor offers later ahead

theorem finds_finish {walk : Walk α} {skip : Skip α} {further : α → Walk Context}
    {offers : α → List Offer} {later : List Clause} (h : FollowsAt text place walk skip)
    (hfurther : ∀ value stop, stop < (lexemes text).length →
      Finds stop (further value) (Context.clauses (byteLength text) (offers value) later
        ((lexemes text).drop (stop + 1)))) :
    Finds place (walk >>= further) (rest (byteLength text) later
      (Context.clause.finish offers (skip ((lexemes text).drop (place + 1))))) := by
  rw [Finds, outcome_bind]
  rcases h with ⟨hskip, stop, hwalk⟩ | ⟨value, stop, hstop, hskip, hwalk⟩
  · rw [hskip, hwalk]
    exact ⟨none, stop, rfl, rfl⟩
  · rw [hskip, hwalk]
    exact hfurther value stop hstop

theorem clauses_of_typed {ahead : List Lexeme} {typed : String}
    (h : typedOf text ahead = some typed) (offers : List Offer) (later : List Clause) :
    Context.clauses (byteLength text) offers later ahead =
      .words (offers ++ later.map Clause.offer) typed := by
  cases ahead with
  | nil =>
      cases h
      exact Context.clauses_nil offers later
  | cons lexeme ahead =>
      obtain ⟨word, hword, rfl⟩ := Option.map_eq_some_iff.mp h
      exact Context.clauses_of_open hword offers later

theorem clauses_of_not_typed {lexeme : Lexeme} {ahead : List Lexeme}
    (h : typedOf text (lexeme :: ahead) = none) (offers : List Offer) (later : List Clause) :
    Context.clauses (byteLength text) offers later (lexeme :: ahead) =
      match Clause.find? lexeme.kind later with
      | none => .nothing
      | some (found, later) =>
          rest (byteLength text) later (Context.clause (byteLength text) found ahead) := by
  rw [Context.clauses_of_not_open (Option.map_eq_none_iff.mp h)]
  rfl

theorem clause_order_eq (ahead : List Lexeme) :
    Context.clause (byteLength text) .order ahead =
      match typedOf text ahead with
      | some typed => .error (.words [byOffer] typed)
      | none => Context.clause.finish
          (fun directed => if directed then [] else [ascOffer, descOffer]) ((do
            Skip.kind (.keyword .byWord)
            Skip.separated Skip.ordering Skip.ordering_advances (.punctuation .comma) :
            Skip Bool) ahead) := by
  cases ahead with
  | nil => rfl
  | cons lexeme ahead =>
      rw [typedOf, if_neg (List.cons_ne_nil _ _)]
      cases hopen : Context.openWord? (byteLength text) (lexeme :: ahead) <;>
        simp only [Context.clause, hopen, Option.map]

theorem finds_order {further : List Offer → Walk Context} {later : List Clause}
    (hplace : place < (lexemes text).length)
    (hfurther : ∀ offers stop, stop < (lexemes text).length →
      Finds stop (further offers) (Context.clauses (byteLength text) offers later
        ((lexemes text).drop (stop + 1)))) :
    Finds place (clause (.ofText text) .order further) (rest (byteLength text) later
      (Context.clause (byteLength text) .order ((lexemes text).drop (place + 1)))) := by
  -- The walk looks for the second word first and for what is typed of it second. It is no word
  -- that may be typed further, so it is the same the other way round.
  have htyped := outcome_typed hplace
  rw [clause_order_eq]
  rcases next_cases hplace with ⟨hahead, hnext⟩ | ⟨lexeme, -, hlt, hahead, hnext, -⟩
  · rw [hahead] at htyped ⊢
    refine finds_bind (outcome_optional hnext) ?_
    exact finds_bind htyped (finds_pure place _)
  · have hoptional : (optional (.ofText text) (.keyword .byWord)).outcome place = _ :=
      outcome_optional hnext
    have hskip : ∀ skip : Skip Bool, (Skip.kind (.keyword .byWord) >>= fun _ => skip)
        (lexeme :: (lexemes text).drop (place + 2)) =
          if lexeme.kind = .keyword .byWord then skip ((lexemes text).drop (place + 2))
          else none := by
      intro skip
      rw [Skip.bind_apply, Skip.kind, Skip.one]
      by_cases hby : lexeme.kind = .keyword .byWord <;> simp [hby]
    rw [hahead] at htyped ⊢
    rw [hskip]
    by_cases hby : lexeme.kind = .keyword .byWord
    · rw [if_pos hby] at hoptional ⊢
      rw [typedOf_eq_none (by simp [hby])]
      refine finds_bind hoptional (finds_finish ?_ fun directed stop hstop => ?_)
      · exact follows_separated follows_ordering _ (by simp) _ hlt
      · exact hfurther _ stop hstop
    · rw [if_neg hby] at hoptional ⊢
      refine finds_bind hoptional (finds_bind htyped ?_)
      cases typedOf text (lexeme :: (lexemes text).drop (place + 2)) with
      | some typed => exact finds_pure place _
      | none => exact finds_failure place

theorem finds_clause (opened : Clause) {further : List Offer → Walk Context} {later : List Clause}
    (hplace : place < (lexemes text).length)
    (hfurther : ∀ offers stop, stop < (lexemes text).length →
      Finds stop (further offers) (Context.clauses (byteLength text) offers later
        ((lexemes text).drop (stop + 1)))) :
    Finds place (clause (.ofText text) opened further) (rest (byteLength text) later
      (Context.clause (byteLength text) opened ((lexemes text).drop (place + 1)))) := by
  cases opened with
  | select =>
      have hfields : Follows text _ (Skip.kind .word) := follows_kind (by simp)
      exact finds_finish (follows_separated hfields _ (by simp) place hplace)
        fun _ => hfurther []
  | filter =>
      exact finds_finish (follows_separated follows_filter _ (by simp) place hplace)
        fun _ => hfurther [andOffer]
  | order => exact finds_order hplace hfurther
  | limit => exact finds_finish (follows_kind (by simp) place hplace) fun _ => hfurther []

theorem finds_clauses {table : List Clause} (hnodup : table.Nodup) {rounds first : Nat}
    (offers : List Offer) (hfirst : first ≤ table.length) (hrounds : table.length - first < rounds)
    (hplace : place < (lexemes text).length) :
    Finds place (clauses (.ofText text) table rounds first offers)
      (Context.clauses (byteLength text) offers (table.drop first)
        ((lexemes text).drop (place + 1))) := by
  induction rounds generalizing first offers place with
  | zero => omega
  | succ rounds ih =>
      rw [clauses]
      refine finds_bind (outcome_checked (if_pos hfirst)) (finds_bind (outcome_typed hplace) ?_)
      cases htyped : typedOf text ((lexemes text).drop (place + 1)) with
      | some typed =>
          rw [clauses_of_typed htyped]
          exact finds_pure place _
      | none =>
          rcases next_cases hplace with ⟨hahead, -⟩ | ⟨lexeme, -, hlt, hahead, hnext, -⟩
          · rw [hahead] at htyped
            cases htyped
          · rw [hahead] at htyped ⊢
            rw [clauses_of_not_typed htyped]
            refine finds_bind hnext ?_
            cases hindex : Clause.index? lexeme.kind table with
            | none =>
                have hnone := Clause.index?_eq_none_iff.mp hindex
                rw [Clause.find?_eq_none fun opened hmem =>
                  hnone opened (List.mem_of_mem_drop hmem)]
                exact finds_failure place
            | some found =>
                obtain ⟨opened, hfound, hopener⟩ := (Clause.index?_eq_some_iff hnodup).mp hindex
                have hlength := (List.getElem?_eq_some_iff.mp hfound).1
                rw [← hopener, Clause.find?_drop hnodup hfound]
                by_cases hpast : found < first
                · rw [if_neg (by omega)]
                  simp only [if_pos hpast]
                  exact finds_failure place
                · rw [if_pos (by omega)]
                  simp only [if_neg hpast]
                  refine finds_bind rfl (finds_bind (outcome_checked hfound) ?_)
                  exact finds_clause opened hlt fun offers stop hstop =>
                    ih offers (by omega) (by omega) hstop

theorem finds_path (request : Request) (hplace : place < (lexemes text).length) :
    Finds place (path (.ofText text) request)
      (Context.path (byteLength text) request ((lexemes text).drop (place + 1))) := by
  have hopen : (nextIsOpen (.ofText text)).outcome place = _ :=
    outcome_checked (Stream.isOpen?_ofText hplace)
  rcases next_cases hplace with ⟨hahead, hnext⟩ | ⟨lexeme, -, hlt, hahead, hnext, -⟩
  · rw [hahead]
    exact finds_bind hnext (finds_failure place)
  · rw [hahead] at hopen ⊢
    refine finds_bind hnext ?_
    cases hword : Context.openWord? (byteLength text)
        (lexeme :: (lexemes text).drop (place + 2)) with
    | some word =>
        obtain ⟨rfl, hkind⟩ := eq_of_openWord? hword
        rw [hword] at hopen
        rw [Context.path.eq_def, hword]
        simp only [hkind, ne_eq, not_true_eq_false, if_false]
        exact finds_bind hopen (finds_pure place _)
    | none =>
        rw [hword] at hopen
        rw [Context.path.eq_def, hword]
        by_cases hkind : lexeme.kind = .word
        · simp only [hkind, ne_eq, not_true_eq_false, if_false, if_true]
          exact finds_bind hopen (finds_bind rfl
            (finds_clauses request.nodup_clauses [] (Nat.zero_le _) (by omega) hlt))
        · simp only [hkind, ne_eq, not_false_eq_true, if_true, if_false]
          exact finds_failure place

theorem finds_root (text : List Char) : Finds 0 (root (.ofText text)) (Context.ofText text) := by
  have hget : (Stream.ofText text).get? 0 = _ := Stream.get?_ofText (Nat.zero_le _)
  have hopen : (Stream.ofText text).isOpen? 0 = _ := Stream.isOpen?_ofText (Nat.zero_le _)
  rw [List.drop_zero] at hget hopen
  rw [Context.ofText]
  refine finds_bind (outcome_checked hget) (finds_bind (outcome_checked hopen) ?_)
  cases hlexemes : lexemes text with
  | nil => exact finds_failure 0
  | cons lexeme ahead =>
      cases hword : Context.openWord? (byteLength text) (lexeme :: ahead) with
      | some word =>
          obtain ⟨rfl, -⟩ := eq_of_openWord? hword
          rw [Context.ofLexemes.eq_def, hword]
          exact finds_pure 0 _
      | none =>
          rw [Context.ofLexemes.eq_def, hword]
          simp only [Option.isSome_none, Bool.false_eq_true, if_false, List.headD_cons]
          cases Request.ofKind? lexeme.kind with
          | none => exact finds_failure 0
          | some request =>
              have hahead : (lexemes text).drop 1 = ahead := by rw [hlexemes, List.drop_one]; rfl
              rw [← hahead]
              exact finds_path request (by simp [hlexemes])

end Walk

theorem Stream.context?_ofText (text : List Char) :
    (Stream.ofText text).context? = some (Context.ofText text) := by
  obtain ⟨found, stop, hroot, hfound⟩ := Walk.finds_root text
  rw [context?, hroot, ← hfound]
  rfl

end DocShell.Completion
