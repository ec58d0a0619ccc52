import DocShell.Proofs.LastWord
import DocShell.Proofs.Likeness

/-!
The completer passes over lexemes one by one and looks no further than at the next one.
Main statements: lexemes that stand later, by as much as the cursor does, are completed alike, and
a word behind lexemes completes what may be typed behind them.
-/

namespace DocShell.Completion

open DocShell.Query

variable {α β : Type}

namespace Skip

/-- The kind of the next lexeme. Where there is none it is as if a word came, for no skip looks for
a word where it may as well stop. -/
def nextKind (ahead : List Lexeme) : TokenKind := (ahead.head?.map Lexeme.kind).getD .word

/-- A success that rests on the lexemes that were passed over, none of them an open string, and on
the kind of the next one. -/
def RestsOnKinds (skip : Skip α) (ahead : List Lexeme) (value : α) (rest : List Lexeme) : Prop :=
  ∃ front, ahead = front ++ rest ∧ (∀ lexeme ∈ front, lexeme.isUnterminated = false) ∧
    ∀ rest', nextKind rest' = nextKind rest → skip (front ++ rest') = some (value, rest')

def Regular (skip : Skip α) : Prop :=
  ∀ ahead value rest, skip ahead = some (value, rest) → RestsOnKinds skip ahead value rest

theorem regular_pure (value : α) : Regular (pure value : Skip α) := by
  intro ahead found rest h
  cases h
  exact ⟨[], rfl, by simp, fun _ _ => rfl⟩

theorem bind_of_some {skip : Skip α} {next : α → Skip β} {ahead middle : List Lexeme} {value : α}
    (h : skip ahead = some (value, middle)) : (skip >>= next) ahead = next value middle := by
  rw [bind_apply, h]
  rfl

theorem Regular.bind {skip : Skip α} {next : α → Skip β} (h : Regular skip)
    (hnext : ∀ value, Regular (next value)) : Regular (skip >>= next) := by
  intro ahead value rest hrun
  obtain ⟨first, middle, hfirst, hsecond⟩ := bind_eq_some hrun
  obtain ⟨front, rfl, hfinished, hfront⟩ := h _ _ _ hfirst
  obtain ⟨back, rfl, hfinished', hback⟩ := hnext first _ _ _ hsecond
  refine ⟨front ++ back, by simp, List.forall_mem_append.mpr ⟨hfinished, hfinished'⟩,
    fun rest' hrest => ?_⟩
  have hmiddle : nextKind (back ++ rest') = nextKind (back ++ rest) := by
    cases back with
    | nil => exact hrest
    | cons lexeme back => rfl
  rw [List.append_assoc, bind_of_some (hfront _ hmiddle)]
  exact hback rest' hrest

theorem RestsOnKinds.cons {skip skip' : Skip α} {lexeme : Lexeme} {tail rest : List Lexeme}
    {value : α} (h : RestsOnKinds skip' tail value rest)
    (hfinished : lexeme.isUnterminated = false)
    (hrun : ∀ tail, skip (lexeme :: tail) = skip' tail) :
    RestsOnKinds skip (lexeme :: tail) value rest := by
  obtain ⟨front, rfl, hfront, hsame⟩ := h
  exact ⟨lexeme :: front, rfl, List.forall_mem_cons.mpr ⟨hfinished, hfront⟩,
    fun rest' hrest => (hrun _).trans (hsame rest' hrest)⟩

theorem isUnterminated_of_kind_ne {lexeme : Lexeme} (h : lexeme.kind ≠ .string) :
    lexeme.isUnterminated = false :=
  Bool.eq_false_iff.mpr fun hopen => h (Lexeme.kind_of_isUnterminated hopen)

theorem regular_one {p : Lexeme → Bool}
    (hfinished : ∀ lexeme, p lexeme = true → lexeme.isUnterminated = false) :
    Regular (one p) := by
  intro ahead value rest hrun
  obtain ⟨lexeme, hlexeme, rfl⟩ := one_eq_some hrun
  have hrest := regular_pure () rest _ _ rfl
  exact hrest.cons (hfinished lexeme hlexeme) fun tail => if_pos hlexeme

theorem regular_kind {kind : TokenKind} (hkind : kind ≠ .string) : Regular (Skip.kind kind) :=
  regular_one fun lexeme hlexeme =>
    isUnterminated_of_kind_ne (by simpa [of_decide_eq_true hlexeme] using hkind)

theorem optional_of_nextKind {kind : TokenKind} {ahead : List Lexeme}
    (h : nextKind ahead ≠ kind) : optional kind ahead = some (false, ahead) := by
  cases ahead with
  | nil => rfl
  | cons lexeme tail => exact if_neg h

theorem regular_optional {kind : TokenKind} (hstring : kind ≠ .string) (hword : kind ≠ .word) :
    Regular (optional kind) := by
  intro ahead value rest hrun
  by_cases hnext : nextKind ahead = kind
  · cases ahead with
    | nil => exact absurd hnext.symm hword
    | cons lexeme tail =>
        have hkind : lexeme.kind = kind := hnext
        have hread : optional kind (lexeme :: tail) = some (true, tail) := if_pos hkind
        rw [hread, Option.some.injEq, Prod.mk.injEq] at hrun
        obtain ⟨rfl, rfl⟩ := hrun
        have hrest := regular_pure true tail _ _ rfl
        exact hrest.cons (isUnterminated_of_kind_ne (hkind ▸ hstring)) fun tail => if_pos hkind
  · cases (optional_of_nextKind hnext).symm.trans hrun
    exact ⟨[], rfl, by simp, fun rest' hrest => optional_of_nextKind (hrest.trans_ne hnext)⟩

section Separated

variable {item : Skip α} (hitem : Advances item) {separator : TokenKind}
  {ahead rest : List Lexeme} {value : α}

theorem separated_of_nextKind (h : item ahead = some (value, rest))
    (hnext : nextKind rest ≠ separator) :
    separated item hitem separator ahead = some (value, rest) := by
  rw [separated_eq, h]
  cases rest with
  | nil => rfl
  | cons lexeme tail => exact if_neg hnext

theorem separated_of_kind {lexeme : Lexeme} (h : item ahead = some (value, lexeme :: rest))
    (hkind : lexeme.kind = separator) :
    separated item hitem separator ahead = separated item hitem separator rest := by
  rw [separated_eq, h]
  exact if_pos hkind

end Separated

theorem Regular.separated {item : Skip α} {hitem : Advances item} {separator : TokenKind}
    (h : Regular item) (hstring : separator ≠ .string) (hword : separator ≠ .word) :
    Regular (separated item hitem separator) := by
  intro ahead value rest hrun
  fun_induction Skip.separated item hitem separator ahead with
  | case1 => cases hrun
  | case2 ahead first hfirst =>
      cases hrun
      obtain ⟨front, rfl, hfinished, hsame⟩ := h _ _ _ hfirst
      exact ⟨front, rfl, hfinished, fun rest' hrest =>
        separated_of_nextKind hitem (hsame rest' hrest) (hrest.trans_ne hword.symm)⟩
  | case3 ahead first lexeme tail hfirst hkind ih =>
      obtain ⟨front, rfl, hfinished, hsame⟩ := h _ _ _ hfirst
      obtain ⟨back, rfl, hfinished', hback⟩ := ih hrun
      refine ⟨front ++ lexeme :: back, by simp, ?_, fun rest' hrest => ?_⟩
      · exact List.forall_mem_append.mpr ⟨hfinished, List.forall_mem_cons.mpr
          ⟨isUnterminated_of_kind_ne (hkind ▸ hstring), hfinished'⟩⟩
      · have hitem' := hsame (lexeme :: (back ++ rest')) rfl
        rw [List.append_assoc, List.cons_append, separated_of_kind hitem hitem' hkind]
        exact hback rest' hrest
  | case4 ahead first lexeme tail hfirst hkind =>
      cases hrun
      obtain ⟨front, rfl, hfinished, hsame⟩ := h _ _ _ hfirst
      exact ⟨front, rfl, hfinished, fun rest' hrest =>
        separated_of_nextKind hitem (hsame rest' hrest) (hrest.trans_ne hkind)⟩

theorem regular_scalar : Regular scalar :=
  regular_one fun lexeme hlexeme => by
    by_cases hstring : lexeme.kind = .string
    · simpa [hstring] using hlexeme
    · exact isUnterminated_of_kind_ne hstring

theorem regular_array : Regular array := by
  refine (regular_optional (by simp) (by simp)).bind fun closed => ?_
  split
  · exact regular_pure _
  · exact (regular_scalar.separated (by simp) (by simp)).bind fun _ => regular_kind (by simp)

theorem regular_timestamp : Regular timestamp :=
  (regular_kind (by simp)).bind fun _ =>
    (regular_one fun lexeme hlexeme => by simp_all).bind fun _ =>
      regular_kind (by simp)

theorem regular_value : Regular value := by
  intro ahead found rest hrun
  cases ahead with
  | nil => cases hrun
  | cons lexeme tail =>
      unfold value at hrun
      dsimp only at hrun
      split at hrun
      · rename_i hkind
        refine (regular_array _ _ _ hrun).cons
          (isUnterminated_of_kind_ne (by simp [hkind])) fun tail => ?_
        simp only [value, hkind]
      · rename_i hkind
        split at hrun
        · rename_i hname
          refine (regular_timestamp _ _ _ hrun).cons
            (isUnterminated_of_kind_ne (by simp [hkind])) fun tail => ?_
          simp only [value, hkind, hname, if_true]
        · cases hrun
      · rename_i hbracket hword
        obtain ⟨front, hfront, hfinished, -⟩ := regular_scalar _ _ _ hrun
        obtain ⟨_, hlexeme, hcons⟩ := one_eq_some hrun
        obtain ⟨rfl, rfl⟩ := List.cons.inj hcons
        obtain rfl : [lexeme] = front := List.append_cancel_right hfront
        have hmem : lexeme ∈ [lexeme] := List.mem_singleton_self lexeme
        refine (regular_pure () tail _ _ rfl).cons (hfinished lexeme hmem) fun tail => ?_
        have hscalar : value (lexeme :: tail) = scalar (lexeme :: tail) := by
          unfold value
          dsimp only
          split
          · rename_i hkind
            exact absurd hkind hbracket
          · rename_i hkind
            exact absurd hkind hword
          · rfl
        exact hscalar.trans (if_pos hlexeme)

theorem regular_filter : Regular filter :=
  (regular_kind (by simp)).bind fun _ =>
    (regular_one fun lexeme hlexeme =>
      isUnterminated_of_kind_ne fun hkind => by simp [hkind, Operator.ofKind?] at hlexeme).bind
      fun _ => regular_value

theorem regular_ordering : Regular ordering := by
  refine (regular_kind (by simp)).bind fun _ =>
    (regular_optional (by simp) (by simp)).bind fun ascending => ?_
  split
  · exact regular_pure _
  · exact regular_optional (by simp) (by simp)

theorem regular_fields : Regular
    (separated (Skip.kind .word) (kind_advances _) (.punctuation .comma)) :=
  (regular_kind (by simp)).separated (by simp) (by simp)

theorem regular_filters : Regular (separated filter filter_advances (.keyword .andWord)) :=
  regular_filter.separated (by simp) (by simp)

theorem regular_orderings : Regular (do
    Skip.kind (.keyword .byWord)
    separated ordering ordering_advances (.punctuation .comma) : Skip Bool) :=
  (regular_kind (by simp)).bind fun _ => regular_ordering.separated (by simp) (by simp)

/-- A skip that stops before the end stops where it did if a word comes at the end. -/
theorem Regular.append_word {skip : Skip α} (h : Regular skip) {ahead rest : List Lexeme}
    {value : α} (hrun : skip ahead = some (value, rest)) {word : Lexeme}
    (hword : word.kind = .word) : ∃ front, ahead = front ++ rest ∧
      (∀ lexeme ∈ front, lexeme.isUnterminated = false) ∧
      skip (ahead ++ [word]) = some (value, rest ++ [word]) := by
  obtain ⟨front, rfl, hfinished, hsame⟩ := h _ _ _ hrun
  have hnext : nextKind (rest ++ [word]) = nextKind rest := by
    cases rest with
    | nil => exact hword
    | cons lexeme rest => rfl
  have hlonger := hsame _ hnext
  rw [← List.append_assoc] at hlonger
  exact ⟨front, rfl, hfinished, hlonger⟩

end Skip

namespace Context

variable {cursor : Nat}

/-- Lexemes that stand later are completed as the lexemes themselves. -/
theorem clauses_map_move (cursor shift : Nat) (offers : List Offer) (later : List Clause)
    (ahead : List Lexeme) :
    clauses (cursor + shift) offers later (ahead.map (Lexeme.move (· + shift))) =
      clauses cursor offers later ahead := by
  refine clauses_alike offers later (List.forall₂_map_right_iff.mpr ?_)
  refine List.forall₂_same.mpr fun lexeme _ => ⟨rfl, rfl, fun _ => rfl, fun _ => ?_⟩
  rw [Lexeme.stop_move_add, Nat.add_right_cancel_iff]

section Word

variable {cursor' : Nat} {word : Lexeme} (hword : word.kind = .word) (hstop : word.stop = cursor')

include hword

theorem finish_append_word {skip : Skip α} (h : Skip.Regular skip) (offers : α → List Offer)
    (ahead : List Lexeme) :
    clause.finish offers (skip ahead) = .error nothing ∨
      ∃ all front rest, ahead = front ++ rest ∧
        (∀ lexeme ∈ front, lexeme.isUnterminated = false) ∧
        clause.finish offers (skip ahead) = .ok (all, rest) ∧
        clause.finish offers (skip (ahead ++ [word])) = .ok (all, rest ++ [word]) := by
  cases hrun : skip ahead with
  | none => exact .inl rfl
  | some found =>
      obtain ⟨value, rest⟩ := found
      obtain ⟨front, hahead, hfinished, hlonger⟩ := h.append_word hrun hword
      exact .inr ⟨offers value, front, rest, hahead, hfinished, rfl, by rw [hlonger]; rfl⟩

include hstop

/-- A clause that is walked over is walked over in front of a word as well, and what completes a
clause is completed by the word. -/
theorem clause_append_word (opened : Clause) {ahead : List Lexeme} (hahead : Past cursor ahead) :
    clause cursor opened ahead = .error nothing ∨
      (∃ all front rest, ahead = front ++ rest ∧
        (∀ lexeme ∈ front, lexeme.isUnterminated = false) ∧
        clause cursor opened ahead = .ok (all, rest) ∧
        clause cursor' opened (ahead ++ [word]) = .ok (all, rest ++ [word])) ∨
      ahead = [] ∧ ∃ all, clause cursor opened ahead = .error (words all "") ∧
        clause cursor' opened (ahead ++ [word]) = .error (words all word.literal) := by
  unfold clause
  cases opened with
  | select =>
      exact (finish_append_word hword Skip.regular_fields _ ahead).imp_right .inl
  | filter =>
      exact (finish_append_word hword Skip.regular_filters _ ahead).imp_right .inl
  | limit =>
      exact (finish_append_word hword (Skip.regular_kind (by simp)) _ ahead).imp_right .inl
  | order =>
      cases ahead with
      | nil =>
          rw [List.nil_append, openWord?_word hword hstop]
          exact .inr (.inr ⟨rfl, [byOffer], rfl, rfl⟩)
      | cons lexeme rest =>
          rw [hahead.openWord?_eq_none, List.cons_append, openWord?_cons, ← List.cons_append]
          exact (finish_append_word hword Skip.regular_orderings _ (lexeme :: rest)).imp_right .inl

/-- What may be typed behind lexemes is what a word behind them completes, and none of them is an
open string. -/
theorem clauses_append_word (offers : List Offer) (later : List Clause) {ahead : List Lexeme}
    (hahead : Past cursor ahead) :
    clauses cursor offers later ahead = nothing ∨
      (∀ lexeme ∈ ahead, lexeme.isUnterminated = false) ∧
        ∃ all, clauses cursor offers later ahead = words all "" ∧
          clauses cursor' offers later (ahead ++ [word]) = words all word.literal := by
  induction hlength : later.length using Nat.strongRecOn generalizing offers later ahead with
  | ind length ih =>
      cases ahead with
      | nil =>
          refine .inr ⟨by simp, _, clauses_nil offers later, ?_⟩
          exact clauses_of_open (openWord?_word hword hstop) offers later
      | cons lexeme rest =>
          rw [List.cons_append, clauses_of_not_open hahead.openWord?_eq_none,
            clauses_of_not_open (openWord?_cons lexeme rest)]
          cases hfind : Clause.find? lexeme.kind later with
          | none => exact .inl rfl
          | some found =>
              obtain ⟨opened, later'⟩ := found
              have hshorter : later'.length < length := hlength ▸ Clause.find?_length hfind
              have hfinished : lexeme.isUnterminated = false := by
                refine Skip.isUnterminated_of_kind_ne ?_
                rw [← (Clause.find?_eq_some hfind).1]
                cases opened <;> simp [Clause.opener]
              have hrest : Past cursor rest := hahead.suffix (List.suffix_cons lexeme rest)
              rcases clause_append_word hword hstop opened hrest with
                hclause | ⟨all, front, back, rfl, hfront, hclause, hclause'⟩ |
                  ⟨rfl, all, hclause, hclause'⟩
              · simp only [hclause]
                exact .inl trivial
              · simp only [hclause, hclause']
                have hpast := hrest.suffix (List.suffix_append front back)
                rcases ih _ hshorter all later' hpast rfl with hnothing | ⟨hback, hsame⟩
                · exact .inl hnothing
                · exact .inr ⟨List.forall_mem_cons.mpr
                    ⟨hfinished, List.forall_mem_append.mpr ⟨hfront, hback⟩⟩, hsame⟩
              · simp only [hclause, hclause']
                exact .inr ⟨by simpa using hfinished, all, rfl, rfl⟩

theorem ofLexemes_append_word {ahead : List Lexeme} (hahead : Past cursor ahead) :
    ofLexemes cursor ahead = nothing ∨
      (∀ lexeme ∈ ahead, lexeme.isUnterminated = false) ∧
        ∃ all, ofLexemes cursor ahead = words all "" ∧
          ofLexemes cursor' (ahead ++ [word]) = words all word.literal := by
  rcases ofLexemes_cases hahead with
    hnothing | ⟨request, opener, name, rest, rfl, hopener, hname, hclauses⟩
  · exact .inl hnothing
  · have hrest : Past cursor rest := hahead.suffix ⟨[opener, name], rfl⟩
    have hlonger : ofLexemes cursor' (opener :: name :: (rest ++ [word])) = _ :=
      ofLexemes_request request (openWord?_cons name rest) hopener hname
    have hstring : request.opener ≠ .string := by cases request <;> simp [Request.opener]
    rw [List.cons_append, List.cons_append, hclauses, hlonger]
    refine (clauses_append_word hword hstop [] request.clauses hrest).imp_right fun hsome => ?_
    refine ⟨List.forall_mem_cons.mpr ⟨?_, List.forall_mem_cons.mpr ⟨?_, hsome.1⟩⟩, hsome.2⟩
    · exact Skip.isUnterminated_of_kind_ne (hopener ▸ hstring)
    · exact Skip.isUnterminated_of_kind_ne (by simp [hname])

end Word

end Context

end DocShell.Completion
