import DocShell.Proofs.Walk

namespace DocShell.Query

/-- Behind a lexeme of these kinds stands a field of a list. -/
def TokenKind.listsField : TokenKind → Bool
  | .keyword .select | .keyword .byWord | .punctuation .comma => true
  | _ => false

/-- Neither a word nor a lexeme behind which a word is a field. -/
def Lexeme.Closes (lexeme : Lexeme) : Prop :=
  lexeme.kind ≠ .word ∧ lexeme.kind.listsField = false

theorem Clause.eq_of_suffix_clauses {request : Request} {clause : Clause} {later : List Clause}
    (h : clause :: later <:+ request.clauses) :
    (clause = .select → later = [.filter, .order, .limit]) ∧ (clause = .order → later = [.limit]) := by
  cases request with
  | get => simp [Request.clauses] at h
  | count =>
      obtain ⟨rfl, rfl⟩ : clause = .filter ∧ later = [] := by
        simpa [Request.clauses, List.suffix_cons_iff] using h
      simp
  | query =>
      simp only [Request.clauses, List.suffix_cons_iff, List.suffix_nil, List.cons.injEq] at h
      rcases h with ⟨rfl, rfl⟩ | ⟨rfl, rfl⟩ | ⟨rfl, rfl⟩ | ⟨rfl, rfl⟩ | h <;> simp_all

end DocShell.Query

namespace DocShell.Completion

open DocShell.Query

variable {α β : Type}

/-- A word behind these lexemes is a field of a list. -/
def Lists (front : List Lexeme) : Prop := ∃ last ∈ front.getLast?, last.kind.listsField = true

theorem not_lists_nil : ¬Lists [] := by
  simp [Lists]

@[simp] theorem lists_concat {front : List Lexeme} {last : Lexeme} :
    Lists (front ++ [last]) ↔ last.kind.listsField = true := by
  simp [Lists]

theorem Lists.append {front : List Lexeme} (h : Lists front) (before : List Lexeme) :
    Lists (before ++ front) := by
  obtain ⟨last, hlast, hkind⟩ := h
  obtain ⟨init, rfl⟩ := List.getLast?_eq_some_iff.mp hlast
  rw [← List.append_assoc]
  exact lists_concat.mpr hkind

namespace Skip

/-- A skip passes over a lexeme or more. `P` says of the last one what it is, which stand in front
of it, and what the value is; `A` is what has to hold of those in front of the skip. -/
def Passes (A : List Lexeme → Prop) (skip : Skip α) (P : List Lexeme → Lexeme → α → Prop) : Prop :=
  ∀ before ahead value rest, A before → skip ahead = some (value, rest) →
    ∃ front last, ahead = front ++ last :: rest ∧ P (before ++ front) last value

variable {A B : List Lexeme → Prop} {P : List Lexeme → Lexeme → α → Prop}

theorem passes_one {p : Lexeme → Bool} {P : List Lexeme → Lexeme → Unit → Prop}
    (h : ∀ before lexeme, A before → p lexeme = true → P before lexeme ()) :
    Passes A (one p) P := by
  intro before ahead value rest hbefore hskip
  obtain ⟨lexeme, hlexeme, rfl⟩ := one_eq_some hskip
  exact ⟨[], lexeme, rfl, by simpa using h before lexeme hbefore hlexeme⟩

theorem Passes.bind {skip : Skip β} {R : List Lexeme → Lexeme → β → Prop} {next : β → Skip α}
    (h : Passes A skip R) (hmiddle : ∀ before last value, R before last value → B (before ++ [last]))
    (hnext : ∀ value, Passes B (next value) P) : Passes A (skip >>= next) P := by
  intro before ahead value rest hbefore hskip
  obtain ⟨first, middle, hfirst, hsecond⟩ := bind_eq_some hskip
  obtain ⟨front, last, rfl, hlast⟩ := h before _ _ _ hbefore hfirst
  obtain ⟨back, last', rfl, hlast'⟩ := hnext first _ _ _ _ (hmiddle _ _ _ hlast) hsecond
  exact ⟨front ++ last :: back, last', by simp, by simpa using hlast'⟩

theorem Passes.separated {item : Skip α} {hitem : Advances item} {separator : TokenKind}
    (h : Passes A item P)
    (hagain : ∀ before last value lexeme, P before last value → lexeme.kind = separator →
      A (before ++ [last, lexeme])) : Passes A (separated item hitem separator) P := by
  intro before ahead value rest hbefore hskip
  fun_induction Skip.separated item hitem separator ahead generalizing before with
  | case1 => cases hskip
  | case2 ahead first hfirst =>
      cases hskip
      exact h _ _ _ _ hbefore hfirst
  | case3 ahead first lexeme tail hfirst hkind ih =>
      obtain ⟨front, last, rfl, hlast⟩ := h _ _ _ _ hbefore hfirst
      obtain ⟨back, last', rfl, hlast'⟩ := ih _ (hagain _ last first lexeme hlast hkind) hskip
      exact ⟨front ++ last :: lexeme :: back, last', by simp, by simpa using hlast'⟩
  | case4 ahead first lexeme tail hfirst hkind =>
      cases hskip
      exact h _ _ _ _ hbefore hfirst

/-- A skip that ends behind a lexeme of another sort than words. -/
abbrev Closes (skip : Skip α) : Prop :=
  Passes (fun _ => True) skip fun _ last _ => last.Closes

theorem closes_bind {skip : Skip β} {R : List Lexeme → Lexeme → β → Prop} {next : β → Skip α}
    (h : Passes (fun _ => True) skip R) (hnext : ∀ value, Closes (next value)) :
    Closes (skip >>= next) :=
  h.bind (fun _ _ _ _ => trivial) hnext

theorem closes_separated {item : Skip α} (hitem : Advances item) (separator : TokenKind)
    (h : Closes item) : Closes (separated item hitem separator) :=
  h.separated fun _ _ _ _ _ _ => trivial

theorem closes_one {p : Lexeme → Bool} (h : ∀ lexeme, p lexeme = true → lexeme.Closes) :
    Closes (one p) :=
  passes_one fun _ lexeme _ => h lexeme

theorem closes_kind (kind : TokenKind) (hword : kind ≠ .word) (hlists : kind.listsField = false) :
    Closes (Skip.kind kind) := by
  apply closes_one
  intro lexeme hkind
  obtain rfl : lexeme.kind = kind := by simpa using hkind
  exact ⟨hword, hlists⟩

theorem closes_scalar : Closes scalar := by
  apply closes_one
  intro lexeme hlexeme
  unfold Lexeme.Closes
  cases hkind : lexeme.kind with
  | int | float | string => exact ⟨by simp, rfl⟩
  | _ => simp [hkind] at hlexeme

theorem closes_array : Closes array := by
  intro before ahead value rest hbefore hskip
  obtain ⟨closed, middle, hclosed, hrest⟩ := bind_eq_some hskip
  rcases optional_cases (by simp : TokenKind.punctuation .closeBracket ≠ .endOfInput) ahead with
    ⟨lexeme, tail, rfl, hkind, -, hrun⟩ | ⟨-, -, hrun⟩
  · cases hrun.symm.trans hclosed
    cases hrest
    exact ⟨[], lexeme, rfl, by simp [Lexeme.Closes, hkind, TokenKind.listsField]⟩
  · cases hrun.symm.trans hclosed
    have hboth := closes_bind (closes_separated (one_advances _) (.punctuation .comma) closes_scalar)
      fun _ => closes_kind (.punctuation .closeBracket) (by simp) rfl
    exact hboth before _ _ _ hbefore hrest

theorem closes_timestamp : Closes timestamp := by
  have hopening := closes_kind (.punctuation .openParen) (by simp) rfl
  have hclosing := closes_kind (.punctuation .closeParen) (by simp) rfl
  have hstring : Closes (one fun lexeme => lexeme.kind = .string && !lexeme.isUnterminated) := by
    apply closes_one
    intro lexeme hlexeme
    simp only [Bool.and_eq_true, decide_eq_true_eq] at hlexeme
    simp [Lexeme.Closes, hlexeme.1, TokenKind.listsField]
  exact closes_bind hopening fun _ => closes_bind hstring fun _ => hclosing

theorem closes_value : Closes value := by
  intro before ahead found rest hbefore hskip
  cases ahead with
  | nil => cases hskip
  | cons lexeme tail =>
      have hcons : ∀ skip : Skip Unit, Closes skip → skip tail = some (found, rest) →
          ∃ front last, lexeme :: tail = front ++ last :: rest ∧ last.Closes := by
        intro skip hcloses hrun
        obtain ⟨front, last, rfl, hlast⟩ := hcloses before _ _ _ trivial hrun
        exact ⟨lexeme :: front, last, rfl, hlast⟩
      simp only [value] at hskip
      split at hskip
      · exact hcons array closes_array hskip
      · split at hskip
        · exact hcons timestamp closes_timestamp hskip
        · cases hskip
      · exact closes_scalar before _ _ _ hbefore hskip

theorem closes_filter : Closes filter := by
  have hfield : Passes (fun _ => True) (kind .word) fun _ _ _ => True :=
    passes_one fun _ _ _ _ => trivial
  have hoperator : Passes (fun _ => True)
      (one fun lexeme => (Operator.ofKind? lexeme.kind).isSome) fun _ _ _ => True :=
    passes_one fun _ _ _ _ => trivial
  exact closes_bind hfield fun _ => closes_bind hoperator fun _ => closes_value

theorem lists_comma {before : List Lexeme} {last comma : Lexeme}
    (h : comma.kind = .punctuation .comma) : Lists (before ++ [last, comma]) := by
  rw [← List.singleton_append, ← List.append_assoc, lists_concat, h]
  rfl

theorem passes_fields :
    Passes Lists (separated (kind .word) (kind_advances _) (.punctuation .comma))
      fun front last _ => last.kind = .word ∧ Lists front := by
  have hfield : Passes Lists (kind .word) fun front last _ => last.kind = .word ∧ Lists front :=
    passes_one fun before lexeme hbefore hword => ⟨by simpa using hword, hbefore⟩
  exact hfield.separated fun _ _ _ _ _ hcomma => lists_comma hcomma

theorem passes_ordering :
    Passes Lists ordering fun front last directed =>
      (last.kind = .word ∧ Lists front ∧ directed = false) ∨ last.Closes := by
  intro before ahead directed rest hbefore hskip
  obtain ⟨field, hfield, ⟨rfl, rfl⟩ | ⟨direction, hdirection, rfl, rfl⟩⟩ :=
    Context.ordering_eq_some hskip
  · exact ⟨[], field, rfl, .inl ⟨hfield, by simpa using hbefore, rfl⟩⟩
  · refine ⟨[field], direction, rfl, .inr ?_⟩
    rcases hdirection with hkind | hkind
    · simp [Lexeme.Closes, hkind, TokenKind.listsField]
    · simp [Lexeme.Closes, hkind, TokenKind.listsField]

theorem passes_orderings :
    Passes (fun _ => True)
      (do
        kind (.keyword .byWord)
        separated ordering ordering_advances (.punctuation .comma) : Skip Bool)
      fun front last directed =>
        (last.kind = .word ∧ Lists front ∧ directed = false) ∨ last.Closes := by
  have hby : Passes (fun _ => True) (kind (.keyword .byWord)) fun _ last _ =>
      last.kind = .keyword .byWord :=
    passes_one fun before lexeme _ hkind => by simpa using hkind
  refine hby.bind (B := Lists) ?_ fun _ => ?_
  · intro before last _ hkind
    rw [lists_concat, hkind]
    rfl
  · exact passes_ordering.separated fun _ _ _ _ _ hcomma => lists_comma hcomma

end Skip

namespace Context

theorem finish_eq_ok {offers : α → List Offer} {found : Option (α × List Lexeme)}
    {all : List Offer} {rest : List Lexeme} (h : clause.finish offers found = .ok (all, rest)) :
    ∃ value, found = some (value, rest) ∧ all = offers value := by
  cases found with
  | none => cases h
  | some pair =>
      cases h
      exact ⟨pair.1, rfl, rfl⟩

theorem finish_eq_error {offers : α → List Offer} {found : Option (α × List Lexeme)}
    {context : Context} (h : clause.finish offers found = .error context) : context = nothing := by
  cases found with
  | none =>
      cases h
      rfl
  | some pair => cases h

variable {cursor : Nat}

/-- A clause that is walked over ends in a field of a list, behind which its words are offered, or
in a lexeme of another sort. -/
theorem clause_eq_ok {opened : Clause} {opener : Lexeme} (hopener : opener.kind = opened.opener)
    {ahead rest : List Lexeme} {offers : List Offer}
    (h : clause cursor opened ahead = .ok (offers, rest)) :
    ∃ front last, ahead = front ++ last :: rest ∧
      (last.kind = .word ∧ Lists (opener :: front) ∧
          (opened = .select ∨ opened = .order ∧ offers = [ascOffer, descOffer]) ∨
        last.Closes) := by
  unfold clause at h
  cases opened with
  | select =>
      obtain ⟨_, hskip, -⟩ := finish_eq_ok h
      have hlists : Lists [opener] := ⟨opener, rfl, by rw [hopener]; rfl⟩
      obtain ⟨front, last, hahead, hword, hfield⟩ :=
        Skip.passes_fields [opener] _ _ _ hlists hskip
      exact ⟨front, last, hahead, .inl ⟨hword, hfield, .inl rfl⟩⟩
  | filter =>
      obtain ⟨_, hskip, -⟩ := finish_eq_ok h
      have hfilters :=
        Skip.closes_separated Skip.filter_advances (.keyword .andWord) Skip.closes_filter
      obtain ⟨front, last, hahead, hlast⟩ := hfilters [opener] _ _ _ trivial hskip
      exact ⟨front, last, hahead, .inr hlast⟩
  | order =>
      dsimp only at h
      split at h
      · cases h
      · cases h
      · obtain ⟨directed, hskip, rfl⟩ := finish_eq_ok h
        obtain ⟨front, last, hahead, ⟨hword, hfield, rfl⟩ | hcloses⟩ :=
          Skip.passes_orderings [opener] _ _ _ trivial hskip
        · exact ⟨front, last, hahead, .inl ⟨hword, hfield, .inr ⟨rfl, rfl⟩⟩⟩
        · exact ⟨front, last, hahead, .inr hcloses⟩
  | limit =>
      obtain ⟨_, hskip, -⟩ := finish_eq_ok h
      have hlimit := Skip.closes_kind .int (by simp) rfl
      obtain ⟨front, last, hahead, hlast⟩ := hlimit [opener] _ _ _ trivial hskip
      exact ⟨front, last, hahead, .inr hlast⟩

/-- What may be typed where a text ends in a word, behind these lexemes. The last case is that of a
finished field, behind which at least two words are offered that differ in their first letter. -/
inductive AtWord (front : List Lexeme) (word : String) : Context → Prop
  | nothing : AtWord front word nothing
  | words {offers} : ¬Lists front → AtWord front word (.words offers word)
  | collection : ¬Lists front → AtWord front word (.collection word)
  | field {offers} : Lists front → Clause.limit.offer ∈ offers →
      Clause.filter.offer ∈ offers ∨ ascOffer ∈ offers → AtWord front word (.words offers "")

theorem atWord_field {request : Request} {opened : Clause} {later : List Clause}
    (hlater : opened :: later <:+ request.clauses) {front : List Lexeme} (hfront : Lists front)
    {offers : List Offer} (h : opened = .select ∨ opened = .order ∧ offers = [ascOffer, descOffer])
    (word : String) : AtWord front word (words (offers ++ later.map Clause.offer) "") := by
  obtain ⟨hselect, horder⟩ := Clause.eq_of_suffix_clauses hlater
  rcases h with rfl | ⟨rfl, rfl⟩
  · rw [hselect rfl]
    exact .field hfront (by simp) (.inl (by simp))
  · rw [horder rfl]
    exact .field hfront (by simp) (.inr (by simp))

section Word

variable {word : Lexeme} (hword : word.kind = .word) (hopen : word.stop = cursor)

include hword hopen

theorem openWord?_word : openWord? cursor [word] = some word := if_pos ⟨hword, hopen⟩

omit hword hopen in
theorem openWord?_cons (lexeme : Lexeme) (front : List Lexeme) :
    openWord? cursor (lexeme :: (front ++ [word])) = none := by
  cases front <;> rfl

theorem clause_eq_error {opened : Clause} {opener : Lexeme} (hopener : opener.kind = opened.opener)
    {front before : List Lexeme} {context : Context}
    (h : clause cursor opened (front ++ [word]) = .error context) :
    AtWord (before ++ opener :: front) word.literal context := by
  have hnothing : context = nothing → AtWord (before ++ opener :: front) word.literal context := by
    rintro rfl
    exact .nothing
  unfold clause at h
  cases opened with
  | select => exact hnothing (finish_eq_error h)
  | filter => exact hnothing (finish_eq_error h)
  | limit => exact hnothing (finish_eq_error h)
  | order =>
      cases front with
      | nil =>
          simp only [List.nil_append, openWord?_word hword hopen] at h
          cases h
          refine .words ?_
          rw [lists_concat, hopener]
          simp [Clause.opener, TokenKind.listsField]
      | cons lexeme front =>
          simp only [List.cons_append, openWord?_cons] at h
          exact hnothing (finish_eq_error h)

theorem clauses_atWord {request : Request} {before : List Lexeme} (hbefore : ¬Lists before)
    (front : List Lexeme) (offers : List Offer) {later : List Clause}
    (hlater : later <:+ request.clauses) :
    AtWord (before ++ front) word.literal (clauses cursor offers later (front ++ [word])) := by
  -- The induction is on the clauses that may still come: each clause that is walked over drops
  -- itself and those in front of it.
  induction hlength : later.length using Nat.strongRecOn
    generalizing before front offers later with
  | ind length ih =>
      cases front with
      | nil =>
          rw [List.nil_append, List.append_nil, clauses.eq_def, openWord?_word hword hopen]
          exact .words hbefore
      | cons opener front =>
          rw [List.cons_append, clauses_of_not_open (openWord?_cons opener front)]
          cases hfind : Clause.find? opener.kind later with
          | none => exact .nothing
          | some found =>
              obtain ⟨opened, later'⟩ := found
              have hopener := (Clause.find?_eq_some hfind).1.symm
              have hsuffix : opened :: later' <:+ request.clauses := by
                obtain ⟨skipped, rfl⟩ := Clause.find?_eq_append hfind
                exact (List.suffix_append skipped _).trans hlater
              cases hclause : clause cursor opened (front ++ [word]) with
              | error context =>
                  simp only [hclause]
                  exact clause_eq_error hword hopen hopener hclause
              | ok passed =>
                  obtain ⟨offers', rest⟩ := passed
                  simp only [hclause]
                  obtain ⟨passed, last, hahead, hlast⟩ := clause_eq_ok hopener hclause
                  rcases append_cons_eq_concat hahead.symm with ⟨rfl, rfl, rfl⟩ | ⟨rest, rfl, rfl⟩
                  · -- The clause has taken the word for its last field.
                    rw [clauses_nil]
                    rcases hlast with ⟨-, hlists, hopened⟩ | hcloses
                    · exact atWord_field hsuffix (hlists.append before) hopened _
                    · exact absurd hword hcloses.1
                  · have hlists : ¬Lists (before ++ opener :: passed ++ [last]) := by
                      rw [lists_concat]
                      rcases hlast with ⟨hkind, -⟩ | hcloses
                      · simp [hkind, TokenKind.listsField]
                      · simp [hcloses.2]
                    have hshorter : later'.length < length := hlength ▸ Clause.find?_length hfind
                    have hrest := ih _ hshorter hlists rest offers'
                      ((List.suffix_cons _ _).trans hsuffix) rfl
                    simpa using hrest

theorem path_atWord {request : Request} {opener : Lexeme} (hopener : opener.kind = request.opener)
    (front : List Lexeme) :
    AtWord (opener :: front) word.literal (path cursor request (front ++ [word])) := by
  unfold path
  cases front with
  | nil =>
      simp only [List.nil_append, openWord?_word hword hopen]
      refine .collection ?_
      rw [← List.nil_append [opener], lists_concat, hopener]
      cases request <;> simp [Request.opener, TokenKind.listsField]
  | cons name front =>
      simp only [List.cons_append, openWord?_cons]
      split
      · rename_i hname
        have hlists : ¬Lists ([opener] ++ [name]) := by
          rw [lists_concat, hname]
          simp [TokenKind.listsField]
        simpa using clauses_atWord hword hopen hlists front [] (List.suffix_refl request.clauses)
      · exact .nothing

theorem ofLexemes_atWord (front : List Lexeme) :
    AtWord front word.literal (ofLexemes cursor (front ++ [word])) := by
  unfold ofLexemes
  cases front with
  | nil =>
      simp only [List.nil_append, openWord?_word hword hopen]
      exact .words not_lists_nil
  | cons opener front =>
      simp only [List.cons_append, openWord?_cons]
      cases hrequest : Request.ofKind? opener.kind with
      | none => exact .nothing
      | some request => exact path_atWord hword hopen (Rule.opener_of_ofKind? hrequest) front

end Word

end Context

end DocShell.Completion
