import DocShell.Completion.Suggestion
import DocShell.Proofs.Agreement
import DocShell.Proofs.Recognition

/-!
What the completer offers behind a text that ends in a separator.
Main statement: behind an operation it offers what may go on with the last clause and the clauses
that come after it, and it offers nothing where the parser has failed, but for a value.
-/

namespace DocShell.Query

def Clause.ofOpener? : TokenKind → Option Clause
  | .keyword .select => some select
  | .keyword .whereWord => some filter
  | .keyword .orderWord => some order
  | .keyword .limit => some limit
  | _ => none

theorem Clause.ofOpener?_opener (clause : Clause) : ofOpener? clause.opener = some clause := by
  cases clause <;> rfl

def lastClause? (tokens : List Token) : Option Clause :=
  tokens.reverse.findSome? fun token => Clause.ofOpener? token.kind

theorem lastClause?_append (front back : List Token) :
    lastClause? (front ++ back) = (lastClause? back).or (lastClause? front) := by
  rw [lastClause?, List.reverse_append, List.findSome?_append]
  rfl

theorem lastClause?_cons {token : Token} (h : Clause.ofOpener? token.kind = none)
    (back : List Token) : lastClause? (token :: back) = lastClause? back := by
  rw [← List.singleton_append, lastClause?_append]
  simp [lastClause?, h]

def endsDirected (tokens : List Token) : Bool :=
  tokens.getLast?.any fun token => token.kind == .keyword .asc || token.kind == .keyword .desc

theorem endsDirected_append (front : List Token) {back : List Token} (h : back ≠ []) :
    endsDirected (front ++ back) = endsDirected back := by
  rw [endsDirected, endsDirected, List.getLast?_append]
  cases hlast : back.getLast? with
  | none => exact absurd (List.getLast?_eq_none_iff.mp hlast) h
  | some last => rfl

theorem endsDirected_cons {token : Token} (hasc : token.kind ≠ .keyword .asc)
    (hdesc : token.kind ≠ .keyword .desc) (back : List Token) :
    endsDirected (token :: back) = endsDirected back := by
  cases back with
  | nil => simp [endsDirected, hasc, hdesc]
  | cons second back => exact endsDirected_append [token] (by simp)

/-- The words that may go on with a clause. -/
def Clause.further (clause : Clause) (directed : Bool) : List Offer :=
  match clause with
  | select => []
  | filter => [andOffer]
  | order => if directed then [] else [ascOffer, descOffer]
  | limit => []

/-- The clauses behind one of them. -/
def Clause.behind (clause : Clause) (clauses : List Clause) : List Clause :=
  (clauses.dropWhile (· != clause)).drop 1

/-- What may follow tokens with some of the clauses of a table: what goes on with the last clause,
and the clauses behind that one. -/
def offersAfter (table : List Clause) (tokens : List Token) : List Offer :=
  match lastClause? tokens with
  | none => table.map Clause.offer
  | some last => last.further (endsDirected tokens) ++ (last.behind table).map Clause.offer

theorem offersAfter_cons (table : List Clause) {token : Token}
    (hopener : Clause.ofOpener? token.kind = none) (hasc : token.kind ≠ .keyword .asc)
    (hdesc : token.kind ≠ .keyword .desc) (back : List Token) :
    offersAfter table (token :: back) = offersAfter table back := by
  rw [offersAfter, offersAfter, lastClause?_cons hopener, endsDirected_cons hasc hdesc]

theorem Request.nodup_clauses (request : Request) : request.clauses.Nodup := by
  cases request <;> decide

/-- The operation that a request with clauses makes of a path and what its clauses say. -/
def Request.operation (request : Request) (path : String) (bodies : List ClauseBody) :
    Operation :=
  match request with
  | count => .count path (Selection.ofClauses path bodies).filters
  | _ => .query (Selection.ofClauses path bodies)

def Operation.request? : Operation → Option Request
  | query _ => some .query
  | get _ _ => some .get
  | count _ _ => some .count
  | _ => none

/-- The tokens of a request begin with its word and a path, and the rest are clauses. -/
theorem OperationPhrase.request_cases {tokens : List Token} {operation : Operation}
    {request : Request} (h : OperationPhrase tokens operation)
    (hrequest : operation.request? = some request) :
    ∃ opening raw back bodies, tokens = ⟨request.opener, opening⟩ :: ⟨.word, raw⟩ :: back ∧
      ClausePhrases back bodies ∧ (bodies.map ClauseBody.clause).Sublist request.clauses := by
  have hphrase := h
  cases h with
  | query =>
      cases hrequest
      obtain ⟨-, bodies, hphrases, hsub⟩ :=
        (exists_operation_iff (by simp : Request.query ≠ .get)).mp ⟨_, hphrase⟩
      exact ⟨_, _, _, bodies, rfl, hphrases, hsub⟩
  | count =>
      cases hrequest
      obtain ⟨-, bodies, hphrases, hsub⟩ :=
        (exists_operation_iff (by simp : Request.count ≠ .get)).mp ⟨_, hphrase⟩
      exact ⟨_, _, _, bodies, rfl, hphrases, hsub⟩
  | get =>
      cases hrequest
      exact ⟨_, _, [], [], rfl, .nil, List.nil_sublist _⟩
  | root => cases hrequest
  | base => cases hrequest
  | pager => cases hrequest

theorem ClausePhrase.lastClause?_eq {tokens : List Token} {body : ClauseBody}
    (h : ClausePhrase tokens body) : lastClause? tokens = some body.clause := by
  have hnone : ∀ opening back, (∀ token ∈ back, Clause.ofOpener? token.kind = none) →
      lastClause? (⟨body.clause.opener, opening⟩ :: back) = some body.clause := by
    intro opening back hback
    have hskip : lastClause? back = none := by
      rw [lastClause?, List.findSome?_eq_none_iff]
      simpa using hback
    rw [← List.singleton_append, lastClause?_append, hskip, Option.none_or]
    simp [lastClause?, Clause.ofOpener?_opener]
  have hinner : ∀ {kind : TokenKind}, kind.isInner = true → Clause.ofOpener? kind = none := by
    intro kind hkind
    unfold TokenKind.isInner at hkind
    split at hkind <;> first | rfl | cases hkind
  cases h with
  | select hfields =>
      refine hnone _ _ (hfields.forall_mem (P := (Clause.ofOpener? · = none)) ?_ rfl)
      exact fun _ _ hfield token hmem => hinner (hfield.isInner token hmem)
  | filter hfilters =>
      refine hnone _ _ (hfilters.forall_mem (P := (Clause.ofOpener? · = none)) ?_ rfl)
      exact fun _ _ hfilter token hmem => hinner (hfilter.isInner token hmem)
  | order horderings =>
      have hback := horderings.forall_mem (P := (Clause.ofOpener? · = none)) (by
        intro _ _ hordering
        cases hordering <;> simp [Clause.ofOpener?]) rfl
      refine hnone _ _ ?_
      rw [List.forall_mem_cons]
      exact ⟨rfl, hback⟩
  | limit => exact hnone _ _ (by simp [Clause.ofOpener?])

theorem ClausePhrases.lastClause?_eq {tokens : List Token} {bodies : List ClauseBody}
    (h : ClausePhrases tokens bodies) :
    lastClause? tokens = bodies.getLast?.map ClauseBody.clause := by
  induction h with
  | nil => rfl
  | @cons front rest body bodies hfront hrest ih =>
      rw [lastClause?_append, ih, hfront.lastClause?_eq]
      cases hlast : bodies.getLast? with
      | none =>
          rw [List.getLast?_eq_none_iff] at hlast
          rw [hlast]
          rfl
      | some last =>
          rw [List.getLast?_cons, hlast]
          rfl

theorem Clause.find?_eq_append {kind : TokenKind} {clauses later : List Clause} {clause : Clause}
    (h : find? kind clauses = some (clause, later)) :
    ∃ front, clauses = front ++ clause :: later := by
  induction clauses with
  | nil => cases h
  | cons c cs ih =>
      simp only [find?] at h
      split at h
      · cases h
        exact ⟨[], rfl⟩
      · obtain ⟨front, rfl⟩ := ih h
        exact ⟨c :: front, rfl⟩

theorem Clause.behind_append {clause : Clause} {front : List Clause} (h : clause ∉ front)
    (rest : List Clause) : clause.behind (front ++ rest) = clause.behind rest := by
  rw [behind, List.dropWhile_append_of_pos]
  · rfl
  · intro c hc
    simpa using ne_of_mem_of_not_mem hc h

theorem Clause.behind_of_find? {kind : TokenKind} {clauses later : List Clause} {clause : Clause}
    (hnodup : clauses.Nodup) (h : find? kind clauses = some (clause, later)) :
    clause.behind clauses = later ∧ ∀ last ∈ later, last.behind clauses = last.behind later := by
  obtain ⟨front, rfl⟩ := find?_eq_append h
  obtain ⟨-, hnodup', hdisjoint⟩ := List.nodup_append.mp hnodup
  have hfront : ∀ last ∈ clause :: later, last ∉ front :=
    fun last hlast hmem => hdisjoint last hmem last hlast rfl
  constructor
  · rw [behind_append (hfront clause (List.mem_cons_self ..))]
    simp [behind]
  · intro last hlast
    have hne : last ≠ clause := ne_of_mem_of_not_mem hlast (List.nodup_cons.mp hnodup').1
    have hother : last ∉ front ++ [clause] := by
      rw [List.mem_append, List.mem_singleton, not_or]
      exact ⟨hfront last (List.mem_cons_of_mem _ hlast), hne⟩
    rw [← behind_append hother later, List.append_assoc]
    rfl

theorem operation_of_request {request : Request} (hrequest : request ≠ .get) {token : Token}
    (htoken : token.kind = request.opener) :
    Rule.operation token = do
      let path ← Rule.collection
      let bodies ← Rule.clauses request.clauses none request.clauses
      return request.operation path bodies := by
  cases request with
  | get => exact absurd rfl hrequest
  | query => rw [Rule.operation, htoken]; rfl
  | count => rw [Rule.operation, htoken]; rfl

theorem operation_of_word {request : Request} (hrequest : request ≠ .get) {token : Token}
    (htoken : token.kind = request.opener) {raw : String} (hraw : Path.normalize raw ≠ "")
    (ahead : List Token) :
    Rule.operation token (⟨.word, raw⟩ :: ahead) =
      (request.operation (Path.normalize raw) <$>
        Rule.clauses request.clauses none request.clauses : Rule Operation) ahead := by
  rw [operation_of_request hrequest htoken]
  refine (Rule.bind_of_ok (Rule.collection_eq_ok.mpr ⟨raw, hraw, rfl, rfl⟩)).trans ?_
  rw [bind_pure_comp]

end DocShell.Query

namespace DocShell.Completion

open DocShell.Query
open DocShell.Query.Rule
open DocShell.Text.Ascii
open DocShell.Text.Bytes

variable {α β : Type} {cursor : Nat}

namespace Context

def Past (cursor : Nat) (ahead : List Lexeme) : Prop :=
  ∀ lexeme ∈ ahead, lexeme.kind = .word → lexeme.stop ≠ cursor

theorem Past.suffix {ahead rest : List Lexeme} (h : Past cursor ahead) (hsuffix : rest <:+ ahead) :
    Past cursor rest :=
  fun lexeme hmem => h lexeme (hsuffix.subset hmem)

theorem Past.openWord?_eq_none {ahead : List Lexeme} (h : Past cursor ahead) :
    openWord? cursor ahead = none := by
  unfold openWord?
  split
  · exact if_neg fun hopen => h _ (List.mem_singleton_self _) hopen.1 hopen.2
  · rfl

/-- A lexeme in front that is not being typed leaves nothing to be typed on. -/
theorem openWord?_of_not {lexeme : Lexeme} (h : ¬(lexeme.kind = .word ∧ lexeme.stop = cursor))
    (rest : List Lexeme) : openWord? cursor (lexeme :: rest) = none := by
  cases rest with
  | nil => exact if_neg h
  | cons second rest => rfl

theorem past_of_settled {ahead : List Lexeme} (h : Settled cursor ahead) : Past cursor ahead :=
  fun lexeme hmem _ => (h lexeme hmem).2.1.ne

theorem openWord?_eq_none {ahead : List Lexeme} (h : Settled cursor ahead) :
    openWord? cursor ahead = none :=
  (past_of_settled h).openWord?_eq_none

theorem clauses_nil (offers : List Offer) (later : List Clause) :
    clauses cursor offers later [] = words (offers ++ later.map Clause.offer) "" := by
  rw [clauses]

theorem clauses_of_not_open {lexeme : Lexeme} {rest : List Lexeme}
    (h : openWord? cursor (lexeme :: rest) = none) (offers : List Offer) (later : List Clause) :
    clauses cursor offers later (lexeme :: rest) =
      match Clause.find? lexeme.kind later with
      | none => nothing
      | some (found, later) =>
          match clause cursor found rest with
          | .error context => context
          | .ok (offers, rest) => clauses cursor offers later rest := by
  rw [clauses.eq_def, h]
  dsimp only
  cases Clause.find? lexeme.kind later with
  | none => rfl
  | some found => rfl

theorem clauses_cons {lexeme : Lexeme} {rest : List Lexeme}
    (h : Settled cursor (lexeme :: rest)) (offers : List Offer) (later : List Clause) :
    clauses cursor offers later (lexeme :: rest) =
      match Clause.find? lexeme.kind later with
      | none => nothing
      | some (found, later) =>
          match clause cursor found rest with
          | .error context => context
          | .ok (offers, rest) => clauses cursor offers later rest :=
  clauses_of_not_open (openWord?_eq_none h) offers later

theorem clauses_of_nil {ahead : List Lexeme} (h : Settled cursor ahead) :
    clauses cursor [] [] ahead = nothing := by
  cases ahead with
  | nil => exact clauses_nil [] []
  | cons lexeme rest => exact clauses_cons h [] []

/-- A field alone, or a field with its direction. -/
theorem ordering_eq_some {ahead rest : List Lexeme} {directed : Bool}
    (h : Skip.ordering ahead = some (directed, rest)) :
    ∃ field, field.kind = .word ∧
      (directed = false ∧ ahead = field :: rest ∨
        ∃ direction, (direction.kind = .keyword .asc ∨ direction.kind = .keyword .desc) ∧
          directed = true ∧ ahead = field :: direction :: rest) := by
  obtain ⟨_, behind, hfield, hdirection⟩ := bind_eq_some h
  obtain ⟨field, hword, rfl⟩ := one_eq_some hfield
  obtain ⟨ascending, behind', hasc, hdesc⟩ := bind_eq_some hdirection
  refine ⟨field, by simpa using hword, ?_⟩
  rcases optional_cases (by simp : TokenKind.keyword .asc ≠ .endOfInput) behind with
    ⟨lexeme, tail, rfl, hkind, -, hskip⟩ | ⟨-, -, hskip⟩
  · rw [hskip] at hasc
    cases hasc
    cases hdesc
    exact .inr ⟨lexeme, .inl hkind, rfl, rfl⟩
  · rw [hskip] at hasc
    cases hasc
    rcases optional_cases (by simp : TokenKind.keyword .desc ≠ .endOfInput) behind with
      ⟨lexeme, tail, rfl, hkind, -, hskip'⟩ | ⟨-, -, hskip'⟩
    · cases hskip'.symm.trans hdesc
      exact .inr ⟨lexeme, .inr hkind, rfl, rfl⟩
    · cases hskip'.symm.trans hdesc
      exact .inl ⟨rfl, rfl⟩

theorem ordering_directed {ahead rest : List Lexeme} {directed : Bool}
    (h : Skip.ordering ahead = some (directed, rest)) :
    ∃ front, ahead = front ++ rest ∧ directed = endsDirected (front.map Lexeme.token) := by
  obtain ⟨field, hfield, ⟨rfl, rfl⟩ | ⟨direction, hdirection, rfl, rfl⟩⟩ := ordering_eq_some h
  · exact ⟨[field], rfl, by simp [endsDirected, Lexeme.token, hfield]⟩
  · exact ⟨[field, direction], rfl, by simpa [endsDirected, Lexeme.token] using hdirection⟩

theorem orderings_directed {ahead rest : List Lexeme} {directed : Bool}
    (h : Skip.separated Skip.ordering Skip.ordering_advances (.punctuation .comma) ahead =
      some (directed, rest)) :
    ∃ front, ahead = front ++ rest ∧ directed = endsDirected (front.map Lexeme.token) := by
  fun_induction Skip.separated Skip.ordering Skip.ordering_advances (.punctuation .comma) ahead with
  | case1 => cases h
  | case2 ahead first hfirst =>
      cases h
      exact ordering_directed hfirst
  | case3 ahead first lexeme tail hfirst hkind ih =>
      obtain ⟨front, rfl, -⟩ := ordering_directed hfirst
      obtain ⟨back, rfl, hdirected⟩ := ih h
      refine ⟨front ++ lexeme :: back, by simp, ?_⟩
      rw [List.map_append, List.map_cons, endsDirected_append _ (by simp),
        endsDirected_cons (by simp [Lexeme.token, hkind]) (by simp [Lexeme.token, hkind])]
      exact hdirected
  | case4 ahead first lexeme tail hfirst hkind =>
      cases h
      exact ordering_directed hfirst

/-- A clause that is walked over goes on with `offers`; in one that is not, nothing is offered. -/
theorem finish_cases (opened : Clause) {rule : Rule α} {skip : Skip β} {related : α → β → Prop}
    (h : Agrees cursor rule skip related) (offers : β → List Offer)
    (hoffers : ∀ front found rest, skip (front ++ rest) = some (found, rest) →
      offers found = opened.further (endsDirected (front.map Lexeme.token)))
    {ahead : List Lexeme} (hahead : Settled cursor ahead) :
    (clause.finish offers (skip ahead) = .error nothing ∧
      ∀ value behind, rule (lineOf ahead) ≠ .ok value behind) ∨
    ∃ all rest, clause.finish offers (skip ahead) = .ok (all, rest) ∧
      ((∃ front value, ahead = front ++ rest ∧
          all = opened.further (endsDirected (front.map Lexeme.token)) ∧
          rule (lineOf ahead) = .ok value (lineOf rest)) ∨
        FailsByValue rule (lineOf ahead)) := by
  cases hskip : skip ahead with
  | none => exact .inl ⟨rfl, fun _ _ => h.stops hahead hskip⟩
  | some pair =>
      obtain ⟨found, rest⟩ := pair
      refine .inr ⟨offers found, rest, rfl, ?_⟩
      rcases h.passes hahead hskip with ⟨value, -, ⟨front, rfl⟩, hrun⟩ | hfails
      · exact .inl ⟨front, value, rfl, hoffers front found rest hskip, hrun⟩
      · exact .inr hfails

theorem clause_order {ahead : List Lexeme} (hahead : Settled cursor ahead) (hne : ahead ≠ []) :
    clause cursor .order ahead =
      clause.finish (fun directed => Clause.order.further directed)
        ((do
          Skip.kind (.keyword .byWord)
          Skip.separated Skip.ordering Skip.ordering_advances (.punctuation .comma) :
          Skip Bool) ahead) := by
  unfold clause
  dsimp only
  rw [openWord?_eq_none hahead]
  cases ahead with
  | nil => exact absurd rfl hne
  | cons lexeme tail => rfl

theorem clause_cases (opened : Clause) {ahead : List Lexeme} (hahead : Settled cursor ahead) :
    (opened = .order ∧ ahead = [] ∧ clause cursor opened ahead = .error (words [byOffer] "") ∧
      ∀ found behind, body opened (lineOf ahead) ≠ .ok found behind) ∨
    (clause cursor opened ahead = .error nothing ∧
      ∀ found behind, body opened (lineOf ahead) ≠ .ok found behind) ∨
    ∃ offers rest, clause cursor opened ahead = .ok (offers, rest) ∧
      ((∃ front found, ahead = front ++ rest ∧
          offers = opened.further (endsDirected (front.map Lexeme.token)) ∧
          body opened (lineOf ahead) = .ok found (lineOf rest)) ∨
        FailsByValue (body opened) (lineOf ahead)) := by
  cases opened with
  | select =>
      have hagrees : Agrees cursor (body .select) (Skip.separated (Skip.kind .word)
          (Skip.kind_advances _) (.punctuation .comma)) fun _ _ => True :=
        (agrees_separated (agrees_kind (by simp)) (by simp)).map _
      exact .inr (finish_cases .select hagrees _ (fun _ _ _ _ => rfl) hahead)
  | filter =>
      have hagrees : Agrees cursor (body .filter) (Skip.separated Skip.filter
          Skip.filter_advances (.keyword .andWord)) fun _ _ => True :=
        (agrees_separated agrees_filter (by simp)).map _
      exact .inr (finish_cases .filter hagrees _ (fun _ _ _ _ => rfl) hahead)
  | order =>
      by_cases hne : ahead = []
      · subst hne
        exact .inl ⟨rfl, rfl, by rw [clause], fun _ _ h => by cases h⟩
      · have hagrees : Agrees cursor (body .order) (do
            Skip.kind (.keyword .byWord)
            Skip.separated Skip.ordering Skip.ordering_advances (.punctuation .comma))
            fun _ _ => True := (agrees_kind (by simp)).bind fun _ _ _ =>
          (agrees_separated agrees_ordering (by simp)).map _
        rw [clause_order hahead hne]
        refine .inr (finish_cases .order hagrees _ (fun front directed rest hskip => ?_) hahead)
        obtain ⟨_, behind, hby, horderings⟩ := bind_eq_some hskip
        obtain ⟨second, hsecond, hfront⟩ := one_eq_some hby
        obtain ⟨back, rfl, rfl⟩ := orderings_directed horderings
        have hcons : front = second :: back := by
          rw [← List.cons_append] at hfront
          exact List.append_cancel_right hfront
        have hkind : second.kind = .keyword .byWord := by simpa using hsecond
        rw [hcons, List.map_cons, endsDirected_cons (by simp [Lexeme.token, hkind])
          (by simp [Lexeme.token, hkind])]
  | limit =>
      have hagrees : Agrees cursor (body .limit) (Skip.kind .int) fun _ _ => True :=
        agrees_limit.map _
      exact .inr (finish_cases .limit hagrees _ (fun _ _ _ _ => rfl) hahead)

theorem clause_of_phrase {front extra : List Lexeme} {found : ClauseBody} {opening : String}
    (hphrase : ClausePhrase (⟨found.clause.opener, opening⟩ :: front.map Lexeme.token) found)
    (hsettled : Settled cursor (front ++ extra)) (hextra : Avoids bodyFurther (lineOf extra)) :
    clause cursor found.clause (front ++ extra) =
      .ok (found.clause.further (endsDirected (front.map Lexeme.token)), extra) := by
  have hbody := (reads_body found.clause opening).complete hphrase hextra
  rw [← lineOf_append] at hbody
  rcases clause_cases found.clause hsettled with
    ⟨-, -, -, hstops⟩ | ⟨-, hstops⟩ | ⟨offers, rest, hclause, hcases⟩
  · exact absurd hbody (hstops _ _)
  · exact absurd hbody (hstops _ _)
  · rcases hcases with ⟨front', found', hahead, rfl, hrun⟩ | ⟨cause, behind, -, hrun⟩
    · rw [hbody, EStateM.Result.ok.injEq] at hrun
      have hlength : extra.length = rest.length := by
        simpa [lineOf] using congrArg List.length hrun.2
      obtain ⟨rfl, rfl⟩ := List.append_inj' hahead hlength
      exact hclause
    · rw [hbody] at hrun
      cases hrun

/-- Where the clauses of a table that a text has end, only those behind the last one may come. -/
theorem clauses_of_phrases {front extra : List Lexeme} {bodies : List ClauseBody}
    {later : List Clause} (offers : List Offer)
    (hphrases : ClausePhrases (front.map Lexeme.token) bodies)
    (hsettled : Settled cursor (front ++ extra)) (hextra : Avoids bodyFurther (lineOf extra))
    (hnodup : later.Nodup) (hsub : (bodies.map ClauseBody.clause).Sublist later) :
    clauses cursor offers later (front ++ extra) =
      match bodies.getLast? with
      | none => clauses cursor offers later extra
      | some last =>
          clauses cursor (last.clause.further (endsDirected (front.map Lexeme.token)))
            (last.clause.behind later) extra := by
  generalize htokens : front.map Lexeme.token = tokens at hphrases ⊢
  induction hphrases generalizing front offers later with
  | nil =>
      obtain rfl := List.map_eq_nil_iff.mp htokens
      rfl
  | @cons first others found bodies hfirst hothers ih =>
      obtain ⟨firsts, rests, rfl, rfl, rfl⟩ := List.map_eq_append_iff.mp htokens
      obtain ⟨opening, back, hcons⟩ := hfirst.exists_cons
      obtain ⟨opener, inner, rfl, hopener, rfl⟩ := List.map_eq_cons_iff.mp hcons
      have hkind : found.clause.opener = opener.kind := (congrArg Token.kind hopener).symm
      obtain ⟨later', hfind, hsub'⟩ := Clause.find?_of_sublist hnodup hsub
      obtain ⟨hbehind, hbehind'⟩ := Clause.behind_of_find? hnodup hfind
      rw [hcons] at hfirst
      -- A word that opens a clause ends the one before it, so that this is read to its end.
      have hrests : Avoids bodyFurther (lineOf (rests ++ extra)) := by
        rw [lineOf_append]
        exact avoids_of_clausePhrases hothers hextra
      rw [List.append_assoc, List.cons_append] at hsettled ⊢
      have hclause := clause_of_phrase hfirst hsettled.tail hrests
      rw [clauses_cons hsettled, ← hkind, hfind]
      simp only [hclause]
      have hnodup' : later'.Nodup :=
        (List.nodup_cons.mp (hnodup.sublist (Clause.find?_eq_some hfind).2)).2
      have hsettled' : Settled cursor (rests ++ extra) := hsettled.tail.suffix ⟨inner, rfl⟩
      rw [ih _ hsettled' hnodup' hsub' rfl, List.getLast?_cons]
      cases hlast : bodies.getLast? with
      | none =>
          obtain rfl := List.getLast?_eq_none_iff.mp hlast
          obtain rfl := List.map_eq_nil_iff.mp (hothers.eq_nil (List.nil_sublist [])).1
          have hopener :
              opener.token.kind ≠ .keyword .asc ∧ opener.token.kind ≠ .keyword .desc := by
            rw [hopener]
            cases found <;> simp [ClauseBody.clause, Clause.opener]
          simp only [Option.getD_none, List.map_nil, List.append_nil, List.map_cons,
            endsDirected_cons hopener.1 hopener.2, hbehind]
      | some last =>
          have hmem : last.clause ∈ later' :=
            hsub'.subset (List.mem_map_of_mem (List.mem_of_getLast? hlast))
          have hne : rests.map Lexeme.token ≠ [] := hothers.ne_nil (by
            rintro rfl
            cases hlast)
          simp only [Option.getD_some, endsDirected_append _ hne, hbehind' _ hmem]

theorem clauses_eq_offersAfter {ahead : List Lexeme} {bodies : List ClauseBody}
    {table : List Clause} (hphrases : ClausePhrases (ahead.map Lexeme.token) bodies)
    (hsettled : Settled cursor ahead) (hnodup : table.Nodup)
    (hsub : (bodies.map ClauseBody.clause).Sublist table) :
    clauses cursor [] table ahead = words (offersAfter table (ahead.map Lexeme.token)) "" := by
  have hextra : Avoids bodyFurther (lineOf []) :=
    avoids_cons.mpr (by simp [bodyFurther, Token.atEnd])
  have hclauses := clauses_of_phrases [] hphrases (by rwa [List.append_nil]) hextra hnodup hsub
  rw [List.append_nil] at hclauses
  rw [hclauses, offersAfter, hphrases.lastClause?_eq]
  cases bodies.getLast? with
  | none => exact clauses_nil [] table
  | some last => exact clauses_nil _ _

theorem phrase_of_body {opened : Clause} {lexeme : Lexeme} {front ahead : List Lexeme}
    {found : ClauseBody} (hopener : opened.opener = lexeme.kind)
    (h : body opened (lineOf (front ++ ahead)) = .ok found (lineOf ahead)) :
    ClausePhrase (lexeme.token :: front.map Lexeme.token) found ∧ found.clause = opened := by
  obtain ⟨tokens, htokens, hphrase⟩ := (reads_body opened lexeme.literal).sound h
  rw [lineOf_append] at htokens
  obtain rfl := List.append_cancel_right htokens
  obtain ⟨opening, back, hcons⟩ := hphrase.exists_cons
  simp only [List.cons.injEq, Token.mk.injEq] at hcons
  rw [hopener] at hphrase
  exact ⟨hphrase, (Clause.opener_injective hcons.1.1).symm⟩

/-- The clauses up to a word that opens an order and ends the text. -/
def EndsInOrder (later : List Clause) (ahead : List Lexeme) : Prop :=
  ∃ front opener bodies, ahead = front ++ [opener] ∧ opener.kind = Clause.order.opener ∧
    ClausePhrases (front.map Lexeme.token) bodies ∧
    (bodies.map ClauseBody.clause ++ [Clause.order]).Sublist later

/-- Where something is offered, the parser has read everything, or refuses a value, or misses the
second word of `ORDER BY`. -/
theorem clauses_outcome (table : List Clause) (last : Option Clause) (offers : List Offer)
    (later : List Clause) {ahead : List Lexeme} (hsettled : Settled cursor ahead) :
    clauses cursor offers later ahead = nothing ∨
      FailsByValue (Rule.clauses table last later) (lineOf ahead) ∨
      (∃ bodies, Rule.clauses table last later (lineOf ahead) = .ok bodies [Token.atEnd]) ∨
      clauses cursor offers later ahead = words [byOffer] "" ∧ EndsInOrder later ahead := by
  -- The walk drops each clause that it finds from the table, with those in front of it.
  induction hlength : later.length using Nat.strongRecOn
    generalizing last offers later ahead with
  | ind length ih =>
      cases ahead with
      | nil =>
          have hend : AtEnd (lineOf []) := by simp [AtEnd, lineOf_nil, Token.atEnd]
          exact .inr (.inr (.inl ⟨[], clauses_of_atEnd hend⟩))
      | cons lexeme rest =>
          rw [clauses_cons hsettled]
          cases hfind : Clause.find? lexeme.kind later with
          | none => exact .inl rfl
          | some pair =>
              obtain ⟨opened, later'⟩ := pair
              obtain ⟨hopener, hsub⟩ := Clause.find?_eq_some hfind
              have hopened : Clause.find? lexeme.token.kind later = some (opened, later') := hfind
              have hclauses : Rule.clauses table last later (lineOf (lexeme :: rest)) = _ :=
                clauses_of_find hopened (lineOf rest)
              have hlater : later'.length < length := hlength ▸ Clause.find?_length hfind
              simp only [FailsByValue, hclauses]
              rcases clause_cases opened hsettled.tail with
                ⟨rfl, rfl, hclause, -⟩ | ⟨hclause, -⟩ | ⟨all, ahead, hclause, hcases⟩
              · simp only [hclause]
                refine .inr (.inr (.inr ⟨trivial, [], lexeme, [], rfl, hopener.symm, .nil, ?_⟩))
                exact List.singleton_sublist.mpr (hsub.subset (List.mem_cons_self ..))
              · simp only [hclause]
                exact .inl trivial
              · simp only [hclause]
                rcases hcases with ⟨front, found, rfl, -, hrun⟩ | hfails
                · have hsettled' : Settled cursor ahead := hsettled.tail.suffix ⟨front, rfl⟩
                  rcases ih later'.length hlater (some opened) all later' hsettled' rfl with
                    hnothing | hfails | ⟨bodies, hbodies⟩ | ⟨hby, back, opener, bodies, rfl, hback⟩
                  · exact .inl hnothing
                  · exact .inr (.inl (FailsByValue.of_bind hrun hfails.bind))
                  · exact .inr (.inr (.inl ⟨found :: bodies,
                      (bind_of_ok hrun).trans (bind_of_ok hbodies)⟩))
                  · obtain ⟨hkind, hphrases, hsub'⟩ := hback
                    obtain ⟨htoken, hclause'⟩ := phrase_of_body hopener hrun
                    refine .inr (.inr (.inr ⟨hby, lexeme :: (front ++ back), opener,
                      found :: bodies, by simp, hkind, ?_, ?_⟩))
                    · rw [List.map_cons, List.map_append, ← List.cons_append]
                      exact .cons htoken hphrases
                    · rw [List.map_cons, hclause', List.cons_append]
                      exact (hsub'.cons_cons opened).trans hsub
                · exact .inr (.inl hfails.bind)

/-- Where no word is being typed only the clauses of a request are completed. -/
theorem ofLexemes_cases {ahead : List Lexeme} (hpast : Past cursor ahead) :
    ofLexemes cursor ahead = nothing ∨
      ∃ (request : Request) (opener name : Lexeme) (rest : List Lexeme),
        ahead = opener :: name :: rest ∧ opener.kind = request.opener ∧
          name.kind = .word ∧ ofLexemes cursor ahead = clauses cursor [] request.clauses rest := by
  cases ahead with
  | nil => exact .inl rfl
  | cons opener tail =>
      unfold ofLexemes
      rw [hpast.openWord?_eq_none]
      dsimp only
      cases hrequest : Request.ofKind? opener.kind with
      | none => exact .inl rfl
      | some request =>
          cases tail with
          | nil => exact .inl rfl
          | cons name rest =>
              dsimp only
              unfold path
              rw [(hpast.suffix (List.suffix_cons _ _)).openWord?_eq_none]
              dsimp only
              split
              · rename_i hname
                exact .inr ⟨request, opener, name, rest, rfl, opener_of_ofKind? hrequest, hname,
                  rfl⟩
              · exact .inl rfl

theorem ofLexemes_request (request : Request) {opener name : Lexeme} {rest : List Lexeme}
    (hopen : openWord? cursor (name :: rest) = none) (hopener : opener.kind = request.opener)
    (hname : name.kind = .word) :
    ofLexemes cursor (opener :: name :: rest) = clauses cursor [] request.clauses rest := by
  have hrequest : Request.ofKind? opener.kind = some request := by
    rw [hopener, Request.ofKind?_opener]
  have hpair : openWord? cursor (opener :: name :: rest) = none := rfl
  unfold ofLexemes path
  simp only [hpair, hrequest, hopen, hname, if_true]

end Context

theorem collection_refuses {raw : String} (h : Path.normalize raw = "") (ahead : List Token) :
    FailsByValue Rule.collection (⟨.word, raw⟩ :: ahead) := by
  refine ⟨.invalidPath .collection raw, ahead, trivial, ?_⟩
  refine (bind_of_ok (expect_eq_ok.mpr rfl)).trans ?_
  simp only [h, if_true]
  rfl

section Text

variable {text : String}

theorem tokens_eq_lineOf (text : List Char) : tokens text = lineOf (lexemes text) := by
  rw [tokens_eq]
  rfl

theorem settled_lexemes (hend : EndsSeparated text.toList) (hterminated : Terminated text.toList) :
    Settled (byteLength text.toList) (lexemes text.toList) :=
  fun lexeme hmem => ⟨hterminated lexeme hmem, stop_lt hend hterminated hmem,
    kind_ne_endOfInput (hmem : lexeme ∈ lexemesFrom true 0 text.toList)⟩

theorem suggest_of_words {names : String → List String} {text : List Char} {offers : List Offer}
    (h : Context.ofText text = .words offers "") : suggest names text = offers := by
  have hstarts : ∀ offer : Offer, startsWith offer.text.toList "".toList = true := by
    intro offer
    cases hchars : offer.text.toList <;> rfl
  simp only [suggest, h, Context.suggestions, List.filter_eq_self]
  exact fun offer _ => hstarts offer

theorem suggest_of_request (names : String → List String) (hend : EndsSeparated text.toList)
    (hterminated : Terminated text.toList) {request : Request} {opener name : Lexeme}
    {rest : List Lexeme} {offers : List Offer}
    (hlexemes : lexemes text.toList = opener :: name :: rest)
    (hopener : opener.kind = request.opener) (hname : name.kind = .word)
    (hclauses : Settled (byteLength text.toList) rest →
      Context.clauses (byteLength text.toList) [] request.clauses rest = .words offers "") :
    suggest names text.toList = offers := by
  have hsettled := settled_lexemes hend hterminated
  rw [hlexemes] at hsettled
  apply suggest_of_words
  have hopen := Context.openWord?_eq_none hsettled.tail
  rw [Context.ofText, hlexemes, Context.ofLexemes_request request hopen hopener hname]
  exact hclauses hsettled.tail.tail

theorem tokensFrom_of_request {request : Request} {opener name : Lexeme} {rest : List Lexeme}
    (hlexemes : lexemes text.toList = opener :: name :: rest)
    (hopener : opener.kind = request.opener) (hname : name.kind = .word) :
    tokensFrom true text.toList =
      ⟨request.opener, opener.literal⟩ :: ⟨.word, name.literal⟩ :: rest.map Lexeme.token := by
  rw [← hopener, ← hname]
  exact congrArg (List.map Lexeme.token) hlexemes

theorem parse_accepts {request : Request} (hrequest : request ≠ .get) {opener name : Lexeme}
    {rest : List Lexeme} {bodies : List ClauseBody}
    (hlexemes : lexemes text.toList = opener :: name :: rest)
    (hopener : opener.kind = request.opener) (hname : name.kind = .word)
    (hpath : Path.normalize name.literal ≠ "")
    (hphrases : ClausePhrases (rest.map Lexeme.token) bodies)
    (hsub : (bodies.map ClauseBody.clause).Sublist request.clauses) :
    ∃ operation, parse text = .ok operation := by
  obtain ⟨operation, hphrase⟩ := (exists_operation_iff hrequest).mpr ⟨hpath, bodies, hphrases, hsub⟩
  refine ⟨operation, parse_eq_ok_iff_tokensFrom.mpr ?_⟩
  rw [tokensFrom_of_request hlexemes hopener hname]
  exact hphrase

theorem parse_refuses {request : Request} (hrequest : request ≠ .get) {opener name : Lexeme}
    {rest : List Lexeme} (hlexemes : lexemes text.toList = opener :: name :: rest)
    (hopener : opener.kind = request.opener) (hname : name.kind = .word)
    (hfails : Path.normalize name.literal = "" ∨
      FailsByValue (Rule.clauses request.clauses none request.clauses) (lineOf rest)) :
    ∃ cause, parse text = .error cause ∧ cause.IsValueError := by
  have hkind : opener.token.kind = request.opener := hopener
  have hline : lineOf (name :: rest) = ⟨.word, name.literal⟩ :: lineOf rest := by
    rw [← hname]
    rfl
  have htokens : tokens text.toList = opener.token :: ⟨.word, name.literal⟩ :: lineOf rest := by
    rw [tokens_eq_lineOf, hlexemes, ← hline]
    rfl
  have hfailing :
      FailsByValue (Rule.operation opener.token) (⟨.word, name.literal⟩ :: lineOf rest) := by
    rw [operation_of_request hrequest hkind]
    by_cases hpath : Path.normalize name.literal = ""
    · exact (collection_refuses hpath _).bind
    · exact .of_bind (collection_eq_ok.mpr ⟨_, hpath, rfl, rfl⟩) (hfails.resolve_left hpath).bind
  obtain ⟨cause, behind, hcause, hrun⟩ := hfailing
  exact ⟨cause, by rw [parse_eq text htokens, hrun], hcause⟩

/-- Behind an operation the completer offers what may follow its tokens. -/
theorem suggest_of_parse (names : String → List String) (hend : EndsSeparated text.toList)
    (hterminated : Terminated text.toList) {operation : Operation} {request : Request}
    (hparse : parse text = .ok operation) (hrequest : operation.request? = some request) :
    suggest names text.toList = offersAfter request.clauses (tokensFrom true text.toList) := by
  obtain ⟨opening, raw, back, bodies, htokens, hphrases, hsub⟩ :=
    (parse_eq_ok_iff_tokensFrom.mp hparse).request_cases hrequest
  obtain ⟨opener, tail, hlexemes, hopener, hrest⟩ := List.map_eq_cons_iff.mp htokens
  obtain ⟨name, rest, rfl, hname, rfl⟩ := List.map_eq_cons_iff.mp hrest
  have hbehind : offersAfter request.clauses (tokensFrom true text.toList) =
      offersAfter request.clauses (rest.map Lexeme.token) := by
    rw [htokens, offersAfter_cons, offersAfter_cons _ rfl (by simp) (by simp)]
    all_goals cases request <;> simp [Request.opener, Clause.ofOpener?]
  rw [hbehind]
  refine suggest_of_request names hend hterminated hlexemes (congrArg Token.kind hopener)
    (congrArg Token.kind hname) fun hsettled => ?_
  exact Context.clauses_eq_offersAfter hphrases hsettled request.nodup_clauses hsub

/-- Something is offered only behind a request with clauses, of which a value is refused, or all
are whole, or the last one misses the second word of `ORDER BY`. -/
theorem suggest_cases (names : String → List String) (hend : EndsSeparated text.toList)
    (hterminated : Terminated text.toList) (hsome : suggest names text.toList ≠ []) :
    ∃ (request : Request) (opener name : Lexeme) (rest : List Lexeme), request ≠ .get ∧
      lexemes text.toList = opener :: name :: rest ∧ opener.kind = request.opener ∧
      name.kind = .word ∧
      (FailsByValue (Rule.clauses request.clauses none request.clauses) (lineOf rest) ∨
        (∃ bodies, ClausePhrases (rest.map Lexeme.token) bodies ∧
          (bodies.map ClauseBody.clause).Sublist request.clauses) ∨
        suggest names text.toList = [byOffer] ∧ Context.EndsInOrder request.clauses rest) := by
  have hsettled := settled_lexemes hend hterminated
  rcases Context.ofLexemes_cases (Context.past_of_settled hsettled) with
    hnothing | ⟨request, opener, name, rest, hlexemes, hopener, hname, hcontext⟩
  · exact absurd (suggest_of_words hnothing) hsome
  · have hrest : Settled (byteLength text.toList) rest := by
      rw [hlexemes] at hsettled
      exact hsettled.tail.tail
    have hofText : Context.ofText text.toList =
        Context.clauses (byteLength text.toList) [] request.clauses rest := hcontext
    have hget : request ≠ .get := by
      rintro rfl
      exact hsome (suggest_of_words (hofText.trans (Context.clauses_of_nil hrest)))
    refine ⟨request, opener, name, rest, hget, hlexemes, hopener, hname, ?_⟩
    rcases Context.clauses_outcome request.clauses none [] request.clauses hrest with
      hnothing | hfails | ⟨bodies, hbodies⟩ | ⟨horder, hends⟩
    · exact absurd (suggest_of_words (hofText.trans hnothing)) hsome
    · exact .inl hfails
    · obtain ⟨front, hline, hphrases, hsub, -⟩ := clauses_sound hbodies
      obtain rfl := List.append_cancel_right hline
      exact .inr (.inl ⟨bodies, hphrases, hsub⟩)
    · exact .inr (.inr ⟨suggest_of_words (hofText.trans horder), hends⟩)

/-- Where the completer offers something else than `BY`, the parser refuses no more than a
value. -/
theorem parse_of_suggest (names : String → List String) (hend : EndsSeparated text.toList)
    (hterminated : Terminated text.toList) (hsome : suggest names text.toList ≠ [])
    (hby : suggest names text.toList ≠ [byOffer]) :
    (∃ operation, parse text = .ok operation) ∨
      ∃ cause, parse text = .error cause ∧ cause.IsValueError := by
  obtain ⟨request, opener, name, rest, hget, hlexemes, hopener, hname, hrest⟩ :=
    suggest_cases names hend hterminated hsome
  by_cases hpath : Path.normalize name.literal = ""
  · exact .inr (parse_refuses hget hlexemes hopener hname (.inl hpath))
  · rcases hrest with hfails | ⟨bodies, hphrases, hsub⟩ | ⟨horder, -⟩
    · exact .inr (parse_refuses hget hlexemes hopener hname (.inr hfails))
    · exact .inl (parse_accepts hget hlexemes hopener hname hpath hphrases hsub)
    · exact absurd horder hby

/-- The completer and the parser agree on what has been typed. -/
theorem completion_agrees (names : String → List String) (text : String)
    (hend : EndsSeparated text.toList) (hterminated : Terminated text.toList) :
    (∀ operation request, parse text = .ok operation → operation.request? = some request →
      suggest names text.toList =
        offersAfter request.clauses (tokensFrom true text.toList)) ∧
    (suggest names text.toList ≠ [] → suggest names text.toList ≠ [byOffer] →
      (∃ operation, parse text = .ok operation) ∨
        ∃ cause, parse text = .error cause ∧ cause.IsValueError) :=
  ⟨fun _ _ => suggest_of_parse names hend hterminated, parse_of_suggest names hend hterminated⟩

/-- A filter may be followed by another one, or by the clauses behind it. -/
theorem suggest_behind_filter :
    suggest (fun _ => []) "QUERY /users WHERE age > 1 ".toList =
      [andOffer, Clause.order.offer, Clause.limit.offer] := by
  have hagrees := completion_agrees (fun _ => []) "QUERY /users WHERE age > 1 "
    (by unfold EndsSeparated; decide) (by unfold Terminated; decide +kernel)
  have hparse : parse "QUERY /users WHERE age > 1 " =
      .ok (.query ⟨"users", [], [⟨"age", .compare .greater, .scalar (.int 1)⟩], [], 0⟩) := by
    decide +kernel
  rw [hagrees.1 _ .query hparse rfl]
  decide +kernel

end Text

end DocShell.Completion
