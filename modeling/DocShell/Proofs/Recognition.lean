import DocShell.Proofs.Lexing
import DocShell.Proofs.PathSegments
import DocShell.Proofs.Reading

namespace DocShell.Query

open DocShell.Text.Ascii
open DocShell.Text.Segments

def Request.opener : Request → TokenKind
  | get => .keyword .get
  | query => .keyword .query
  | count => .keyword .count

@[simp] theorem Request.ofKind?_opener (request : Request) :
    ofKind? request.opener = some request := by
  cases request <;> rfl

namespace Clause

theorem opener_ne_endOfInput (clause : Clause) : clause.opener ≠ .endOfInput := by
  cases clause <;> simp [opener]

theorem find?_eq_some {kind : TokenKind} {clauses later : List Clause} {clause : Clause}
    (h : find? kind clauses = some (clause, later)) :
    clause.opener = kind ∧ (clause :: later).Sublist clauses := by
  induction clauses with
  | nil => cases h
  | cons c cs ih =>
      simp only [find?] at h
      split at h
      · rename_i hopener
        cases h
        exact ⟨hopener, List.Sublist.refl _⟩
      · obtain ⟨hopener, hsub⟩ := ih h
        exact ⟨hopener, hsub.cons c⟩

theorem find?_of_sublist {clauses rest : List Clause} {clause : Clause} (hnodup : clauses.Nodup)
    (h : (clause :: rest).Sublist clauses) :
    ∃ later, find? clause.opener clauses = some (clause, later) ∧ rest.Sublist later := by
  induction clauses with
  | nil => cases h
  | cons c cs ih =>
      obtain ⟨hc, hcs⟩ := List.nodup_cons.mp hnodup
      simp only [find?]
      cases h with
      | cons _ h =>
          have hne : c ≠ clause := by
            rintro rfl
            exact hc (h.subset (List.mem_cons_self ..))
          rw [if_neg fun hopener => hne (opener_injective hopener)]
          exact ih hcs h
      | cons_cons _ h => exact ⟨cs, if_pos rfl, h⟩

end Clause

namespace Rule

/-- Nothing follows but the end of the line. -/
def AtEnd (ahead : List Token) : Prop := ∀ token ∈ ahead.head?, token.kind = .endOfInput

theorem clauses_of_atEnd {table later : List Clause} {last : Option Clause} {ahead : List Token}
    (h : AtEnd ahead) : clauses table last later ahead = .ok [] ahead := by
  cases ahead with
  | nil => rw [clauses]
  | cons token rest =>
      rw [clauses, if_pos (h token rfl)]

theorem clauses_of_find {table later later' : List Clause} {last : Option Clause} {token : Token}
    {clause : Clause} (h : Clause.find? token.kind later = some (clause, later'))
    (rest : List Token) :
    clauses table last later (token :: rest) =
      (body clause >>= fun first => clauses table (some clause) later' >>= fun others =>
        pure (first :: others)) rest := by
  have hend : token.kind ≠ .endOfInput :=
    (Clause.find?_eq_some h).1 ▸ clause.opener_ne_endOfInput
  rw [clauses, if_neg hend]
  split
  · rename_i found later'' hfind
    rw [h] at hfind
    cases hfind
    rfl
  · rename_i hfind
    rw [h] at hfind
    cases hfind

theorem clauses_of_not_find {table later : List Clause} {last : Option Clause} {token : Token}
    (hend : token.kind ≠ .endOfInput) (h : Clause.find? token.kind later = none)
    (rest : List Token) :
    clauses table last later (token :: rest) =
      .error (misplaced table last token) (token :: rest) := by
  rw [clauses, if_neg hend]
  split
  · rename_i found later'' hfind
    rw [h] at hfind
    cases hfind
  · rfl

theorem clauses_sound {table later : List Clause} {last : Option Clause}
    {ahead rest : List Token} {bodies : List ClauseBody}
    (h : clauses table last later ahead = .ok bodies rest) :
    ∃ front, ahead = front ++ rest ∧ ClausePhrases front bodies ∧
      (bodies.map ClauseBody.clause).Sublist later ∧ AtEnd rest := by
  induction hlength : later.length using Nat.strongRecOn
    generalizing later last ahead bodies with
  | ind length ih =>
      rcases ahead with _ | ⟨token, tail⟩
      · rw [clauses] at h
        cases h
        exact ⟨[], rfl, .nil, List.nil_sublist _, by simp [AtEnd]⟩
      · by_cases hend : token.kind = .endOfInput
        · rw [clauses_of_atEnd (by simpa [AtEnd] using hend)] at h
          cases h
          exact ⟨[], rfl, .nil, List.nil_sublist _, by simpa [AtEnd] using hend⟩
        · cases hfind : Clause.find? token.kind later with
          | none =>
              rw [clauses_of_not_find hend hfind] at h
              cases h
          | some found =>
              obtain ⟨clause, later'⟩ := found
              rw [clauses_of_find hfind] at h
              obtain ⟨first, behind, hfirst, h⟩ := bind_eq_ok h
              obtain ⟨others, behind', hothers, hpure⟩ := bind_eq_ok h
              obtain ⟨rfl, rfl⟩ := pure_eq_ok.mp hpure
              obtain ⟨hopener, hsub⟩ := Clause.find?_eq_some hfind
              have hshorter : later'.length < length := hlength ▸ Clause.find?_length hfind
              obtain ⟨back, rfl, hback, hlater, hrest⟩ := ih _ hshorter hothers rfl
              obtain ⟨front, rfl, hfront⟩ := (reads_body clause token.literal).sound hfirst
              obtain ⟨opening, inner, hcons⟩ := hfront.exists_cons
              have hclause : clause = first.clause := by
                simp only [List.cons.injEq, Token.mk.injEq] at hcons
                exact Clause.opener_injective hcons.1.1
              have htoken : (⟨clause.opener, token.literal⟩ : Token) = token := by rw [hopener]
              rw [htoken] at hfront
              refine ⟨(token :: front) ++ back, by simp, .cons hfront hback, ?_, hrest⟩
              rw [List.map_cons, ← hclause]
              exact (hlater.cons_cons clause).trans hsub

theorem avoids_of_clausePhrases {tokens rest : List Token} {bodies : List ClauseBody}
    (h : ClausePhrases tokens bodies) (hrest : Avoids bodyFurther rest) :
    Avoids bodyFurther (tokens ++ rest) := by
  cases h with
  | nil => exact hrest
  | @cons front back body bodies hfront _ =>
      obtain ⟨opening, inner, rfl⟩ := hfront.exists_cons
      refine avoids_cons.mpr ?_
      cases body <;> simp [bodyFurther, ClauseBody.clause, Clause.opener]

theorem AtEnd.avoids {rest : List Token} (h : AtEnd rest) : Avoids bodyFurther rest := by
  intro token hmem
  rw [h token hmem]
  simp [bodyFurther]

theorem clauses_complete {table later : List Clause} {last : Option Clause}
    {tokens rest : List Token} {bodies : List ClauseBody} (hphrases : ClausePhrases tokens bodies)
    (hnodup : later.Nodup) (hsub : (bodies.map ClauseBody.clause).Sublist later)
    (hrest : AtEnd rest) : clauses table last later (tokens ++ rest) = .ok bodies rest := by
  induction hphrases generalizing last later with
  | nil => exact clauses_of_atEnd hrest
  | @cons front back body bodies hfront hback ih =>
      obtain ⟨opening, inner, rfl⟩ := hfront.exists_cons
      obtain ⟨later', hfind, hsub'⟩ := Clause.find?_of_sublist hnodup hsub
      have hnodup' : later'.Nodup :=
        (List.nodup_cons.mp (hnodup.sublist (Clause.find?_eq_some hfind).2)).2
      have hbody := (reads_body body.clause opening).complete hfront
        (avoids_of_clausePhrases hback hrest.avoids)
      rw [List.append_assoc, List.cons_append, clauses_of_find hfind]
      refine (bind_of_ok hbody).trans ?_
      exact bind_of_ok (ih hnodup' hsub')

end Rule

section Optional

variable {α : Type} (body : α → ClauseBody) {absent : α} {clause : Clause} {later : List Clause}

/-- The first clause of a table stands in front of the others or is left out. -/
theorem ClausePhrases.split (absent : α) {tokens : List Token} {bodies : List ClauseBody}
    (hbody : ∀ found : ClauseBody, found.clause = clause → ∃ value, found = body value)
    (h : ClausePhrases tokens bodies)
    (hsub : (bodies.map ClauseBody.clause).Sublist (clause :: later)) :
    ∃ front back value others, tokens = front ++ back ∧ OptionalClause body absent front value ∧
      ClausePhrases back others ∧ (others.map ClauseBody.clause).Sublist later ∧
      (bodies = body value :: others ∨ bodies = others ∧ value = absent) := by
  rcases List.sublist_cons_iff.mp hsub with hsub | ⟨rest, hmap, hrest⟩
  · exact ⟨[], tokens, absent, bodies, rfl, .absent, h, hsub, .inr ⟨rfl, rfl⟩⟩
  · cases h with
    | nil => cases hmap
    | @cons front back found others hfront hback =>
        simp only [List.map_cons, List.cons.injEq] at hmap
        obtain ⟨hclause, rfl⟩ := hmap
        obtain ⟨value, rfl⟩ := hbody found hclause
        exact ⟨front, back, value, others, rfl, .present hfront, hback, hrest, .inl rfl⟩

theorem ClausePhrases.join (clause : Clause) {front back : List Token} {value : α}
    {others : List ClauseBody}
    (hbody : ∀ value, (body value).clause = clause)
    (hfront : OptionalClause body absent front value) (hback : ClausePhrases back others)
    (hsub : (others.map ClauseBody.clause).Sublist later) :
    ∃ bodies, ClausePhrases (front ++ back) bodies ∧
      (bodies.map ClauseBody.clause).Sublist (clause :: later) ∧
      (bodies = body value :: others ∨ bodies = others ∧ value = absent) := by
  cases hfront with
  | absent => exact ⟨others, hback, hsub.cons clause, .inr ⟨rfl, rfl⟩⟩
  | present hphrase =>
      refine ⟨body value :: others, .cons hphrase hback, ?_, .inl rfl⟩
      rw [List.map_cons, hbody]
      exact hsub.cons_cons clause

end Optional

theorem ClausePhrases.eq_nil {tokens : List Token} {bodies : List ClauseBody}
    (h : ClausePhrases tokens bodies) (hsub : (bodies.map ClauseBody.clause).Sublist []) :
    tokens = [] ∧ bodies = [] := by
  have hbodies : bodies = [] := by simpa using hsub
  subst hbodies
  cases h
  exact ⟨rfl, rfl⟩

/-- The clauses of a query, in their order, say what the selection has. -/
theorem clausePhrases_query_iff {tokens : List Token} {collection : String}
    {selection : Selection} :
    (∃ bodies, ClausePhrases tokens bodies ∧
      (bodies.map ClauseBody.clause).Sublist Request.query.clauses ∧
      Selection.ofClauses collection bodies = selection) ↔
    ∃ selects filters orders limits fields conditions orderings limit,
      tokens = selects ++ (filters ++ (orders ++ limits)) ∧
      OptionalClause .select [] selects fields ∧ OptionalClause .filter [] filters conditions ∧
      OptionalClause .order [] orders orderings ∧ OptionalClause .limit 0 limits limit ∧
      selection = ⟨collection, fields, conditions, orderings, limit⟩ := by
  constructor
  · rintro ⟨bodies, hphrases, hsub, rfl⟩
    obtain ⟨selects, tokens, fields, bodies, rfl, hselects, hphrases, hsub, hfields⟩ :=
      hphrases.split .select [] (by rintro ⟨⟩ <;> simp [ClauseBody.clause]) hsub
    obtain ⟨filters, tokens, conditions, bodies, rfl, hfilters, hphrases, hsub, hconditions⟩ :=
      hphrases.split .filter [] (by rintro ⟨⟩ <;> simp [ClauseBody.clause]) hsub
    obtain ⟨orders, tokens, orderings, bodies, rfl, horders, hphrases, hsub, horderings⟩ :=
      hphrases.split .order [] (by rintro ⟨⟩ <;> simp [ClauseBody.clause]) hsub
    obtain ⟨limits, tokens, limit, bodies, rfl, hlimits, hphrases, hsub, hlimit⟩ :=
      hphrases.split .limit 0 (by rintro ⟨⟩ <;> simp [ClauseBody.clause]) hsub
    obtain ⟨rfl, rfl⟩ := hphrases.eq_nil hsub
    refine ⟨selects, filters, orders, limits, fields, conditions, orderings, limit,
      by rw [List.append_nil], hselects, hfilters, horders, hlimits, ?_⟩
    rcases hfields with rfl | ⟨rfl, rfl⟩ <;> rcases hconditions with rfl | ⟨rfl, rfl⟩ <;>
      rcases horderings with rfl | ⟨rfl, rfl⟩ <;> rcases hlimit with rfl | ⟨rfl, rfl⟩ <;> rfl
  · rintro ⟨selects, filters, orders, limits, fields, conditions, orderings, limit, rfl, hselects,
      hfilters, horders, hlimits, rfl⟩
    obtain ⟨bodies, hphrases, hsub, hlimit⟩ :=
      ClausePhrases.join .limit .limit (fun _ => rfl) hlimits .nil (List.nil_sublist [])
    obtain ⟨bodies, hphrases, hsub, horderings⟩ :=
      ClausePhrases.join .order .order (fun _ => rfl) horders hphrases hsub
    obtain ⟨bodies, hphrases, hsub, hconditions⟩ :=
      ClausePhrases.join .filter .filter (fun _ => rfl) hfilters hphrases hsub
    obtain ⟨bodies, hphrases, hsub, hfields⟩ :=
      ClausePhrases.join .select .select (fun _ => rfl) hselects hphrases hsub
    rw [List.append_nil] at hphrases
    refine ⟨bodies, hphrases, hsub, ?_⟩
    rcases hfields with rfl | ⟨rfl, rfl⟩ <;> rcases hconditions with rfl | ⟨rfl, rfl⟩ <;>
      rcases horderings with rfl | ⟨rfl, rfl⟩ <;> rcases hlimit with rfl | ⟨rfl, rfl⟩ <;> rfl

theorem clausePhrases_count_iff (collection : String) {tokens : List Token}
    {conditions : List Filter} :
    (∃ bodies, ClausePhrases tokens bodies ∧
      (bodies.map ClauseBody.clause).Sublist Request.count.clauses ∧
      (Selection.ofClauses collection bodies).filters = conditions) ↔
    OptionalClause .filter [] tokens conditions := by
  constructor
  · rintro ⟨bodies, hphrases, hsub, rfl⟩
    obtain ⟨filters, tokens, conditions, bodies, rfl, hfilters, hphrases, hsub, hconditions⟩ :=
      hphrases.split .filter [] (by rintro ⟨⟩ <;> simp [ClauseBody.clause]) hsub
    obtain ⟨rfl, rfl⟩ := hphrases.eq_nil hsub
    rw [List.append_nil]
    rcases hconditions with rfl | ⟨rfl, rfl⟩
    · exact hfilters
    · exact hfilters
  · intro hfilters
    obtain ⟨bodies, hphrases, hsub, hconditions⟩ :=
      ClausePhrases.join .filter .filter (fun _ => rfl) hfilters .nil (List.nil_sublist [])
    rw [List.append_nil] at hphrases
    refine ⟨bodies, hphrases, hsub, ?_⟩
    rcases hconditions with rfl | ⟨rfl, rfl⟩ <;> rfl

theorem exists_operation_iff {request : Request} (hrequest : request ≠ .get) {opening raw : String}
    {back : List Token} :
    (∃ operation, OperationPhrase (⟨request.opener, opening⟩ :: ⟨.word, raw⟩ :: back) operation) ↔
      Path.normalize raw ≠ "" ∧ ∃ bodies, ClausePhrases back bodies ∧
        (bodies.map ClauseBody.clause).Sublist request.clauses := by
  constructor
  · rintro ⟨operation, h⟩
    cases request with
    | get => exact absurd rfl hrequest
    | query =>
        cases h with
        | query hraw hselects hfilters horders hlimits =>
            obtain ⟨bodies, hphrases, hsub, -⟩ := clausePhrases_query_iff.mpr
              ⟨_, _, _, _, _, _, _, _, rfl, hselects, hfilters, horders, hlimits,
                (rfl : _ = Selection.mk raw _ _ _ _)⟩
            exact ⟨hraw, bodies, hphrases, hsub⟩
    | count =>
        cases h with
        | count hraw hfilters =>
            obtain ⟨bodies, hphrases, hsub, -⟩ := (clausePhrases_count_iff raw).mpr hfilters
            exact ⟨hraw, bodies, hphrases, hsub⟩
  · rintro ⟨hraw, bodies, hphrases, hsub⟩
    cases request with
    | get => exact absurd rfl hrequest
    | query =>
        obtain ⟨_, _, _, _, _, _, _, _, rfl, hselects, hfilters, horders, hlimits, -⟩ :=
          clausePhrases_query_iff.mp ⟨bodies, hphrases, hsub, (rfl : Selection.ofClauses raw _ = _)⟩
        exact ⟨_, .query hraw hselects hfilters horders hlimits⟩
    | count =>
        have hfilters := (clausePhrases_count_iff raw).mp ⟨bodies, hphrases, hsub, rfl⟩
        exact ⟨_, .count hraw hfilters⟩

namespace Rule

theorem collection_eq_ok {ahead rest : List Token} {path : String} :
    collection ahead = .ok path rest ↔
      ∃ raw, Path.normalize raw ≠ "" ∧ Path.normalize raw = path ∧
        ahead = ⟨.word, raw⟩ :: rest := by
  constructor
  · intro h
    obtain ⟨raw, behind, hraw, h⟩ := bind_eq_ok h
    rw [expect_eq_ok] at hraw
    dsimp only at h
    split at h
    · exact absurd h throw_ne_ok
    · rename_i hpath
      obtain ⟨rfl, rfl⟩ := pure_eq_ok.mp h
      exact ⟨raw, hpath, rfl, hraw⟩
  · rintro ⟨raw, hpath, rfl, rfl⟩
    refine (bind_of_ok (expect_eq_ok.mpr rfl)).trans ?_
    simp only [hpath, if_false]
    rfl

theorem expectEnd_eq_ok {ahead rest : List Token} {found : Unit} :
    expectEnd ahead = .ok found rest ↔ ahead = rest ∧ AtEnd rest := by
  cases ahead with
  | nil =>
      simp only [expectEnd, EStateM.Result.ok.injEq, true_and]
      constructor
      · rintro rfl
        exact ⟨rfl, by simp [AtEnd]⟩
      · exact And.left
  | cons token tail =>
      simp only [expectEnd]
      split
      · rename_i hend
        simp only [EStateM.Result.ok.injEq, true_and]
        constructor
        · rintro rfl
          exact ⟨rfl, by simpa [AtEnd] using hend⟩
        · exact And.left
      · rename_i hend
        constructor
        · intro h
          cases h
        · rintro ⟨rfl, hatEnd⟩
          exact absurd (hatEnd token rfl) hend

theorem expectEnd_of_atEnd {rest : List Token} (h : AtEnd rest) : expectEnd rest = .ok () rest :=
  expectEnd_eq_ok.mpr ⟨rfl, h⟩

theorem query_eq_ok (opening : String) {ahead rest : List Token} {found : Operation} :
    query ahead = .ok found rest ↔ ∃ front,
      OperationPhrase (⟨.keyword .query, opening⟩ :: front) found ∧ ahead = front ++ rest ∧
        AtEnd rest := by
  constructor
  · intro h
    obtain ⟨path, behind, hpath, h⟩ := bind_eq_ok h
    obtain ⟨bodies, behind', hbodies, hpure⟩ := bind_eq_ok h
    obtain ⟨rfl, rfl⟩ := pure_eq_ok.mp hpure
    obtain ⟨raw, hraw, rfl, rfl⟩ := collection_eq_ok.mp hpath
    obtain ⟨front, rfl, hphrases, hsub, hrest⟩ := clauses_sound hbodies
    obtain ⟨selects, filters, orders, limits, fields, conditions, orderings, limit, rfl, hselects,
      hfilters, horders, hlimits, hselection⟩ :=
      clausePhrases_query_iff.mp ⟨bodies, hphrases, hsub, rfl⟩
    refine ⟨⟨.word, raw⟩ :: _, ?_, List.cons_append.symm, hrest⟩
    rw [hselection]
    exact .query hraw hselects hfilters horders hlimits
  · rintro ⟨front, hphrase, rfl, hrest⟩
    cases hphrase with
    | query hraw hselects hfilters horders hlimits =>
        obtain ⟨bodies, hphrases, hsub, hselection⟩ := clausePhrases_query_iff.mpr
          ⟨_, _, _, _, _, _, _, _, rfl, hselects, hfilters, horders, hlimits, rfl⟩
        refine (bind_of_ok (collection_eq_ok.mpr ⟨_, hraw, rfl, rfl⟩)).trans ?_
        refine (bind_of_ok (clauses_complete hphrases (by decide) hsub hrest)).trans ?_
        rw [hselection]
        rfl

theorem count_eq_ok (opening : String) {ahead rest : List Token} {found : Operation} :
    count ahead = .ok found rest ↔ ∃ front,
      OperationPhrase (⟨.keyword .count, opening⟩ :: front) found ∧ ahead = front ++ rest ∧
        AtEnd rest := by
  constructor
  · intro h
    obtain ⟨path, behind, hpath, h⟩ := bind_eq_ok h
    obtain ⟨bodies, behind', hbodies, hpure⟩ := bind_eq_ok h
    obtain ⟨rfl, rfl⟩ := pure_eq_ok.mp hpure
    obtain ⟨raw, hraw, rfl, rfl⟩ := collection_eq_ok.mp hpath
    obtain ⟨front, rfl, hphrases, hsub, hrest⟩ := clauses_sound hbodies
    have hfilters := (clausePhrases_count_iff (Path.normalize raw)).mp ⟨bodies, hphrases, hsub, rfl⟩
    exact ⟨⟨.word, raw⟩ :: front, .count hraw hfilters, List.cons_append.symm, hrest⟩
  · rintro ⟨front, hphrase, rfl, hrest⟩
    cases hphrase with
    | @count _ raw _ _ hraw hfilters =>
        obtain ⟨bodies, hphrases, hsub, hconditions⟩ :=
          (clausePhrases_count_iff (Path.normalize raw)).mpr hfilters
        refine (bind_of_ok (collection_eq_ok.mpr ⟨_, hraw, rfl, rfl⟩)).trans ?_
        refine (bind_of_ok (clauses_complete hphrases (by decide) hsub hrest)).trans ?_
        rw [hconditions]
        rfl

theorem get_eq_ok (opening : String) {ahead rest : List Token} {found : Operation} :
    get ahead = .ok found rest ↔ ∃ front,
      OperationPhrase (⟨.keyword .get, opening⟩ :: front) found ∧ ahead = front ++ rest ∧
        AtEnd rest := by
  constructor
  · intro h
    obtain ⟨raw, behind, hraw, h⟩ := bind_eq_ok h
    rw [expect_eq_ok] at hraw
    cases hsplit : Path.splitLast? (Path.normalize raw) with
    | none =>
        simp only [hsplit] at h
        exact absurd h throw_ne_ok
    | some parts =>
        obtain ⟨parent, last⟩ := parts
        simp only [hsplit] at h
        obtain ⟨hpath, hlast⟩ := Path.splitLast?_eq_some_iff.mp hsplit
        split at h
        · obtain ⟨_, _, hthrow, -⟩ := bind_eq_ok h
          exact absurd hthrow throw_ne_ok
        · rename_i hshape
          simp only [not_or, Path.not_isDocument_iff] at hshape
          obtain ⟨hparent, hdocument, hodd⟩ := hshape
          obtain ⟨_, behind', hend, hpure⟩ := bind_eq_ok h
          obtain ⟨rfl, hrest⟩ := expectEnd_eq_ok.mp hend
          obtain ⟨rfl, rfl⟩ := pure_eq_ok.mp hpure
          exact ⟨[⟨.word, raw⟩], .get hpath hlast hparent hdocument hodd, hraw, hrest⟩
  · rintro ⟨front, hphrase, rfl, hrest⟩
    cases hphrase with
    | get hpath hlast hparent hdocument hodd =>
        have hsplit := Path.splitLast?_eq_some_iff.mpr ⟨hpath, hlast⟩
        refine (bind_of_ok (expect_eq_ok.mpr rfl)).trans ?_
        simp only [hsplit]
        rw [if_neg (by simp [hparent, hdocument, Path.not_isDocument_iff.mpr hodd])]
        exact bind_of_ok (expectEnd_of_atEnd hrest)

theorem base_eq_ok {ahead rest : List Token} {path : String} :
    base ahead = .ok path rest ↔
      (path = "" ∧ ahead = rest ∧ Avoids [.word] rest) ∨
      ∃ raw, (Path.normalize raw = "" ∨ (Path.segments (Path.normalize raw)).length % 2 = 0) ∧
        Path.normalize raw = path ∧ ahead = ⟨.word, raw⟩ :: rest := by
  constructor
  · intro h
    obtain ⟨found, behind, hfound, hpath⟩ := bind_eq_ok h
    rcases optional_eq_ok hfound with ⟨raw, rfl, rfl⟩ | ⟨rfl, rfl, havoid⟩
    · dsimp only at hpath
      split at hpath
      · rename_i hshape
        rw [Path.isDocument_iff] at hshape
        obtain ⟨rfl, rfl⟩ := pure_eq_ok.mp hpath
        exact .inr ⟨raw, hshape, rfl, rfl⟩
      · exact absurd hpath throw_ne_ok
    · obtain ⟨rfl, rfl⟩ := pure_eq_ok.mp hpath
      exact .inl ⟨rfl, rfl, havoid⟩
  · rintro (⟨rfl, rfl, havoid⟩ | ⟨raw, hshape, rfl, rfl⟩)
    · exact bind_of_ok (optional_of_avoids havoid)
    · refine (bind_of_ok (optional_of_kind _ _ _)).trans ?_
      rw [← Path.isDocument_iff] at hshape
      simp only [hshape, if_true]
      rfl

theorem listCollections_eq_ok (opening : String) {ahead rest : List Token} {found : Operation} :
    listCollections ahead = .ok found rest ↔ ∃ front,
      OperationPhrase (⟨.command .listCollections, opening⟩ :: front) found ∧
        ahead = front ++ rest ∧ AtEnd rest := by
  constructor
  · intro h
    obtain ⟨path, behind, hpath, h⟩ := bind_eq_ok h
    obtain ⟨_, behind', hend, hpure⟩ := bind_eq_ok h
    obtain ⟨rfl, hrest⟩ := expectEnd_eq_ok.mp hend
    obtain ⟨rfl, rfl⟩ := pure_eq_ok.mp hpure
    rcases base_eq_ok.mp hpath with ⟨rfl, rfl, -⟩ | ⟨raw, hshape, rfl, rfl⟩
    · exact ⟨[], .root, rfl, hrest⟩
    · exact ⟨[_], .base hshape, rfl, hrest⟩
  · rintro ⟨front, hphrase, rfl, hrest⟩
    cases hphrase with
    | root =>
        have havoid : Avoids [.word] rest := by
          intro token hmem
          rw [hrest token hmem]
          simp
        refine (bind_of_ok (base_eq_ok.mpr (.inl ⟨rfl, rfl, havoid⟩))).trans ?_
        exact bind_of_ok (expectEnd_of_atEnd hrest)
    | base hshape =>
        refine (bind_of_ok (base_eq_ok.mpr (.inr ⟨_, hshape, rfl, rfl⟩))).trans ?_
        exact bind_of_ok (expectEnd_of_atEnd hrest)

theorem switch_eq_ok {command : String} {ahead rest : List Token} {enabled : Bool} :
    switch command ahead = .ok enabled rest ↔
      ∃ word, IsSwitch word enabled ∧ ahead = ⟨.word, word⟩ :: rest := by
  rcases ahead with _ | ⟨⟨kind, literal⟩, tail⟩
  · simp [switch]
  · have hon : lower "on".toList = "on".toList := by decide
    have hoff : lower "off".toList = "off".toList := by decide
    simp only [switch, sameLetters_iff, hon, hoff, List.cons.injEq, Token.mk.injEq, IsSwitch]
    constructor
    · intro h
      split at h
      · rename_i hword
        cases h
        exact ⟨literal, hword.2, ⟨hword.1, rfl⟩, rfl⟩
      · split at h
        · rename_i hword
          cases h
          exact ⟨literal, hword.2, ⟨hword.1, rfl⟩, rfl⟩
        · cases h
    · rintro ⟨word, hword, ⟨rfl, rfl⟩, rfl⟩
      cases enabled with
      | true => exact if_pos ⟨rfl, hword⟩
      | false =>
          have hne : lower literal.toList ≠ "on".toList := by
            rw [hword]
            decide
          rw [if_neg fun h => hne h.2]
          exact if_pos ⟨rfl, hword⟩

theorem pager_eq_ok (opening : String) {command : String} {ahead rest : List Token}
    {found : Operation} :
    pager command ahead = .ok found rest ↔ ∃ front,
      OperationPhrase (⟨.command .pager, opening⟩ :: front) found ∧
        ahead = front ++ rest ∧ AtEnd rest := by
  constructor
  · intro h
    obtain ⟨enabled, behind, henabled, h⟩ := bind_eq_ok h
    obtain ⟨_, behind', hend, hpure⟩ := bind_eq_ok h
    obtain ⟨rfl, hrest⟩ := expectEnd_eq_ok.mp hend
    obtain ⟨rfl, rfl⟩ := pure_eq_ok.mp hpure
    obtain ⟨word, hword, rfl⟩ := switch_eq_ok.mp henabled
    exact ⟨[_], .pager hword, rfl, hrest⟩
  · rintro ⟨front, hphrase, rfl, hrest⟩
    cases hphrase with
    | pager hword =>
        refine (bind_of_ok (switch_eq_ok.mpr ⟨_, hword, rfl⟩)).trans ?_
        exact bind_of_ok (expectEnd_of_atEnd hrest)

theorem opener_of_ofKind? {kind : TokenKind} {request : Request}
    (h : Request.ofKind? kind = some request) : kind = request.opener := by
  unfold Request.ofKind? at h
  split at h <;> cases h <;> rfl

/-- What follows the token that a line begins with is read to the end. -/
theorem operation_eq_ok {token : Token} {ahead rest : List Token} {found : Operation} :
    operation token ahead = .ok found rest ↔ ∃ front,
      OperationPhrase (token :: front) found ∧ ahead = front ++ rest ∧ AtEnd rest := by
  obtain ⟨kind, literal⟩ := token
  constructor
  · intro h
    unfold operation at h
    dsimp only at h
    split at h
    · exact absurd h throw_ne_ok
    · exact (listCollections_eq_ok literal).mp h
    · exact (pager_eq_ok literal).mp h
    · cases hrequest : Request.ofKind? kind with
      | none =>
          simp only [hrequest] at h
          exact absurd h throw_ne_ok
      | some request =>
          obtain rfl := opener_of_ofKind? hrequest
          simp only [hrequest] at h
          cases request with
          | query => exact (query_eq_ok literal).mp h
          | get => exact (get_eq_ok literal).mp h
          | count => exact (count_eq_ok literal).mp h
  · rintro ⟨front, hphrase, hahead, hrest⟩
    have hread := hphrase
    cases hphrase with
    | query => exact (query_eq_ok literal).mpr ⟨_, hread, hahead, hrest⟩
    | count => exact (count_eq_ok literal).mpr ⟨_, hread, hahead, hrest⟩
    | get => exact (get_eq_ok literal).mpr ⟨_, hread, hahead, hrest⟩
    | root => exact (listCollections_eq_ok literal).mpr ⟨_, hread, hahead, hrest⟩
    | base => exact (listCollections_eq_ok literal).mpr ⟨_, hread, hahead, hrest⟩
    | pager => exact (pager_eq_ok literal).mpr ⟨_, hread, hahead, hrest⟩

end Rule

theorem parse_eq (line : String) {token : Token} {ahead : List Token}
    (h : tokens line.toList = token :: ahead) :
    parse line =
      match Rule.operation token ahead with
      | .ok operation _ => .ok operation
      | .error cause _ => .error cause := by
  have hdrop : (Parser.ofLine line).tokens.drop (Parser.ofLine line).cursor = token :: ahead := h
  rw [parse, Parser.next, hdrop]
  cases hrun : Rule.operation token ahead <;> simp [hrun]

theorem append_cons_eq_concat {α : Type} {front tail back : List α} {x last : α}
    (h : front ++ x :: tail = back ++ [last]) :
    (tail = [] ∧ front = back ∧ x = last) ∨
      ∃ middle, tail = middle ++ [last] ∧ back = front ++ x :: middle := by
  rcases List.eq_nil_or_concat tail with rfl | ⟨middle, last', rfl⟩
  · obtain ⟨hfront, hlast⟩ := List.append_inj' h rfl
    exact .inl ⟨rfl, hfront, List.singleton_inj.mp hlast⟩
  · rw [List.concat_eq_append, ← List.cons_append, ← List.append_assoc] at h
    obtain ⟨hback, hlast⟩ := List.append_inj' h rfl
    rw [List.concat_eq_append, List.singleton_inj.mp hlast]
    exact .inr ⟨middle, rfl, hback.symm⟩

theorem eq_of_append_atEnd {front back rest : List Token}
    (h : front ++ rest = back ++ [Token.atEnd])
    (hfront : ∀ token ∈ front, token.kind ≠ .endOfInput)
    (hback : ∀ token ∈ back, token.kind ≠ .endOfInput) (hrest : Rule.AtEnd rest) :
    front = back := by
  rcases List.append_eq_append_iff.mp h with ⟨more, rfl, rfl⟩ | ⟨more, rfl, hmore⟩
  · cases more with
    | nil => rw [List.append_nil]
    | cons token tail => exact absurd (hrest token rfl) (hback token (by simp))
  · cases more with
    | nil => rw [List.append_nil]
    | cons token tail =>
        simp only [List.cons_append, List.cons.injEq] at hmore
        exact absurd (congrArg Token.kind hmore.1).symm (hfront token (by simp))

/-- A line denotes an operation exactly if its tokens are a phrase for it. -/
theorem parse_eq_ok_iff_tokensFrom {line : String} {operation : Operation} :
    parse line = .ok operation ↔ OperationPhrase (tokensFrom true line.toList) operation := by
  constructor
  · intro h
    cases htokens : tokens line.toList with
    | nil => simp [tokens_eq] at htokens
    | cons token ahead =>
        rw [parse_eq line htokens] at h
        cases hrun : Rule.operation token ahead with
        | error cause rest => simp [hrun] at h
        | ok found rest =>
            simp only [hrun, Except.ok.injEq] at h
            subst h
            obtain ⟨front, hphrase, rfl, hrest⟩ := Rule.operation_eq_ok.mp hrun
            rw [tokens_eq] at htokens
            have hsame := eq_of_append_atEnd htokens.symm hphrase.ne_endOfInput
              (fun _ => kind_ne_endOfInput_of_mem_tokensFrom) hrest
            exact hsame ▸ hphrase
  · intro h
    cases htokens : tokensFrom true line.toList with
    | nil =>
        rw [htokens] at h
        cases h
    | cons token front =>
        rw [htokens] at h
        have hrun := Rule.operation_eq_ok.mpr ⟨front, h, rfl, (by simp [Rule.AtEnd, Token.atEnd] :
          Rule.AtEnd [Token.atEnd])⟩
        rw [parse_eq line (by rw [tokens_eq, htokens, List.cons_append]), hrun]

/-- The language of the parser is the language of the manual. -/
theorem parse_eq_ok_iff (line : String) (operation : Operation) :
    parse line = .ok operation ↔
      OperationPhrase (tokens line.toList).dropLast operation := by
  rw [parse_eq_ok_iff_tokensFrom, tokens_eq, List.dropLast_concat]

end DocShell.Query
