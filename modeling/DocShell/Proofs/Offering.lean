import DocShell.Proofs.Continuation

namespace DocShell.Query

theorem Clause.behind_cons_of_ne {first last : Clause} (h : last ≠ first) (table : List Clause) :
    last.behind (first :: table) = last.behind table := by
  have hfirst : last ∉ [first] := by simpa using h
  exact behind_append hfirst table

/-- A clause may come behind others of a table if it is behind the last of them. -/
theorem Clause.sublist_behind_iff {table init : List Clause} {last clause : Clause}
    (hnodup : table.Nodup) (hsub : (init ++ [last]).Sublist table) :
    (init ++ [last] ++ [clause]).Sublist table ↔ clause ∈ last.behind table := by
  induction table generalizing init with
  | nil => simp at hsub
  | cons first table ih =>
      obtain ⟨hfirst, hnodup'⟩ := List.nodup_cons.mp hnodup
      rcases List.sublist_cons_iff.mp hsub with hskip | ⟨rest, hcons, hrest⟩
      · have hne : last ≠ first := ne_of_mem_of_not_mem (hskip.subset (by simp)) hfirst
        have hhead : ∀ back, init ++ [last] ++ [clause] ≠ first :: back := by
          intro back hback
          refine hfirst (hskip.subset ?_)
          cases init with
          | nil => exact absurd (List.cons.inj hback).1 hne
          | cons second init => simp [(List.cons.inj hback).1]
        rw [behind_cons_of_ne hne, ← ih hnodup' hskip, List.sublist_cons_iff]
        exact or_iff_left fun ⟨back, hback, _⟩ => hhead back hback
      · cases init with
        | nil =>
            obtain ⟨rfl, rfl⟩ := List.cons.inj hcons
            simp [behind]
        | cons second init =>
            obtain ⟨rfl, rfl⟩ := List.cons.inj hcons
            have hne : last ≠ second := ne_of_mem_of_not_mem (hrest.subset (by simp)) hfirst
            rw [behind_cons_of_ne hne, ← ih hnodup' hrest]
            exact List.cons_sublist_cons

theorem sublist_getLast?_iff {table : List Clause} {bodies : List ClauseBody} {last : ClauseBody}
    {clause : Clause} (hnodup : table.Nodup) (hsub : (bodies.map ClauseBody.clause).Sublist table)
    (hlast : bodies.getLast? = some last) :
    (bodies.map ClauseBody.clause ++ [clause]).Sublist table ↔
      clause ∈ last.clause.behind table := by
  obtain ⟨init, rfl⟩ := List.getLast?_eq_some_iff.mp hlast
  rw [List.map_append] at hsub ⊢
  exact Clause.sublist_behind_iff hnodup hsub

/-- What may come behind some clauses is offered there, but for the second word of `ORDER BY`. -/
theorem Continues.offer_mem {table : List Clause} {tokens : List Token} {connective : Connective}
    (h : Continues table tokens connective) (hnodup : table.Nodup) (hby : connective ≠ .byWord) :
    connective.offer ∈ offersAfter table tokens := by
  cases h with
  | @clause bodies clause hphrases hsub =>
      rw [offersAfter, hphrases.lastClause?_eq]
      cases hlast : bodies.getLast? with
      | none => exact List.mem_map_of_mem (hsub.subset (by simp))
      | some last =>
          have hsub' := (List.sublist_append_left ..).trans hsub
          have hmem := (sublist_getLast?_iff hnodup hsub' hlast).mp hsub
          exact List.mem_append_right _ (List.mem_map_of_mem hmem)
  | andWord hphrases hsub hlast =>
      rw [offersAfter, hphrases.lastClause?_eq, hlast]
      exact List.mem_append_left _ (List.mem_singleton_self _)
  | @direction bodies direction hphrases hsub hlast hdirected =>
      rw [offersAfter, hphrases.lastClause?_eq, hlast]
      refine List.mem_append_left _ ?_
      rw [hdirected]
      cases direction <;> simp [Connective.offer, Clause.further]
  | byWord => exact absurd rfl hby

theorem continues_of_mem {table : List Clause} {tokens : List Token} {bodies : List ClauseBody}
    {connective : Connective} {found : Offer} (hphrases : ClausePhrases tokens bodies)
    (hnodup : table.Nodup) (hsub : (bodies.map ClauseBody.clause).Sublist table)
    (hmem : found ∈ offersAfter table tokens) (htext : found.text = connective.text) :
    Continues table tokens connective := by
  have hsame : ∀ other : Connective, found = other.offer → other = connective := by
    rintro other rfl
    exact Connective.text_injective (other.offer_text.symm.trans htext)
  rw [offersAfter, hphrases.lastClause?_eq] at hmem
  cases hlast : bodies.getLast? with
  | none =>
      obtain rfl := List.getLast?_eq_none_iff.mp hlast
      obtain ⟨clause, hclause, rfl⟩ := List.mem_map.mp hmem
      obtain rfl := hsame (.clause clause) rfl
      exact .clause hphrases (List.singleton_sublist.mpr hclause)
  | some last =>
      rw [hlast] at hmem
      have hsort : bodies.getLast?.map ClauseBody.clause = some last.clause := by rw [hlast]; rfl
      rcases List.mem_append.mp hmem with hfurther | hbehind
      · generalize last.clause = sort at hsort hfurther
        cases sort with
        | select => cases hfurther
        | filter =>
            obtain rfl := hsame .andWord (List.mem_singleton.mp hfurther)
            exact .andWord hphrases hsub hsort
        | order =>
            cases hdirected : endsDirected tokens with
            | true =>
                rw [hdirected] at hfurther
                cases hfurther
            | false =>
                rw [hdirected] at hfurther
                rcases List.mem_pair.mp hfurther with hasc | hdesc
                · obtain rfl := hsame (.direction .ascending) hasc
                  exact .direction hphrases hsub hsort hdirected
                · obtain rfl := hsame (.direction .descending) hdesc
                  exact .direction hphrases hsub hsort hdirected
        | limit => cases hfurther
      · obtain ⟨clause, hclause, rfl⟩ := List.mem_map.mp hbehind
        obtain rfl := hsame (.clause clause) rfl
        exact .clause hphrases ((sublist_getLast?_iff hnodup hsub hlast).mpr hclause)

theorem Continues.exists_phrases {table : List Clause} {tokens : List Token}
    {connective : Connective} (h : Continues table tokens connective)
    (hby : connective ≠ .byWord) :
    ∃ bodies, ClausePhrases tokens bodies ∧ (bodies.map ClauseBody.clause).Sublist table := by
  cases h with
  | clause hphrases hsub => exact ⟨_, hphrases, (List.sublist_append_left ..).trans hsub⟩
  | andWord hphrases hsub => exact ⟨_, hphrases, hsub⟩
  | direction hphrases hsub => exact ⟨_, hphrases, hsub⟩
  | byWord => exact absurd rfl hby

end DocShell.Query

namespace DocShell.Completion

open DocShell.Query
open DocShell.Query.Rule
open DocShell.Text.Bytes

variable {cursor : Nat}

namespace Context

/-- The word that opens an order is followed by the second one. -/
theorem clauses_orderWord {offers : List Offer} {later : List Clause} {opener : Lexeme}
    (hkind : opener.kind = Clause.order.opener) (hsettled : Settled cursor [opener])
    (hnodup : later.Nodup) (hmem : Clause.order ∈ later) :
    clauses cursor offers later [opener] = words [byOffer] "" := by
  obtain ⟨behind, hfind, -⟩ :=
    Clause.find?_of_sublist hnodup (List.singleton_sublist.mpr hmem)
  rw [clauses_cons hsettled, hkind, hfind]
  rfl

theorem clauses_of_continues {table : List Clause} {ahead : List Lexeme}
    {connective : Connective} (h : Continues table (ahead.map Lexeme.token) connective)
    (hsettled : Settled cursor ahead) (hnodup : table.Nodup) :
    ∃ offers, clauses cursor [] table ahead = words offers "" ∧ connective.offer ∈ offers := by
  by_cases hby : connective = .byWord
  · subst hby
    generalize htokens : ahead.map Lexeme.token = tokens at h
    cases h with
    | @byWord front literal bodies hfront hphrases hsub =>
        rw [hfront] at htokens
        obtain ⟨front, last, rfl, rfl, hlast⟩ := List.map_eq_append_iff.mp htokens
        obtain ⟨opener, rest, rfl, hopener, hrest⟩ := List.map_eq_cons_iff.mp hlast
        obtain rfl := List.map_eq_nil_iff.mp hrest
        have hkind : opener.kind = Clause.order.opener := congrArg Token.kind hopener
        have hextra : Avoids bodyFurther (lineOf [opener]) :=
          avoids_cons.mpr (by simp [Lexeme.token, hkind, bodyFurther, Clause.opener])
        have hsub' := (List.sublist_append_left ..).trans hsub
        have hopener' : Settled cursor [opener] := hsettled.suffix ⟨front, rfl⟩
        refine ⟨[byOffer], ?_, List.mem_singleton_self _⟩
        rw [clauses_of_phrases [] hphrases hsettled hextra hnodup hsub']
        cases hbody : bodies.getLast? with
        | none => exact clauses_orderWord hkind hopener' hnodup (hsub.subset (by simp))
        | some last =>
            have hmem := (sublist_getLast?_iff hnodup hsub' hbody).mp hsub
            have hnodup' : (last.clause.behind table).Nodup :=
              hnodup.sublist ((List.drop_sublist ..).trans (List.dropWhile_sublist _))
            exact clauses_orderWord hkind hopener' hnodup' hmem
  · obtain ⟨bodies, hphrases, hsub⟩ := h.exists_phrases hby
    exact ⟨_, clauses_eq_offersAfter hphrases hsettled hnodup hsub, h.offer_mem hnodup hby⟩

end Context

section Text

variable {text : String}

theorem toList_append_text (connective : Connective) (rest : String) :
    (text ++ connective.text ++ " " ++ rest).toList =
      text.toList ++ (connective.text.toList ++ ' ' :: rest.toList) := by
  simp

theorem tokensFrom_text (first : Bool) (connective : Connective) :
    tokensFrom first connective.text.toList = connective.tokens ∧
      ∀ lexeme ∈ lexemesFrom first 0 connective.text.toList,
        lexeme.isUnterminated = false := by
  cases first <;> rcases connective with ⟨⟨⟩⟩ | _ | ⟨⟨⟩⟩ | _ <;> decide +kernel

/-- A connective is read as its tokens, whatever stands behind it. -/
theorem tokensFrom_append_text (hend : EndsSeparated text.toList)
    (hterminated : Terminated text.toList) (connective : Connective) (rest : String) :
    tokensFrom true (text ++ connective.text ++ " " ++ rest).toList =
      tokensFrom true text.toList ++ (connective.tokens ++ tokensFrom false rest.toList) := by
  have hne : connective.tokens.isEmpty = false := by
    rcases connective with ⟨⟨⟩⟩ | _ | ⟨⟨⟩⟩ | _ <;> rfl
  obtain ⟨htokens, hwhole⟩ := tokensFrom_text (tokensFrom true text.toList).isEmpty connective
  rw [toList_append_text, tokensFrom_append hend hterminated,
    tokensFrom_append_separator rfl hwhole, htokens, hne, Bool.and_false]

/-- A connective is offered where it leads to a line that the parser accepts. -/
theorem offered_of_parse (names : String → List String) (hend : EndsSeparated text.toList)
    (hterminated : Terminated text.toList) {connective : Connective} {rest : String}
    {operation : Operation}
    (hparse : parse (text ++ connective.text ++ " " ++ rest) = .ok operation) :
    connective.offer ∈ suggest names text.toList := by
  have hphrase := parse_eq_ok_iff_tokensFrom.mp hparse
  obtain ⟨literal, back, hkind⟩ := connective.exists_tokens_eq
  rw [tokensFrom_append_text hend hterminated, hkind, List.cons_append] at hphrase
  obtain ⟨request, opening, raw, middle, -, htokens, -, hcontinues⟩ := hphrase.split
  obtain ⟨opener, tail, hlexemes, hopener, htail⟩ := List.map_eq_cons_iff.mp htokens
  obtain ⟨name, ahead, rfl, hname, rfl⟩ := List.map_eq_cons_iff.mp htail
  have hsettled := settled_lexemes hend hterminated
  have hlexemes' : lexemes text.toList = opener :: name :: ahead := hlexemes
  rw [hlexemes'] at hsettled
  obtain ⟨offers, hclauses, hmem⟩ := Context.clauses_of_continues hcontinues hsettled.tail.tail
    request.nodup_clauses
  rw [suggest_of_request names hend hterminated hlexemes (congrArg Token.kind hopener)
    (congrArg Token.kind hname) fun _ => hclauses]
  exact hmem

/-- An offered connective leads to a line that the parser accepts, unless a value before it is
refused. -/
theorem parse_of_offered (names : String → List String) (hend : EndsSeparated text.toList)
    (hterminated : Terminated text.toList) {connective : Connective} {found : Offer}
    (hfound : found ∈ suggest names text.toList) (htext : found.text = connective.text)
    (hcause : ∀ cause, parse text = .error cause → ¬cause.IsValueError) :
    ∃ rest operation, parse (text ++ connective.text ++ " " ++ rest) = .ok operation := by
  obtain ⟨request, opener, name, ahead, hget, hlexemes, hopener, hname, hahead⟩ :=
    suggest_cases names hend hterminated (List.ne_nil_of_mem hfound)
  have haccepts : ¬(Path.normalize name.literal = "" ∨
      FailsByValue (Rule.clauses request.clauses none request.clauses) (lineOf ahead)) := by
    intro hfails
    obtain ⟨cause, hparse, hvalue⟩ := parse_refuses hget hlexemes hopener hname hfails
    exact hcause cause hparse hvalue
  obtain ⟨hpath, hreads⟩ := not_or.mp haccepts
  have hnodup := request.nodup_clauses
  have hcontinues : Continues request.clauses (ahead.map Lexeme.token) connective := by
    rcases hahead with hfails | ⟨bodies, hphrases, hsub⟩ | ⟨hby, hends⟩
    · exact absurd hfails hreads
    · rw [suggest_of_request names hend hterminated hlexemes hopener hname fun hsettled =>
        Context.clauses_eq_offersAfter hphrases hsettled hnodup hsub] at hfound
      exact continues_of_mem hphrases hnodup hsub hfound htext
    · obtain ⟨front, last, bodies, rfl, hlast, hphrases, hsub⟩ := hends
      rw [hby, List.mem_singleton] at hfound
      subst hfound
      obtain rfl : .byWord = connective := Connective.text_injective htext
      have htokens : (front ++ [last]).map Lexeme.token =
          front.map Lexeme.token ++ [⟨Clause.order.opener, last.literal⟩] := by
        rw [List.map_append, ← hlast]
        rfl
      exact .byWord htokens hphrases hsub
  obtain ⟨bodies, hphrases, hsub⟩ := hcontinues.completes
  obtain ⟨operation, hphrase⟩ := (exists_operation_iff hget).mpr ⟨hpath, bodies, hphrases, hsub⟩
  refine ⟨connective.completion, operation, parse_eq_ok_iff_tokensFrom.mpr ?_⟩
  rw [tokensFrom_append_text hend hterminated, tokensFrom_of_request hlexemes hopener hname]
  exact hphrase

/-- The connectives offered behind a text are those that can lead to an accepted line. -/
theorem offered_iff_accepted (names : String → List String) (text : String)
    (connective : Connective) (hend : EndsSeparated text.toList)
    (hterminated : Terminated text.toList) :
    ((∃ rest operation, parse (text ++ connective.text ++ " " ++ rest) = .ok operation) →
      ∃ found ∈ suggest names text.toList, found.text = connective.text) ∧
    ((∃ found ∈ suggest names text.toList, found.text = connective.text) →
      (∀ cause, parse text = .error cause → ¬cause.IsValueError) →
      ∃ rest operation, parse (text ++ connective.text ++ " " ++ rest) = .ok operation) := by
  constructor
  · rintro ⟨rest, operation, hparse⟩
    exact ⟨connective.offer, offered_of_parse names hend hterminated hparse, connective.offer_text⟩
  · rintro ⟨found, hfound, htext⟩ hcause
    exact parse_of_offered names hend hterminated hfound htext hcause

/-- An order that is only begun is refused, but `BY` leads on from it. -/
theorem by_offered_behind_order :
    (∃ found ∈ suggest (fun _ => []) "QUERY /users ORDER ".toList, found.text = "BY") ∧
      ∃ rest operation, parse ("QUERY /users ORDER " ++ "BY" ++ " " ++ rest) = .ok operation := by
  have hboth := offered_iff_accepted (fun _ => []) "QUERY /users ORDER " .byWord
    (by unfold EndsSeparated; decide) (by unfold Terminated; decide +kernel)
  have hparse : parse ("QUERY /users ORDER " ++ "BY" ++ " " ++ "age") =
      .ok (.query ⟨"users", [], [], [⟨"age", .ascending⟩], 0⟩) := by decide +kernel
  have hmissing : parse "QUERY /users ORDER " =
      .error (.unexpectedToken (.kind (.keyword .byWord)) .atEnd) := by decide +kernel
  have hoffered := hboth.1 ⟨_, _, hparse⟩
  refine ⟨hoffered, hboth.2 hoffered fun cause hcause => ?_⟩
  rw [hmissing] at hcause
  cases hcause
  exact id

end Text

end DocShell.Completion
