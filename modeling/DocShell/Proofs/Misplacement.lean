import DocShell.Proofs.Reuse
import DocShell.Proofs.Spelling
import DocShell.Proofs.Walk
import Mathlib.Data.List.Nodup

namespace DocShell.Query

namespace Clause

theorem find?_eq_none {kind : TokenKind} {clauses : List Clause}
    (h : ∀ clause ∈ clauses, clause.opener ≠ kind) : find? kind clauses = none := by
  induction clauses with
  | nil => rfl
  | cons c cs ih =>
      obtain ⟨hc, hcs⟩ := List.forall_mem_cons.mp h
      rw [find?, if_neg hc]
      exact ih hcs

theorem find?_drop {table : List Clause} (hnodup : table.Nodup) {place : Nat} {clause : Clause}
    (hplace : table[place]? = some clause) (used : Nat) :
    find? clause.opener (table.drop used) =
      if used ≤ place then some (clause, table.drop (place + 1)) else none := by
  induction table generalizing place used with
  | nil => simp at hplace
  | cons c cs ih =>
      obtain ⟨hc, hcs⟩ := List.nodup_cons.mp hnodup
      -- The first clause of the table is looked for, or one that has a place in the rest.
      cases place with
      | zero =>
          obtain rfl : c = clause := by simpa using hplace
          cases used with
          | zero => exact if_pos rfl
          | succ used =>
              refine find?_eq_none fun d hd hopener => hc ?_
              rw [← opener_injective hopener]
              exact List.mem_of_mem_drop hd
      | succ place =>
          rw [List.getElem?_cons_succ] at hplace
          cases used with
          | zero =>
              have hne : c ≠ clause := by
                rintro rfl
                exact hc (List.mem_of_getElem? hplace)
              rw [List.drop_zero, find?, if_neg fun hopener => hne (opener_injective hopener)]
              simpa using ih hcs hplace 0
          | succ used => simpa using ih hcs hplace used

theorem index?_eq_none_iff {kind : TokenKind} {table : List Clause} :
    index? kind table = none ↔ ∀ clause ∈ table, clause.opener ≠ kind := by
  simp [index?, List.findIdx?_eq_none_iff]

theorem index?_eq_some_iff {kind : TokenKind} {table : List Clause} (hnodup : table.Nodup)
    {place : Nat} : index? kind table = some place ↔
      ∃ clause, table[place]? = some clause ∧ clause.opener = kind := by
  rw [index?, List.findIdx?_eq_some_iff_getElem]
  constructor
  · rintro ⟨hlt, hkind, -⟩
    exact ⟨_, List.getElem?_eq_getElem hlt, by simpa using hkind⟩
  · rintro ⟨clause, hplace, rfl⟩
    obtain ⟨hlt, rfl⟩ := List.getElem?_eq_some_iff.mp hplace
    refine ⟨hlt, by simp, fun other hother => ?_⟩
    simp only [decide_eq_true_eq]
    intro hopener
    have hsame := (hnodup.getElem_inj_iff).mp (opener_injective hopener)
    omega

/-- The clause that was read last, of those in the first `used` places of a table. -/
def lastRead? (table : List Clause) : Nat → Option Clause
  | 0 => none
  | used + 1 => table[used]?

end Clause

namespace Rule

section Table

variable {table : List Clause} {used place : Nat} {clause : Clause} {token : Token}

theorem clauses_of_missing (hend : token.kind ≠ .endOfInput)
    (h : ∀ clause ∈ table, clause.opener ≠ token.kind) (ahead : List Token) :
    clauses table (Clause.lastRead? table used) (table.drop used) (token :: ahead) =
      .error (.unexpectedToken .endOfLine token) (token :: ahead) := by
  have hlater : Clause.find? token.kind (table.drop used) = none :=
    Clause.find?_eq_none fun clause hmem => h clause (List.mem_of_mem_drop hmem)
  rw [clauses_of_not_find hend hlater]
  simp only [misplaced, Clause.find?_eq_none h]

variable (hnodup : table.Nodup) (hplace : table[place]? = some clause)
  (hkind : clause.opener = token.kind)

include hnodup hplace hkind

theorem clauses_of_later (hle : used ≤ place) (ahead : List Token) :
    clauses table (Clause.lastRead? table used) (table.drop used) (token :: ahead) =
      (body clause >>= fun first =>
        clauses table (Clause.lastRead? table (place + 1)) (table.drop (place + 1)) >>=
          fun others => pure (first :: others)) ahead := by
  have hfind : Clause.find? token.kind (table.drop used) =
      some (clause, table.drop (place + 1)) := by
    rw [← hkind, Clause.find?_drop hnodup hplace, if_pos hle]
  rw [clauses_of_find hfind, Clause.lastRead?, hplace]

/-- A clause in front of the reader is refused, and there is one that the reader read last. -/
theorem clauses_of_used (hlt : place < used) (hused : used ≤ table.length) (ahead : List Token) :
    ∃ last, table[used - 1]? = some last ∧
      clauses table (Clause.lastRead? table used) (table.drop used) (token :: ahead) =
        .error (if place + 1 = used then .duplicateClause clause else .clauseOrder clause last)
          (token :: ahead) := by
  obtain ⟨read, rfl⟩ := Nat.exists_eq_add_one_of_ne_zero (Nat.ne_zero_of_lt hlt)
  have hlater : Clause.find? token.kind (table.drop (read + 1)) = none := by
    rw [← hkind, Clause.find?_drop hnodup hplace, if_neg (by omega)]
  have hfound : Clause.find? token.kind table = some (clause, table.drop (place + 1)) := by
    simpa [hkind] using Clause.find?_drop hnodup hplace 0
  have hlast : table[read]? = some table[read] := List.getElem?_eq_getElem hused
  have hend : token.kind ≠ .endOfInput := hkind ▸ clause.opener_ne_endOfInput
  refine ⟨table[read], hlast, ?_⟩
  obtain ⟨hlength, rfl⟩ := List.getElem?_eq_some_iff.mp hplace
  rw [clauses_of_not_find hend hlater]
  simp only [misplaced, hfound, Clause.lastRead?, hlast, hnodup.getElem_inj_iff,
    Nat.add_right_cancel_iff]

end Table

theorem clauses_behind {table : List Clause} (hnodup : table.Nodup) {tokens : List Token}
    {bodies : List ClauseBody} (hphrases : ClausePhrases tokens bodies) {used : Nat}
    (hused : used ≤ table.length)
    (hsub : (bodies.map ClauseBody.clause).Sublist (table.drop used)) :
    ∃ used', used' ≤ table.length ∧ Clause.lastRead? table used' =
        (bodies.getLast?.map ClauseBody.clause).or (Clause.lastRead? table used) ∧
      ∀ ahead, Avoids bodyFurther ahead →
        clauses table (Clause.lastRead? table used) (table.drop used) (tokens ++ ahead) =
          ((bodies ++ ·) <$> clauses table (Clause.lastRead? table used') (table.drop used') :
            Rule (List ClauseBody)) ahead := by
  induction hphrases generalizing used with
  | nil => exact ⟨used, hused, rfl, fun ahead _ => congrFun (id_map _).symm ahead⟩
  | @cons front back found bodies hfront hback ih =>
      obtain ⟨opening, inner, rfl⟩ := hfront.exists_cons
      -- The reader goes on to the place behind the first clause, and the rest is read from there.
      obtain ⟨later, hfind, hsub'⟩ :=
        Clause.find?_of_sublist (hnodup.sublist (List.drop_sublist used table)) hsub
      obtain ⟨offset, hplace⟩ := List.getElem?_of_mem (hsub.subset (List.mem_cons_self ..))
      rw [List.getElem?_drop] at hplace
      obtain rfl : later = table.drop (used + offset + 1) := by
        rw [Clause.find?_drop hnodup hplace, if_pos (by omega)] at hfind
        cases hfind
        rfl
      obtain ⟨hlt, -⟩ := List.getElem?_eq_some_iff.mp hplace
      obtain ⟨used', hused', hlast, hbehind⟩ := ih hlt hsub'
      refine ⟨used', hused', ?_, fun ahead havoids => ?_⟩
      · rw [hlast, Clause.lastRead?, hplace, List.getLast?_cons]
        cases bodies.getLast? <;> rfl
      · have hbody := (reads_body found.clause opening).complete hfront
          (avoids_of_clausePhrases hback havoids)
        have hrest := hbehind ahead havoids
        rw [List.append_assoc, List.cons_append, clauses_of_later hnodup hplace rfl (by omega),
          bind_of_ok hbody]
        cases hrun : clauses table (Clause.lastRead? table used') (table.drop used') ahead with
        | ok others rest =>
            rw [map_of_ok hrun] at hrest ⊢
            exact bind_of_ok hrest
        | error cause rest =>
            rw [map_of_error hrun] at hrest ⊢
            exact bind_of_error hrest

theorem map_congr {α β : Type} {rule rule' : Rule α} {ahead ahead' : List Token} (f : α → β)
    (h : rule ahead = rule' ahead') : (f <$> rule) ahead = (f <$> rule') ahead' := by
  simp only [Functor.map, EStateM.map, h]

end Rule

theorem Clause.avoids_opener (clause : Clause) (literal : String) (ahead : List Token) :
    Rule.Avoids Rule.bodyFurther (⟨clause.opener, literal⟩ :: ahead) :=
  Rule.avoids_cons.mpr (by cases clause <;> simp [Rule.bodyFurther, Clause.opener])

/-- Behind an operation with clauses the reader stands behind the last one that was given. -/
theorem exists_lastRead {line : String} {operation : Operation} {request : Request}
    (hparse : parse line = .ok operation) (hrequest : operation.request? = some request)
    (hget : request ≠ .get) :
    ∃ token front path bodies used, tokensFrom true line.toList = token :: front ∧
      operation = request.operation path bodies ∧ used ≤ request.clauses.length ∧
      Clause.lastRead? request.clauses used = lastClause? (tokensFrom true line.toList) ∧
      ∀ ahead, Rule.Avoids Rule.bodyFurther ahead → Rule.operation token (front ++ ahead) =
        ((fun others => request.operation path (bodies ++ others)) <$>
          Rule.clauses request.clauses (Clause.lastRead? request.clauses used)
            (request.clauses.drop used) : Rule Operation) ahead := by
  have hphrase := parse_eq_ok_iff_tokensFrom.mp hparse
  obtain ⟨opening, raw, back, bodies, htokens, hphrases, hsub⟩ := hphrase.request_cases hrequest
  have hraw : Path.normalize raw ≠ "" := by
    rw [htokens] at hphrase
    exact ((exists_operation_iff hget).mp ⟨operation, hphrase⟩).1
  obtain ⟨used, hused, hlast, hbehind⟩ := Rule.clauses_behind request.nodup_clauses hphrases
    (Nat.zero_le _) hsub
  have hrun : ∀ ahead, Rule.Avoids Rule.bodyFurther ahead →
      Rule.operation ⟨request.opener, opening⟩ (⟨.word, raw⟩ :: back ++ ahead) =
        ((fun others => request.operation (Path.normalize raw) (bodies ++ others)) <$>
          Rule.clauses request.clauses (Clause.lastRead? request.clauses used)
            (request.clauses.drop used) : Rule Operation) ahead := by
    intro ahead havoids
    rw [List.cons_append, operation_of_word hget rfl hraw, ← Functor.map_map (bodies ++ ·)]
    exact Rule.map_congr _ (hbehind ahead havoids)
  have hclause : lastClause? (tokensFrom true line.toList) = lastClause? back := by
    have hopener : Clause.ofOpener? request.opener = none := by cases request <;> rfl
    rw [htokens, lastClause?_cons hopener, lastClause?_cons rfl]
  refine ⟨_, _, Path.normalize raw, bodies, used, htokens, ?_, hused, ?_, hrun⟩
  · have hend : Rule.AtEnd [Token.atEnd] := by simp [Rule.AtEnd, Token.atEnd]
    have hline : tokens line.toList =
        ⟨request.opener, opening⟩ :: (⟨.word, raw⟩ :: back ++ [Token.atEnd]) := by
      rw [tokens_eq, htokens, List.cons_append]
    rw [parse_eq_outcome line hline, Rule.outcome, hrun _ hend.avoids,
      Rule.map_of_ok (Rule.clauses_of_atEnd hend), List.append_nil] at hparse
    exact (Except.ok.inj hparse).symm
  · rw [hclause, hphrases.lastClause?_eq, hlast]
    exact Option.or_none

theorem tokens_append_opener {line word : String} {clause : Clause}
    (hterminated : Terminated line.toList) (hne : tokensFrom true line.toList ≠ [])
    (hword : TokenKind.ofWord word.toList = clause.opener) (rest : String) :
    tokens (line ++ " " ++ word ++ " " ++ rest).toList =
      tokensFrom true line.toList ++
        ⟨clause.opener, word⟩ :: (tokensFrom false rest.toList ++ [Token.atEnd]) := by
  obtain ⟨keyword, hkeyword⟩ : ∃ keyword, clause.opener = .keyword keyword := by
    cases clause <;> exact ⟨_, rfl⟩
  obtain ⟨hbegins, hchars⟩ := isWord_of_ofWord (hword.trans hkeyword)
  have hspells := spells_ofWord word false hbegins hchars
  have hwhole : (line ++ " " ++ word ++ " " ++ rest).toList =
      line.toList ++ ' ' :: (word.toList ++ ' ' :: rest.toList) := by simp
  rw [tokens_eq, hwhole, tokensFrom_append_separator (by decide) hterminated,
    List.isEmpty_eq_false_iff.mpr hne, Bool.and_false,
    tokensFrom_append_separator (by decide) hspells.terminated, hspells.tokens, hword]
  simp

/-- The place in a table of the clause that was opened last, or -1 where none was. -/
def lastPlace (table : List Clause) (tokens : List Token) : Int :=
  match (lastClause? tokens).bind fun clause => Clause.index? clause.opener table with
  | some place => place
  | none => -1

theorem lastPlace_of_lastRead? {table : List Clause} (hnodup : table.Nodup) {tokens : List Token}
    {used : Nat} (hused : used ≤ table.length)
    (h : Clause.lastRead? table used = lastClause? tokens) :
    lastPlace table tokens = (used : Int) - 1 := by
  rw [lastPlace, ← h]
  cases used with
  | zero => rfl
  | succ read =>
      have hread : table[read]? = some table[read] := List.getElem?_eq_getElem hused
      have hindex := (Clause.index?_eq_some_iff hnodup).mpr ⟨_, hread, rfl⟩
      rw [Clause.lastRead?, hread, Option.bind_some, hindex]
      simp

section Misplaced

variable {line word : String} {operation : Operation} {request : Request} {clause : Clause}
  (hterminated : Terminated line.toList) (hparse : parse line = .ok operation)
  (hrequest : operation.request? = some request) (hget : request ≠ .get)
  (hword : TokenKind.ofWord word.toList = clause.opener) (rest : String)

include hterminated hparse hrequest hget hword

/-- The reader comes to the word behind the operation with the place of the last clause. -/
theorem exists_run_opener : ∃ token ahead path bodies used,
    tokens (line ++ " " ++ word ++ " " ++ rest).toList = token :: ahead ∧
    ahead.length = (tokensFrom true line.toList).length +
      (tokensFrom false rest.toList ++ [Token.atEnd]).length ∧
    operation = request.operation path bodies ∧ used ≤ request.clauses.length ∧
    lastPlace request.clauses (tokensFrom true line.toList) = (used : Int) - 1 ∧
    Rule.operation token ahead =
      ((fun others => request.operation path (bodies ++ others)) <$>
        Rule.clauses request.clauses (Clause.lastRead? request.clauses used)
          (request.clauses.drop used) : Rule Operation)
        (⟨clause.opener, word⟩ :: (tokensFrom false rest.toList ++ [Token.atEnd])) := by
  obtain ⟨token, front, path, bodies, used, hline, hoperation, hused, hlast, hrun⟩ :=
    exists_lastRead hparse hrequest hget
  have hwhole := tokens_append_opener hterminated (by simp [hline]) hword rest
  rw [hline, List.cons_append] at hwhole
  refine ⟨token, _, path, bodies, used, hwhole, ?_, hoperation, hused,
    lastPlace_of_lastRead? request.nodup_clauses hused hlast, hrun _ (clause.avoids_opener word _)⟩
  rw [hline]
  simp only [List.length_append, List.length_cons]
  omega

theorem parse_of_missing (hmissing : Clause.index? clause.opener request.clauses = none) :
    parse (line ++ " " ++ word ++ " " ++ rest) =
      .error (.unexpectedToken .endOfLine ⟨clause.opener, word⟩) := by
  obtain ⟨token, ahead, path, bodies, used, hwhole, -, -, -, -, hrun⟩ :=
    exists_run_opener hterminated hparse hrequest hget hword rest
  have hend : (⟨clause.opener, word⟩ : Token).kind ≠ .endOfInput := clause.opener_ne_endOfInput
  rw [parse_eq_outcome _ hwhole, Rule.outcome, hrun, Rule.map_of_error
    (Rule.clauses_of_missing hend (Clause.index?_eq_none_iff.mp hmissing) _)]

variable {place : Nat} (hplace : request.clauses[place]? = some clause)

include hplace

theorem parse_of_earlier
    (hle : (place : Int) ≤ lastPlace request.clauses (tokensFrom true line.toList)) :
    ∃ before, request.clauses[
        (lastPlace request.clauses (tokensFrom true line.toList)).toNat]? = some before ∧
      parse (line ++ " " ++ word ++ " " ++ rest) = .error
        (if (place : Int) = lastPlace request.clauses (tokensFrom true line.toList) then
          .duplicateClause clause else .clauseOrder clause before) := by
  obtain ⟨token, ahead, path, bodies, used, hwhole, -, -, hused, hlast, hrun⟩ :=
    exists_run_opener hterminated hparse hrequest hget hword rest
  rw [hlast] at hle ⊢
  have hopener : clause.opener = (⟨clause.opener, word⟩ : Token).kind := rfl
  obtain ⟨before, hbefore, hrefused⟩ := Rule.clauses_of_used request.nodup_clauses hplace hopener
    (by omega) hused (tokensFrom false rest.toList ++ [Token.atEnd])
  refine ⟨before, ?_, ?_⟩
  · rw [← hbefore]
    congr 1
    omega
  · rw [parse_eq_outcome _ hwhole, Rule.outcome, hrun, Rule.map_of_error hrefused]
    by_cases hsame : place + 1 = used
    · rw [if_pos hsame, if_pos (by omega)]
    · rw [if_neg hsame, if_neg (by omega)]

theorem parse_of_later
    (hlater : lastPlace request.clauses (tokensFrom true line.toList) < place) :
    (tokensFrom true line.toList).length ≤
        (Parser.ofLine (line ++ " " ++ word ++ " " ++ rest)).next.2.cursor ∧
      ∃ path bodies, operation = request.operation path bodies ∧
        parse (line ++ " " ++ word ++ " " ++ rest) = Rule.outcome (do
          let first ← Rule.body clause
          let others ← Rule.clauses request.clauses (some clause) (request.clauses.drop (place + 1))
          return request.operation path (bodies ++ first :: others))
          (tokensFrom false rest.toList ++ [Token.atEnd]) := by
  obtain ⟨token, ahead, path, bodies, used, hwhole, hlength, hoperation, hused, hlast, hrun⟩ :=
    exists_run_opener hterminated hparse hrequest hget hword rest
  rw [hlast] at hlater
  have hopener : clause.opener = (⟨clause.opener, word⟩ : Token).kind := rfl
  have hentered := Rule.clauses_of_later request.nodup_clauses hplace hopener
    (by omega : used ≤ place) (tokensFrom false rest.toList ++ [Token.atEnd])
  rw [Rule.map_congr _ hentered, Clause.lastRead?, hplace] at hrun
  simp only [map_bind, map_pure] at hrun
  refine ⟨?_, path, bodies, hoperation, by rw [parse_eq_outcome _ hwhole, Rule.outcome, hrun]; rfl⟩
  -- What is left is left of the tokens behind the word, so the cursor has come to the word.
  have hlocal := (Rule.local_body clause (tokensFrom false rest.toList ++ [Token.atEnd])).bind
    fun first middle _ => (Rule.local_clauses request.clauses (some clause)
      (request.clauses.drop (place + 1)) middle).bind fun others behind _ =>
        Rule.local_pure (request.operation path (bodies ++ first :: others)) behind
  have hleft := hlocal.left_suffix.length_le
  rw [cursor_eq hwhole, Rule.left, hrun, ← Rule.left, hlength]
  omega

end Misplaced

/-- What the word of a clause does behind a request with clauses, where `lastPlace` is the place
of the last clause of the request: it is refused as a repetition if its clause stands at that
place of the table, as out of order if it stands in front of it and as a word too many if it does
not stand in the table, and is read if it stands behind. Wherever the reader stands in the table,
it has read the clause that it names in the second case. -/
theorem parse_misplaced {line word : String} {operation : Operation} {request : Request}
    {clause : Clause} (hterminated : Terminated line.toList)
    (hparse : parse line = .ok operation) (hrequest : operation.request? = some request)
    (hget : request ≠ .get) (hword : TokenKind.ofWord word.toList = clause.opener)
    (rest : String) :
    (Clause.index? clause.opener request.clauses = none →
      parse (line ++ " " ++ word ++ " " ++ rest) =
        .error (.unexpectedToken .endOfLine ⟨clause.opener, word⟩)) ∧
    (∀ place : Nat, Clause.index? clause.opener request.clauses = some place →
      (place = lastPlace request.clauses (tokensFrom true line.toList) →
        parse (line ++ " " ++ word ++ " " ++ rest) = .error (.duplicateClause clause)) ∧
      (place < lastPlace request.clauses (tokensFrom true line.toList) →
        ∃ before, request.clauses[
            (lastPlace request.clauses (tokensFrom true line.toList)).toNat]? = some before ∧
          parse (line ++ " " ++ word ++ " " ++ rest) = .error (.clauseOrder clause before)) ∧
      (lastPlace request.clauses (tokensFrom true line.toList) < place →
        (tokensFrom true line.toList).length ≤
            (Parser.ofLine (line ++ " " ++ word ++ " " ++ rest)).next.2.cursor ∧
          ∃ path bodies, operation = request.operation path bodies ∧
            parse (line ++ " " ++ word ++ " " ++ rest) = Rule.outcome (do
              let first ← Rule.body clause
              let others ← Rule.clauses request.clauses (some clause)
                (request.clauses.drop (place + 1))
              return request.operation path (bodies ++ first :: others))
              (tokensFrom false rest.toList ++ [Token.atEnd]))) ∧
    (∀ used place token ahead, used ≤ request.clauses.length →
      Clause.index? token.kind request.clauses = some place → place + 1 < used →
      ∃ earlier last, request.clauses[place]? = some earlier ∧ 0 < used ∧
        request.clauses[used - 1]? = some last ∧
        Rule.clauses request.clauses (Clause.lastRead? request.clauses used)
          (request.clauses.drop used) (token :: ahead) =
          .error (.clauseOrder earlier last) (token :: ahead)) := by
  refine ⟨parse_of_missing hterminated hparse hrequest hget hword rest, fun place hindex => ?_,
    fun used place token ahead hused hindex hlt => ?_⟩
  · obtain ⟨found, hplace, hopener⟩ :=
      (Clause.index?_eq_some_iff request.nodup_clauses).mp hindex
    obtain rfl := Clause.opener_injective hopener
    refine ⟨fun hsame => ?_, fun hlt => ?_,
      parse_of_later hterminated hparse hrequest hget hword rest hplace⟩
    · obtain ⟨before, -, hrefused⟩ :=
        parse_of_earlier hterminated hparse hrequest hget hword rest hplace (Int.le_of_eq hsame)
      rwa [if_pos hsame] at hrefused
    · obtain ⟨before, hbefore, hrefused⟩ :=
        parse_of_earlier hterminated hparse hrequest hget hword rest hplace (Int.le_of_lt hlt)
      rw [if_neg (Int.ne_of_lt hlt)] at hrefused
      exact ⟨before, hbefore, hrefused⟩
  · obtain ⟨earlier, hplace, hopener⟩ :=
      (Clause.index?_eq_some_iff request.nodup_clauses).mp hindex
    obtain ⟨last, hlast, hrefused⟩ :=
      Rule.clauses_of_used request.nodup_clauses hplace hopener (by omega) hused ahead
    rw [if_neg (by omega)] at hrefused
    exact ⟨earlier, last, hplace, by omega, hlast, hrefused⟩

/-- A filter comes too late behind an order, which is the third clause of the table. -/
theorem parse_misplaced_filter :
    Terminated "QUERY users ORDER BY age DESC, name".toList ∧
      parse "QUERY users ORDER BY age DESC, name" =
        .ok (.query ⟨"users", [], [], [⟨"age", .descending⟩, ⟨"name", .ascending⟩], 0⟩) ∧
      parse ("QUERY users ORDER BY age DESC, name" ++ " " ++ "where" ++ " " ++ "age > 1") =
        .error (.clauseOrder .filter .order) := by
  have hterminated : Terminated "QUERY users ORDER BY age DESC, name".toList := by
    unfold Terminated
    decide +kernel
  have hparse : parse "QUERY users ORDER BY age DESC, name" =
      .ok (.query ⟨"users", [], [], [⟨"age", .descending⟩, ⟨"name", .ascending⟩], 0⟩) := by
    decide +kernel
  have hlast : lastPlace Request.query.clauses
      (tokensFrom true "QUERY users ORDER BY age DESC, name".toList) = 2 := by decide +kernel
  have hword : TokenKind.ofWord "where".toList = Clause.filter.opener := by decide
  obtain ⟨-, hplaces, -⟩ := parse_misplaced hterminated hparse rfl (by simp) hword "age > 1"
  obtain ⟨before, hbefore, hrefused⟩ := (hplaces 1 rfl).2.1 (by rw [hlast]; decide)
  rw [hlast] at hbefore
  cases hbefore
  exact ⟨hterminated, hparse, hrefused⟩

end DocShell.Query
