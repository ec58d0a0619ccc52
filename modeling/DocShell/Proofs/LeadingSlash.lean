import DocShell.Completion.Cache
import DocShell.Proofs.PathLine
import DocShell.Proofs.Relocation
import DocShell.Proofs.Reuse

namespace DocShell.Query

open DocShell.Text.Bytes

theorem IsField.slash {word : String} (h : IsField word) : IsField ("/" ++ word) := by
  have htext : ("/" ++ word).toList = '/' :: word.toList := by simp
  constructor
  · rw [htext]
    rfl
  · rw [htext]
    exact List.forall_mem_cons.mpr ⟨rfl, h.chars⟩
  · rw [htext]
    exact ofWord?_of_slash_mem (List.mem_cons_self ..)

theorem OpensPath.kind_ne_pager {kind : TokenKind} {front : List Char} (h : OpensPath kind front) :
    kind ≠ .command .pager := by
  cases h with
  | @request request _ => cases request <;> simp [Request.opener]
  | listing => simp

/-- An operation has the path in its normal form only. -/
theorem OperationPhrase.of_normalize_eq {kind : TokenKind} (hkind : kind ≠ .command .pager)
    {opening opening' raw raw' : String} (hsame : Path.normalize raw = Path.normalize raw')
    {back : List Token} {operation : Operation}
    (h : OperationPhrase (⟨kind, opening⟩ :: ⟨.word, raw⟩ :: back) operation) :
    OperationPhrase (⟨kind, opening'⟩ :: ⟨.word, raw'⟩ :: back) operation := by
  cases h with
  | query hpath hselects hfilters horders hlimits =>
      rw [hsame] at hpath ⊢
      exact .query hpath hselects hfilters horders hlimits
  | count hpath hfilters =>
      rw [hsame] at hpath ⊢
      exact .count hpath hfilters
  | get hpath hdocument hcollection hne hodd =>
      exact .get (hsame ▸ hpath) hdocument hcollection hne hodd
  | base hpath =>
      rw [hsame] at hpath ⊢
      exact .base hpath
  | pager => exact absurd rfl hkind

section Line

variable {front path path' rest : String} (hpath : IsField path) (hpath' : IsField path')
  (hsame : Path.normalize path = Path.normalize path')
  (hrest : ∀ c ∈ rest.toList.head?, isSeparator c = true)

include hpath hrest

theorem parse_of_path {request : Request} (hrequest : request ≠ .get)
    (hfront : Opens request front.toList) (hne : Path.normalize path ≠ "") :
    parse (front ++ path ++ rest) =
      Rule.outcome (request.operation (Path.normalize path) <$>
        Rule.clauses request.clauses none request.clauses)
        (tokensFrom false rest.toList ++ [Token.atEnd]) := by
  obtain ⟨opening, htokens⟩ := (OpensPath.request hfront).tokensFrom_append hpath hrest
  have hline : tokens (front ++ path ++ rest).toList = ⟨request.opener, opening⟩ ::
      ⟨.word, path⟩ :: (tokensFrom false rest.toList ++ [Token.atEnd]) := by
    rw [tokens_eq, htokens]
    rfl
  rw [parse_eq_outcome _ hline, Rule.outcome, operation_of_word hrequest rfl hne]
  rfl

include hpath' hsame

theorem parse_of_normalize_eq {request : Request} (hrequest : request ≠ .get)
    (hfront : Opens request front.toList) (hne : Path.normalize path ≠ "") :
    parse (front ++ path ++ rest) = parse (front ++ path' ++ rest) := by
  rw [parse_of_path hpath hrest hrequest hfront hne,
    parse_of_path hpath' hrest hrequest hfront (hsame ▸ hne), hsame]

theorem parse_eq_ok_of_normalize_eq {kind : TokenKind} (hfront : OpensPath kind front.toList)
    {operation : Operation} (h : parse (front ++ path ++ rest) = .ok operation) :
    parse (front ++ path' ++ rest) = .ok operation := by
  obtain ⟨opening, htokens⟩ := hfront.tokensFrom_append hpath hrest
  obtain ⟨opening', htokens'⟩ := hfront.tokensFrom_append hpath' hrest
  rw [parse_eq_ok_iff_tokensFrom, htokens] at h
  rw [parse_eq_ok_iff_tokensFrom, htokens']
  exact h.of_normalize_eq hfront.kind_ne_pager hsame

end Line

end DocShell.Query

namespace DocShell.Completion

open DocShell.Query
open DocShell.Text.Bytes

theorem splitPartial?_of_normalize_eq {typed typed' : String}
    (h : Path.normalize typed = Path.normalize typed') :
    splitPartial? typed = splitPartial? typed' := by
  rw [splitPartial?, splitPartial?, h]

namespace Context

theorem base?_of_normalize_eq {typed typed' : String}
    (h : Path.normalize typed = Path.normalize typed') :
    (collection typed).base? = (collection typed').base? := by
  rw [base?, base?, splitPartial?_of_normalize_eq h]

theorem suggestions_of_normalize_eq {typed typed' : String}
    (h : Path.normalize typed = Path.normalize typed') (names : List String) :
    (collection typed).suggestions names = (collection typed').suggestions names := by
  rw [suggestions, suggestions, splitPartial?_of_normalize_eq h]

end Context

section Line

variable {kind : TokenKind} {front word rest : String} (hfront : OpensPath kind front.toList)
  (hword : IsField word)

include hfront hword

theorem ofText_slash (hrest : ∀ c ∈ rest.toList.head?, isSeparator c = true) :
    Context.ofText (front ++ ("/" ++ word) ++ rest).toList =
        Context.ofText (front ++ word ++ rest).toList ∨
      Context.ofText (front ++ ("/" ++ word) ++ rest).toList = .collection ("/" ++ word) ∧
        Context.ofText (front ++ word ++ rest).toList = .collection word := by
  rw [ofText_of_opensPath hfront hword.slash hrest, ofText_of_opensPath hfront hword hrest]
  cases Request.ofKind? kind with
  | none => exact .inl rfl
  | some request =>
      by_cases hempty : rest = ""
      · exact .inr ⟨if_pos hempty, if_pos hempty⟩
      · -- What stands behind the path stands one byte later, and so does the cursor.
        refine .inl ?_
        have hslash : byteLength "/".toList = 1 := rfl
        have hlonger : byteLength (front ++ ("/" ++ word)).toList =
            byteLength (front ++ word).toList + 1 := by
          simp only [String.toList_append, byteLength_append, hslash]
          omega
        have hcursor : byteLength (front ++ ("/" ++ word) ++ rest).toList =
            byteLength (front ++ word ++ rest).toList + 1 := by
          simp only [String.toList_append, byteLength_append, hslash]
          omega
        simp only [if_neg hempty]
        rw [hlonger, hcursor, lexemesFrom_add, Context.clauses_map_move]

section Slash

variable (hslash : word.toList.head? ≠ some '/')

include hslash

theorem suggestions_slash (hrest : ∀ c ∈ rest.toList.head?, isSeparator c = true) :
    (Context.ofText (front ++ ("/" ++ word) ++ rest).toList).base? =
        (Context.ofText (front ++ word ++ rest).toList).base? ∧
      ∀ names, (Context.ofText (front ++ ("/" ++ word) ++ rest).toList).suggestions names =
        (Context.ofText (front ++ word ++ rest).toList).suggestions names := by
  rcases ofText_slash hfront hword hrest with hsame | ⟨hlonger, hshorter⟩
  · rw [hsame]
    exact ⟨rfl, fun _ => rfl⟩
  · have hnormalize := Path.normalize_slash_eq hslash
    rw [hlonger, hshorter]
    exact ⟨Context.base?_of_normalize_eq hnormalize,
      Context.suggestions_of_normalize_eq hnormalize⟩

theorem suggest_slash (names : String → List String)
    (hrest : ∀ c ∈ rest.toList.head?, isSeparator c = true) :
    suggest names (front ++ ("/" ++ word) ++ rest).toList =
      suggest names (front ++ word ++ rest).toList := by
  obtain ⟨hbase, hsuggestions⟩ := suggestions_slash hfront hword hslash hrest
  rw [suggest, suggest, hbase, hsuggestions]

theorem cache_suggest_slash (cache : Cache)
    (hrest : ∀ c ∈ rest.toList.head?, isSeparator c = true) :
    cache.suggest (front ++ ("/" ++ word) ++ rest).toList =
      cache.suggest (front ++ word ++ rest).toList := by
  obtain ⟨hbase, hsuggestions⟩ := suggestions_slash hfront hword hslash hrest
  simp only [Cache.suggest, Cache.namesFor, hbase, hsuggestions]

/-- The slash that was typed comes back in front of what replaces the path. -/
theorem complete_slash (names : String → List String) :
    complete names (front ++ ("/" ++ word)).toList (byteLength (front ++ ("/" ++ word)).toList) =
      ((complete names (front ++ word).toList (byteLength (front ++ word).toList)).1,
        (complete names (front ++ word).toList (byteLength (front ++ word).toList)).2.map
          fun offer => { offer with text := "/" ++ offer.text }) := by
  have hhead : ("/" ++ word).toList.head? = some '/' := by simp
  have hnormalize := Path.normalize_slash_eq hslash
  simp only [complete, upTo_byteLength]
  rw [replacedFrom_of_path hfront hword.slash, replacedFrom_of_path hfront hword,
    ofText_of_path hfront hword.slash, ofText_of_path hfront hword]
  cases Request.ofKind? kind with
  | none => rfl
  | some request =>
      simp only [Context.replacements, if_pos hhead, if_neg hslash,
        Context.base?_of_normalize_eq hnormalize, Context.suggestions_of_normalize_eq hnormalize]

end Slash

end Line

/-- The slash in front of a path is invisible, whatever comes behind the path: a request with
clauses is parsed alike, be it to an operation or to an error, the other lines have the same
operations, and the same is suggested. Where the path is completed, the same text is replaced, and
each collection has the slash in front. -/
theorem slash_invisible (names : String → List String) {word : String}
    (hword : tokens word.toList = [⟨.word, word⟩, Token.atEnd])
    (hslash : word.toList.head? ≠ some '/') {rest : String}
    (hrest : ∀ c ∈ rest.toList.head?, isSeparator c = true) :
    (∀ request front, request ≠ .get → Opens request front.toList →
      parse (front ++ ("/" ++ word) ++ rest) = parse (front ++ word ++ rest)) ∧
    ∀ kind front, OpensPath kind front.toList →
      (∀ operation, parse (front ++ ("/" ++ word) ++ rest) = .ok operation ↔
        parse (front ++ word ++ rest) = .ok operation) ∧
      suggest names (front ++ ("/" ++ word) ++ rest).toList =
        suggest names (front ++ word ++ rest).toList ∧
      (∀ cache : Cache, cache.suggest (front ++ ("/" ++ word) ++ rest).toList =
        cache.suggest (front ++ word ++ rest).toList) ∧
      ∀ start offers,
        complete names (front ++ word).toList (byteLength (front ++ word).toList) =
          (start, offers) →
        complete names (front ++ ("/" ++ word)).toList
            (byteLength (front ++ ("/" ++ word)).toList) =
          (start, offers.map fun offer => { offer with text := "/" ++ offer.text }) := by
  have hfield := isField_of_tokens_eq hword
  have hnormalize := Path.normalize_slash_eq hslash
  refine ⟨fun request front hrequest hfront => ?_, fun kind front hfront =>
    ⟨fun operation => ⟨?_, ?_⟩, suggest_slash hfront hfield hslash names hrest,
      fun cache => cache_suggest_slash hfront hfield hslash cache hrest, ?_⟩⟩
  · have hne : Path.normalize ("/" ++ word) ≠ "" := by
      rw [Path.normalize_slash]
      rintro rfl
      cases hfield.begins
    exact parse_of_normalize_eq hfield.slash hfield hnormalize hrest hrequest hfront hne
  · exact parse_eq_ok_of_normalize_eq hfield.slash hfield hnormalize hrest hfront
  · exact parse_eq_ok_of_normalize_eq hfield hfield.slash hnormalize.symm hrest hfront
  · intro start offers hcomplete
    rw [complete_slash hfront hfield hslash names, hcomplete]

/-- Behind a second limit the error is the same, and the name of the collection is completed behind
its slash. -/
theorem slash_invisible_repetition :
    tokens "us".toList = [⟨.word, "us"⟩, Token.atEnd] ∧ "us".toList.head? ≠ some '/' ∧
      (∀ c ∈ "\tLIMIT 1 LIMIT 2".toList.head?, isSeparator c = true) ∧
      Opens .query ("QUERY" ++ " ").toList ∧
      parse ("QUERY" ++ " " ++ ("/" ++ "us") ++ "\tLIMIT 1 LIMIT 2") =
        .error (.duplicateClause .limit) ∧
      complete (fun _ => ["users"]) ("QUERY" ++ " " ++ ("/" ++ "us")).toList 9 =
        (6, [⟨"/users", "users"⟩]) := by
  have hword : tokens "us".toList = [⟨.word, "us"⟩, Token.atEnd] := by decide +kernel
  have hslash : "us".toList.head? ≠ some '/' := by decide
  have hrest : ∀ c ∈ "\tLIMIT 1 LIMIT 2".toList.head?, isSeparator c = true := by
    rintro c ⟨⟩
    rfl
  have hopens : Opens .query ("QUERY" ++ " ").toList := opens_offer .query
  obtain ⟨hparse, hothers⟩ := slash_invisible (fun _ => ["users"]) hword hslash hrest
  obtain ⟨-, -, -, hcomplete⟩ := hothers _ _ (.request hopens)
  have hbare : parse ("QUERY" ++ " " ++ "us" ++ "\tLIMIT 1 LIMIT 2") =
      .error (.duplicateClause .limit) := by decide +kernel
  refine ⟨hword, hslash, hrest, hopens, ?_, hcomplete 6 [⟨"users", "users"⟩] (by decide +kernel)⟩
  rw [hparse .query _ (by decide) hopens, hbare]

end DocShell.Completion
