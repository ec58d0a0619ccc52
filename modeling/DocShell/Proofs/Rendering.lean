import DocShell.Proofs.WellFormed

namespace DocShell.Query

open DocShell.Number
open DocShell.Text.Ascii

variable {α : Type}

namespace Token

def ofKeyword (keyword : Keyword) : Token := ⟨.keyword keyword, keyword.name⟩

def ofMark (mark : Punctuation) : Token := ⟨.punctuation mark, String.singleton mark.char⟩

def ofWord (word : String) : Token := ⟨.word, word⟩

/-- The items with a separator between each two. -/
def joined (separator : Token) : List (List Token) → List Token
  | [] => []
  | [item] => item
  | item :: items => item ++ separator :: joined separator items

end Token

def Scalar.token : Scalar → Token
  | int value => ⟨.int, String.ofList (Decimal.ofInt value)⟩
  | float value => ⟨.float, String.ofList value.literal⟩
  | string value => ⟨.string, value⟩

def FilterValue.tokens : FilterValue → List Token
  | scalar value => [value.token]
  | array items =>
      .ofMark .openBracket ::
        (Token.joined (.ofMark .comma) (items.map fun item => [item.token]) ++
          [.ofMark .closeBracket])
  | timestamp value =>
      [.ofWord "TIMESTAMP", .ofMark .openParen, ⟨.string, String.ofList value.literal⟩,
        .ofMark .closeParen]

def Operator.token : Operator → Token
  | compare comparison => ⟨.comparison comparison, comparison.name⟩
  | memberOf => .ofKeyword .inWord
  | arrayContains => .ofKeyword .arrayContains
  | arrayContainsAny => .ofKeyword .arrayContainsAny

def Filter.tokens (filter : Filter) : List Token :=
  .ofWord filter.field :: filter.operator.token :: filter.value.tokens

def Ordering.tokens (ordering : Ordering) : List Token :=
  match ordering.direction with
  | .ascending => [.ofWord ordering.field]
  | .descending => [.ofWord ordering.field, .ofKeyword .desc]

/-- A clause with its items. Without items it is left out. -/
def clauseTokens (opening : List Token) (separator : Token) (items : List (List Token)) :
    List Token :=
  if items.isEmpty then [] else opening ++ Token.joined separator items

def ClauseBody.tokens : ClauseBody → List Token
  | select fields =>
      clauseTokens [.ofKeyword .select] (.ofMark .comma) (fields.map fun field => [.ofWord field])
  | filter filters =>
      clauseTokens [.ofKeyword .whereWord] (.ofKeyword .andWord) (filters.map Filter.tokens)
  | order orderings =>
      clauseTokens [.ofKeyword .orderWord, .ofKeyword .byWord] (.ofMark .comma)
        (orderings.map Ordering.tokens)
  | limit number =>
      if number = 0 then []
      else [.ofKeyword .limit, ⟨.int, String.ofList (Decimal.ofInt number)⟩]

/-- A path as a word that is no keyword and no number. -/
def pathToken (path : String) : Token := .ofWord ("/" ++ path)

def Operation.tokens : Operation → List Token
  | query selection =>
      .ofKeyword .query :: pathToken selection.collection ::
        ((ClauseBody.select selection.fields).tokens ++
          ((ClauseBody.filter selection.filters).tokens ++
            ((ClauseBody.order selection.orderings).tokens ++
              (ClauseBody.limit selection.limit).tokens)))
  | get collection document => [.ofKeyword .get, pathToken (collection ++ "/" ++ document)]
  | count collection filters =>
      .ofKeyword .count :: pathToken collection :: (ClauseBody.filter filters).tokens
  | listCollections document =>
      ⟨.command .listCollections, Command.listCollections.name⟩ ::
        if document = "" then [] else [pathToken document]
  | pager enabled =>
      [⟨.command .pager, Command.pager.name⟩, .ofWord (if enabled then "on" else "off")]

/-- The line that denotes the operation. -/
def Operation.text (operation : Operation) : String := String.ofList (line operation.tokens)

/-- A token that is read again from what is written for it, at any place of a line. -/
def Token.IsSpelled (token : Token) : Prop := ∀ first, Spells first token.source token

namespace Token

theorem isSpelled_ofKeyword (keyword : Keyword) : (ofKeyword keyword).IsSpelled :=
  fun first => spells_keyword first keyword

theorem isSpelled_ofMark (mark : Punctuation) : (ofMark mark).IsSpelled := by
  intro first
  have hspells := spells_punctuation first mark
  rwa [← String.toList_singleton] at hspells

theorem isSpelled_ofWord {word : String} (h : IsField word) : (ofWord word).IsSpelled :=
  h.spells

theorem isSpelled_joined {separator : Token} {items : List (List Token)}
    (hseparator : separator.IsSpelled) (h : ∀ item ∈ items, ∀ token ∈ item, token.IsSpelled) :
    ∀ token ∈ joined separator items, token.IsSpelled := by
  fun_induction joined separator items with
  | case1 => simp
  | case2 item => exact h item (List.mem_singleton_self item)
  | case3 item items hne ih =>
      rw [List.forall_mem_cons] at h
      rw [List.forall_mem_append, List.forall_mem_cons]
      exact ⟨h.1, hseparator, ih h.2⟩

end Token

theorem Scalar.isSpelled {value : Scalar} (h : value.WellFormed) : value.token.IsSpelled := by
  intro first
  cases value with
  | int value => simpa [Token.source, token] using spells_int first value
  | float value => simpa [Token.source, token] using spells_float first value
  | string value => exact IsQuotable.spells h first

theorem isField_timestamp : IsField "TIMESTAMP" := ⟨by decide, List.all_eq_true.mp (by decide), by decide⟩

theorem FilterValue.isSpelled {value : FilterValue} (h : value.WellFormed) :
    ∀ token ∈ value.tokens, token.IsSpelled := by
  cases value with
  | scalar value =>
      rw [FilterValue.tokens, List.forall_mem_singleton]
      exact Scalar.isSpelled h
  | array items =>
      have hitems : ∀ item ∈ items.map (fun item => [item.token]), ∀ token ∈ item,
          token.IsSpelled := by
        rw [List.forall_mem_map]
        intro item hmem
        rw [List.forall_mem_singleton]
        exact Scalar.isSpelled (h item hmem)
      rw [FilterValue.tokens, List.forall_mem_cons, List.forall_mem_append,
        List.forall_mem_singleton]
      exact ⟨Token.isSpelled_ofMark _, Token.isSpelled_joined (Token.isSpelled_ofMark _) hitems,
        Token.isSpelled_ofMark _⟩
  | timestamp value =>
      have hraw : IsQuotable (String.ofList value.literal) := by
        refine .inl ?_
        rw [String.toList_ofList]
        exact value.quote_not_mem_literal
      rw [FilterValue.tokens, List.forall_mem_cons, List.forall_mem_cons, List.forall_mem_cons,
        List.forall_mem_singleton]
      exact ⟨Token.isSpelled_ofWord isField_timestamp, Token.isSpelled_ofMark _, hraw.spells,
        Token.isSpelled_ofMark _⟩

theorem Operator.isSpelled (operator : Operator) : operator.token.IsSpelled := by
  cases operator with
  | compare comparison =>
      intro first
      exact spells_comparison first comparison
  | memberOf => exact Token.isSpelled_ofKeyword _
  | arrayContains => exact Token.isSpelled_ofKeyword _
  | arrayContainsAny => exact Token.isSpelled_ofKeyword _

theorem Filter.isSpelled {filter : Filter} (h : filter.WellFormed) :
    ∀ token ∈ filter.tokens, token.IsSpelled := by
  rw [Filter.tokens, List.forall_mem_cons, List.forall_mem_cons]
  exact ⟨Token.isSpelled_ofWord h.field, filter.operator.isSpelled, FilterValue.isSpelled h.value⟩

theorem Ordering.isSpelled {ordering : Ordering} (h : IsField ordering.field) :
    ∀ token ∈ ordering.tokens, token.IsSpelled := by
  unfold Ordering.tokens
  split
  · rw [List.forall_mem_singleton]
    exact Token.isSpelled_ofWord h
  · rw [List.forall_mem_cons, List.forall_mem_singleton]
    exact ⟨Token.isSpelled_ofWord h, Token.isSpelled_ofKeyword _⟩

theorem isSpelled_clauseTokens {opening : List Token} {separator : Token}
    {items : List (List Token)} (hopening : ∀ token ∈ opening, token.IsSpelled)
    (hseparator : separator.IsSpelled) (h : ∀ item ∈ items, ∀ token ∈ item, token.IsSpelled) :
    ∀ token ∈ clauseTokens opening separator items, token.IsSpelled := by
  unfold clauseTokens
  split
  · simp
  · rw [List.forall_mem_append]
    exact ⟨hopening, Token.isSpelled_joined hseparator h⟩

theorem ClauseBody.isSpelled {body : ClauseBody} (h : body.WellFormed) :
    ∀ token ∈ body.tokens, token.IsSpelled := by
  cases body with
  | select fields =>
      refine isSpelled_clauseTokens ?_ (Token.isSpelled_ofMark _) ?_
      · rw [List.forall_mem_singleton]
        exact Token.isSpelled_ofKeyword _
      · rw [List.forall_mem_map]
        intro field hmem
        rw [List.forall_mem_singleton]
        exact Token.isSpelled_ofWord (h field hmem)
  | filter filters =>
      refine isSpelled_clauseTokens ?_ (Token.isSpelled_ofKeyword _) ?_
      · rw [List.forall_mem_singleton]
        exact Token.isSpelled_ofKeyword _
      · rw [List.forall_mem_map]
        exact fun filter hmem => Filter.isSpelled (h filter hmem)
  | order orderings =>
      refine isSpelled_clauseTokens ?_ (Token.isSpelled_ofMark _) ?_
      · rw [List.forall_mem_cons, List.forall_mem_singleton]
        exact ⟨Token.isSpelled_ofKeyword _, Token.isSpelled_ofKeyword _⟩
      · rw [List.forall_mem_map]
        exact fun ordering hmem => Ordering.isSpelled (h ordering hmem)
  | limit number =>
      rw [ClauseBody.tokens]
      split
      · simp
      · rw [List.forall_mem_cons, List.forall_mem_singleton]
        refine ⟨Token.isSpelled_ofKeyword _, fun first => ?_⟩
        simpa [Token.source] using spells_int first number

theorem isSpelled_pathToken {path : String} (h : HasWordChars path) :
    (pathToken path).IsSpelled := by
  have hchars : ("/" ++ path).toList = '/' :: path.toList := by simp
  refine Token.isSpelled_ofWord ⟨?_, ?_, ?_⟩
  · rw [hchars]
    rfl
  · rw [hchars, List.forall_mem_cons]
    exact ⟨rfl, h⟩
  · rw [hchars]
    exact ofWord?_of_slash_mem (List.mem_cons_self ..)

theorem Operation.tokensFrom_text {operation : Operation} (h : operation.WellFormed) :
    tokensFrom true operation.text.toList = operation.tokens := by
  rw [Operation.text, String.toList_ofList]
  cases operation with
  | query selection =>
      obtain ⟨hcollection, hfields, hfilters, horderings, hlimit⟩ := h
      refine tokensFrom_line (Token.isSpelled_ofKeyword _ true) fun token hmem => ?_
      have hall : ∀ token ∈ (Operation.query selection).tokens.tail, token.IsSpelled := by
        simp only [Operation.tokens, List.tail_cons, List.forall_mem_cons, List.forall_mem_append]
        exact ⟨isSpelled_pathToken hcollection.chars, ClauseBody.isSpelled hfields,
          ClauseBody.isSpelled hfilters, ClauseBody.isSpelled horderings,
          ClauseBody.isSpelled hlimit⟩
      exact hall token hmem false
  | get collection document =>
      obtain ⟨hcollection, -, -, hdocument, -⟩ := h
      refine tokensFrom_line (Token.isSpelled_ofKeyword _ true) fun token hmem => ?_
      have hpath : HasWordChars (collection ++ "/" ++ document) := by
        simp only [HasWordChars, String.toList_append, List.forall_mem_append]
        exact ⟨⟨hcollection.chars, List.all_eq_true.mp (by decide)⟩, hdocument⟩
      rw [List.mem_singleton.mp hmem]
      exact isSpelled_pathToken hpath false
  | count collection filters =>
      obtain ⟨hcollection, hfilters⟩ := h
      refine tokensFrom_line (Token.isSpelled_ofKeyword _ true) fun token hmem => ?_
      rcases List.mem_cons.mp hmem with rfl | hmem
      · exact isSpelled_pathToken hcollection.chars false
      · exact ClauseBody.isSpelled hfilters token hmem false
  | listCollections document =>
      refine tokensFrom_line (spells_command _) fun token hmem => ?_
      split at hmem
      · cases hmem
      · rename_i hdocument
        rw [List.mem_singleton.mp hmem]
        exact isSpelled_pathToken (h.resolve_left hdocument).1 false
  | pager enabled =>
      refine tokensFrom_line (spells_command _) fun token hmem => ?_
      rw [List.mem_singleton.mp hmem]
      refine Token.isSpelled_ofWord ?_ false
      cases enabled <;> exact ⟨by decide, List.all_eq_true.mp (by decide), by decide⟩

theorem separated_joined {phrase : List Token → α → Prop} (separator : Token)
    {render : α → List Token} {values : List α} (hne : values ≠ [])
    (h : ∀ value ∈ values, phrase (render value) value) :
    Separated phrase separator.kind (Token.joined separator (values.map render)) values := by
  induction values with
  | nil => exact absurd rfl hne
  | cons value values ih =>
      rw [List.forall_mem_cons] at h
      cases values with
      | nil => exact .one h.1
      | cons second values => exact .more h.1 (ih (by simp) h.2)

theorem Scalar.phrase {value : Scalar} (h : value.WellFormed) :
    ScalarPhrase [value.token] value := by
  cases value with
  | int value =>
      refine .int ?_ h.1 h.2
      rw [String.toList_ofList, Decimal.toInt_ofInt]
  | float value =>
      have hfloat : ScalarPhrase [⟨.float, String.ofList value.literal⟩] _ := .float
      rwa [String.toList_ofList, Binary64.ofLiteral_literal] at hfloat
  | string value => exact .string

theorem FilterValue.phrase {value : FilterValue} (h : value.WellFormed) :
    ValuePhrase value.tokens value := by
  cases value with
  | scalar value => exact .scalar (Scalar.phrase h)
  | array items =>
      cases items with
      | nil => exact .empty
      | cons item items =>
          exact .array (separated_joined (.ofMark .comma) (by simp)
            fun item hmem => Scalar.phrase (h item hmem))
  | timestamp value => exact .timestamp (by decide) (Time.Timestamp.WellFormed.ofText?_literal h)

theorem Operator.phrase (operator : Operator) :
    OperatorPhrase operator.token.kind operator := by
  cases operator <;> constructor

theorem Filter.phrase {filter : Filter} (h : filter.WellFormed) :
    FilterPhrase filter.tokens filter :=
  .compare filter.operator.phrase (FilterValue.phrase h.value) h.takesArray

theorem Ordering.phrase (ordering : Ordering) : OrderingPhrase ordering.tokens ordering := by
  obtain ⟨field, direction⟩ := ordering
  cases direction
  · exact .plain
  · exact .descending

/-- A clause is written if and only if it says something. -/
theorem optionalClause_clauseTokens {phrase : List Token → α → Prop} {body : List α → ClauseBody}
    {opening : List Token} {separator : Token} {render : α → List Token} {values : List α}
    (hclause : ∀ tokens, Separated phrase separator.kind tokens values →
      ClausePhrase (opening ++ tokens) (body values))
    (h : ∀ value ∈ values, phrase (render value) value) :
    OptionalClause body [] (clauseTokens opening separator (values.map render)) values := by
  cases values with
  | nil => exact .absent
  | cons value values => exact .present (hclause _ (separated_joined separator (by simp) h))

theorem optionalClause_select (fields : List String) :
    OptionalClause .select [] (ClauseBody.select fields).tokens fields :=
  optionalClause_clauseTokens (fun _ hfields => .select hfields) fun _ _ => .word

theorem optionalClause_filter {filters : List Filter} (h : ∀ filter ∈ filters, filter.WellFormed) :
    OptionalClause .filter [] (ClauseBody.filter filters).tokens filters :=
  optionalClause_clauseTokens (fun _ hfilters => .filter hfilters)
    fun filter hmem => Filter.phrase (h filter hmem)

theorem optionalClause_order (orderings : List Ordering) :
    OptionalClause .order [] (ClauseBody.order orderings).tokens orderings :=
  optionalClause_clauseTokens (fun _ horderings => .order horderings)
    fun ordering _ => ordering.phrase

theorem optionalClause_limit {limit : Nat} (h : limit < 0x10000000000000000) :
    OptionalClause .limit 0 (ClauseBody.limit limit).tokens limit := by
  have hdigits : Decimal.ofInt limit = Decimal.digits limit := by simp [Decimal.ofInt]
  rw [ClauseBody.tokens]
  split
  · rename_i hzero
    rw [hzero]
    exact .absent
  · have hclause := @ClausePhrase.limit Keyword.limit.name (String.ofList (Decimal.ofInt limit))
    rw [String.toList_ofList, hdigits, Decimal.ofDigits_digits] at hclause
    rw [hdigits]
    exact .present (hclause (Decimal.digits_head limit) h)

theorem Operation.phrase {operation : Operation} (h : operation.WellFormed) :
    OperationPhrase operation.tokens operation := by
  cases operation with
  | query selection =>
      obtain ⟨hcollection, -, hfilters, -, hlimit⟩ := h
      have hpath := Path.normalize_slash selection.collection
      have hquery : OperationPhrase (query selection).tokens
          (.query ⟨Path.normalize ("/" ++ selection.collection), selection.fields,
            selection.filters, selection.orderings, selection.limit⟩) :=
        .query (hpath.symm ▸ hcollection.ne_empty) (optionalClause_select selection.fields)
          (optionalClause_filter hfilters) (optionalClause_order selection.orderings)
          (optionalClause_limit hlimit)
      rwa [hpath] at hquery
  | get collection document =>
      obtain ⟨hcollection, hodd, hdocument, -, hlast⟩ := h
      exact .get (Path.normalize_slash _) hlast hcollection.ne_empty hdocument hodd
  | count collection filters =>
      obtain ⟨hcollection, hfilters⟩ := h
      have hpath := Path.normalize_slash collection
      have hcount : OperationPhrase (count collection filters).tokens
          (.count (Path.normalize ("/" ++ collection)) filters) :=
        .count (hpath.symm ▸ hcollection.ne_empty) (optionalClause_filter hfilters)
      rwa [hpath] at hcount
  | listCollections document =>
      by_cases hdocument : document = ""
      · subst hdocument
        exact .root
      · have hpath := Path.normalize_slash document
        have hbase := @OperationPhrase.base Command.listCollections.name ("/" ++ document)
        rw [hpath] at hbase
        rw [Operation.tokens, if_neg hdocument]
        exact hbase (.inr (h.resolve_left hdocument).2)
  | pager enabled =>
      refine .pager ?_
      cases enabled <;> rfl

theorem parse_text {operation : Operation} (h : operation.WellFormed) :
    parse operation.text = .ok operation := by
  rw [parse_eq_ok_iff_tokensFrom, Operation.tokensFrom_text h]
  exact Operation.phrase h

/-- An operation is denoted by some line exactly if it is well-formed, and then by its own. -/
theorem expressible_iff (operation : Operation) :
    (parse operation.text = .ok operation ↔ operation.WellFormed) ∧
      ((∃ line, parse line = .ok operation) ↔ operation.WellFormed) := by
  refine ⟨⟨wellFormed_of_parse, parse_text⟩, ?_, fun h => ⟨_, parse_text h⟩⟩
  rintro ⟨line, h⟩
  exact wellFormed_of_parse h

end DocShell.Query
