import DocShell.Query.Parser

namespace DocShell.Query

open DocShell.Number
open DocShell.Text.Ascii
open DocShell.Time

variable {α : Type}

/-- Phrases of one sort, with a separator between each two. -/
inductive Separated (phrase : List Token → α → Prop) (separator : TokenKind) :
    List Token → List α → Prop where
  | one {tokens value} : phrase tokens value → Separated phrase separator tokens [value]
  | more {front rest literal value values} : phrase front value →
      Separated phrase separator rest values →
      Separated phrase separator (front ++ ⟨separator, literal⟩ :: rest) (value :: values)

inductive FieldPhrase : List Token → String → Prop where
  | word {field} : FieldPhrase [⟨.word, field⟩] field

/-- A number or a string. Whole numbers have the signed 64-bit range. -/
inductive ScalarPhrase : List Token → Scalar → Prop where
  | int {literal : String} {value : Int} : Decimal.toInt literal.toList = value →
      -0x8000000000000000 ≤ value → value < 0x8000000000000000 →
      ScalarPhrase [⟨.int, literal⟩] (.int value)
  | float {literal : String} :
      ScalarPhrase [⟨.float, literal⟩] (.float (.ofLiteral literal.toList))
  | string {literal} : ScalarPhrase [⟨.string, literal⟩] (.string literal)

inductive ValuePhrase : List Token → FilterValue → Prop where
  | scalar {tokens value} : ScalarPhrase tokens value → ValuePhrase tokens (.scalar value)
  | empty {opening closing} :
      ValuePhrase [⟨.punctuation .openBracket, opening⟩, ⟨.punctuation .closeBracket, closing⟩]
        (.array [])
  | array {tokens items opening closing} :
      Separated ScalarPhrase (.punctuation .comma) tokens items →
      ValuePhrase (⟨.punctuation .openBracket, opening⟩ ::
        (tokens ++ [⟨.punctuation .closeBracket, closing⟩])) (.array items)
  | timestamp {name raw opening closing value} : isTimestampName name = true →
      Timestamp.ofText? raw = some value →
      ValuePhrase [⟨.word, name⟩, ⟨.punctuation .openParen, opening⟩, ⟨.string, raw⟩,
        ⟨.punctuation .closeParen, closing⟩] (.timestamp value)

inductive OperatorPhrase : TokenKind → Operator → Prop where
  | compare {comparison} : OperatorPhrase (.comparison comparison) (.compare comparison)
  | memberOf : OperatorPhrase (.keyword .inWord) .memberOf
  | arrayContains : OperatorPhrase (.keyword .arrayContains) .arrayContains
  | arrayContainsAny : OperatorPhrase (.keyword .arrayContainsAny) .arrayContainsAny

/-- A list stands behind the operators that take one, and behind no other. -/
inductive FilterPhrase : List Token → Filter → Prop where
  | compare {field kind literal operator tokens value} : OperatorPhrase kind operator →
      ValuePhrase tokens value → operator.takesArray = value.isArray →
      FilterPhrase (⟨.word, field⟩ :: ⟨kind, literal⟩ :: tokens) ⟨field, operator, value⟩

inductive OrderingPhrase : List Token → Ordering → Prop where
  | plain {field} : OrderingPhrase [⟨.word, field⟩] ⟨field, .ascending⟩
  | ascending {field literal} :
      OrderingPhrase [⟨.word, field⟩, ⟨.keyword .asc, literal⟩] ⟨field, .ascending⟩
  | descending {field literal} :
      OrderingPhrase [⟨.word, field⟩, ⟨.keyword .desc, literal⟩] ⟨field, .descending⟩

/-- A clause with the word that opens it. A limit has the unsigned 64-bit range. -/
inductive ClausePhrase : List Token → ClauseBody → Prop where
  | select {opening tokens fields} : Separated FieldPhrase (.punctuation .comma) tokens fields →
      ClausePhrase (⟨.keyword .select, opening⟩ :: tokens) (.select fields)
  | filter {opening tokens filters} :
      Separated FilterPhrase (.keyword .andWord) tokens filters →
      ClausePhrase (⟨.keyword .whereWord, opening⟩ :: tokens) (.filter filters)
  | order {opening second tokens orderings} :
      Separated OrderingPhrase (.punctuation .comma) tokens orderings →
      ClausePhrase (⟨.keyword .orderWord, opening⟩ :: ⟨.keyword .byWord, second⟩ :: tokens)
        (.order orderings)
  | limit {opening : String} {literal : String} : literal.toList.head? ≠ some '-' →
      Decimal.ofDigits literal.toList < 0x10000000000000000 →
      ClausePhrase [⟨.keyword .limit, opening⟩, ⟨.int, literal⟩]
        (.limit (Decimal.ofDigits literal.toList))

def ClauseBody.clause : ClauseBody → Clause
  | select _ => .select
  | filter _ => .filter
  | order _ => .order
  | limit _ => .limit

theorem ClausePhrase.exists_cons {tokens : List Token} {body : ClauseBody}
    (h : ClausePhrase tokens body) :
    ∃ opening back, tokens = ⟨body.clause.opener, opening⟩ :: back := by
  cases h <;> exact ⟨_, _, rfl⟩

/-- Clauses, one behind the other. -/
inductive ClausePhrases : List Token → List ClauseBody → Prop where
  | nil : ClausePhrases [] []
  | cons {front rest body bodies} : ClausePhrase front body → ClausePhrases rest bodies →
      ClausePhrases (front ++ rest) (body :: bodies)

theorem ClausePhrases.ne_nil {tokens : List Token} {bodies : List ClauseBody}
    (h : ClausePhrases tokens bodies) (hne : bodies ≠ []) : tokens ≠ [] := by
  cases h with
  | nil => exact absurd rfl hne
  | cons hfirst _ =>
      obtain ⟨opening, back, rfl⟩ := hfirst.exists_cons
      simp

/-- A clause that may be left out, and what is said without it. -/
inductive OptionalClause (body : α → ClauseBody) (absent : α) : List Token → α → Prop where
  | absent : OptionalClause body absent [] absent
  | present {tokens value} : ClausePhrase tokens (body value) →
      OptionalClause body absent tokens value

/-- A word that switches something on or off. -/
def IsSwitch (word : String) (enabled : Bool) : Prop :=
  lower word.toList = (if enabled then "on" else "off").toList

/-- The lines of the language. -/
inductive OperationPhrase : List Token → Operation → Prop where
  | query {opening raw selects filters orders limits fields conditions orderings limit} :
      Path.normalize raw ≠ "" →
      OptionalClause .select [] selects fields →
      OptionalClause .filter [] filters conditions →
      OptionalClause .order [] orders orderings →
      OptionalClause .limit 0 limits limit →
      OperationPhrase (⟨.keyword .query, opening⟩ :: ⟨.word, raw⟩ ::
          (selects ++ (filters ++ (orders ++ limits))))
        (.query ⟨Path.normalize raw, fields, conditions, orderings, limit⟩)
  | count {opening raw filters conditions} :
      Path.normalize raw ≠ "" →
      OptionalClause .filter [] filters conditions →
      OperationPhrase (⟨.keyword .count, opening⟩ :: ⟨.word, raw⟩ :: filters)
        (.count (Path.normalize raw) conditions)
  | get {opening raw collection document} :
      Path.normalize raw = collection ++ "/" ++ document → '/' ∉ document.toList →
      collection ≠ "" → document ≠ "" → (Path.segments collection).length % 2 = 1 →
      OperationPhrase [⟨.keyword .get, opening⟩, ⟨.word, raw⟩] (.get collection document)
  | root {opening} : OperationPhrase [⟨.command .listCollections, opening⟩] (.listCollections "")
  | base {opening raw} :
      Path.normalize raw = "" ∨ (Path.segments (Path.normalize raw)).length % 2 = 0 →
      OperationPhrase [⟨.command .listCollections, opening⟩, ⟨.word, raw⟩]
        (.listCollections (Path.normalize raw))
  | pager {opening word enabled} : IsSwitch word enabled →
      OperationPhrase [⟨.command .pager, opening⟩, ⟨.word, word⟩] (.pager enabled)

/-- The kinds of the tokens inside a filter. -/
def TokenKind.isInner : TokenKind → Bool
  | word | string | int | float | comparison _ | punctuation _ => true
  | keyword .inWord | keyword .arrayContains | keyword .arrayContainsAny => true
  | _ => false

theorem Separated.forall_mem {phrase : List Token → α → Prop} {separator : TokenKind}
    {P : TokenKind → Prop} (hphrase : ∀ tokens value, phrase tokens value →
      ∀ token ∈ tokens, P token.kind) (hseparator : P separator) {tokens : List Token}
    {values : List α} (h : Separated phrase separator tokens values) :
    ∀ token ∈ tokens, P token.kind := by
  induction h with
  | one hvalue => exact hphrase _ _ hvalue
  | more hvalue _ ih =>
      intro token hmem
      rcases List.mem_append.mp hmem with hmem | hmem
      · exact hphrase _ _ hvalue token hmem
      · rcases List.mem_cons.mp hmem with rfl | hmem
        · exact hseparator
        · exact ih token hmem

theorem ScalarPhrase.isInner {tokens : List Token} {value : Scalar}
    (h : ScalarPhrase tokens value) : ∀ token ∈ tokens, token.kind.isInner = true := by
  cases h <;> simp [TokenKind.isInner]

theorem ValuePhrase.isInner {tokens : List Token} {value : FilterValue}
    (h : ValuePhrase tokens value) : ∀ token ∈ tokens, token.kind.isInner = true := by
  cases h with
  | scalar hscalar => exact hscalar.isInner
  | empty => simp [TokenKind.isInner]
  | array hitems =>
      have hinner := hitems.forall_mem (P := fun kind => kind.isInner = true)
        (fun _ _ hscalar => hscalar.isInner) rfl
      intro token hmem
      rcases List.mem_cons.mp hmem with rfl | hmem
      · rfl
      · rcases List.mem_append.mp hmem with hmem | hmem
        · exact hinner token hmem
        · rw [List.mem_singleton.mp hmem]
          rfl
  | timestamp => simp [TokenKind.isInner]

theorem OperatorPhrase.isInner {kind : TokenKind} {operator : Operator}
    (h : OperatorPhrase kind operator) : kind.isInner = true := by
  cases h <;> rfl

theorem FilterPhrase.isInner {tokens : List Token} {filter : Filter}
    (h : FilterPhrase tokens filter) : ∀ token ∈ tokens, token.kind.isInner = true := by
  obtain ⟨hoperator, hvalue, -⟩ := h
  intro token hmem
  rcases List.mem_cons.mp hmem with rfl | hmem
  · rfl
  · rcases List.mem_cons.mp hmem with rfl | hmem
    · exact hoperator.isInner
    · exact hvalue.isInner token hmem

theorem FieldPhrase.isInner {tokens : List Token} {field : String} (h : FieldPhrase tokens field) :
    ∀ token ∈ tokens, token.kind.isInner = true := by
  cases h
  simp [TokenKind.isInner]

/-- The kinds of the tokens behind the one that a line begins with. -/
def TokenKind.isClausal : TokenKind → Bool
  | endOfInput | command _ | keyword .query | keyword .get | keyword .count => false
  | _ => true

theorem isClausal_of_isInner {kind : TokenKind} (h : kind.isInner = true) :
    kind.isClausal = true := by
  unfold TokenKind.isInner at h
  split at h <;> first | rfl | cases h

theorem ClausePhrase.isClausal {tokens : List Token} {body : ClauseBody}
    (h : ClausePhrase tokens body) : ∀ token ∈ tokens, token.kind.isClausal = true := by
  cases h with
  | select hfields =>
      have htail := hfields.forall_mem (P := fun kind => kind.isClausal = true)
        (fun _ _ hfield token hmem => isClausal_of_isInner (hfield.isInner token hmem)) rfl
      exact List.forall_mem_cons.mpr ⟨rfl, htail⟩
  | filter hfilters =>
      have htail := hfilters.forall_mem (P := fun kind => kind.isClausal = true)
        (fun _ _ hfilter token hmem => isClausal_of_isInner (hfilter.isInner token hmem)) rfl
      exact List.forall_mem_cons.mpr ⟨rfl, htail⟩
  | order horderings =>
      have htail := horderings.forall_mem (P := fun kind => kind.isClausal = true)
        (fun _ _ hordering => by cases hordering <;> simp [TokenKind.isClausal]) rfl
      exact List.forall_mem_cons.mpr ⟨rfl, List.forall_mem_cons.mpr ⟨rfl, htail⟩⟩
  | limit => simp [TokenKind.isClausal]

theorem OptionalClause.isClausal {body : α → ClauseBody} {absent value : α}
    {tokens : List Token} (h : OptionalClause body absent tokens value) :
    ∀ token ∈ tokens, token.kind.isClausal = true := by
  cases h with
  | absent => simp
  | present hclause => exact hclause.isClausal

theorem OperationPhrase.isClausal {token : Token} {tokens : List Token} {operation : Operation}
    (h : OperationPhrase (token :: tokens) operation) :
    ∀ token ∈ tokens, token.kind.isClausal = true := by
  cases h with
  | query _ hselects hfilters horders hlimits =>
      intro token hmem
      simp only [List.mem_cons, List.mem_append] at hmem
      rcases hmem with rfl | hmem | hmem | hmem | hmem
      · rfl
      · exact hselects.isClausal token hmem
      · exact hfilters.isClausal token hmem
      · exact horders.isClausal token hmem
      · exact hlimits.isClausal token hmem
  | count _ hfilters => exact List.forall_mem_cons.mpr ⟨rfl, hfilters.isClausal⟩
  | get => simp [TokenKind.isClausal]
  | root => simp
  | base => simp [TokenKind.isClausal]
  | pager => simp [TokenKind.isClausal]

theorem OperationPhrase.ne_endOfInput {tokens : List Token} {operation : Operation}
    (h : OperationPhrase tokens operation) : ∀ token ∈ tokens, token.kind ≠ .endOfInput := by
  cases tokens with
  | nil => simp
  | cons first tokens =>
      have htail : ∀ token ∈ tokens, token.kind ≠ .endOfInput := by
        intro token hmem hend
        have hclausal := h.isClausal token hmem
        rw [hend] at hclausal
        cases hclausal
      refine List.forall_mem_cons.mpr ⟨?_, htail⟩
      cases h <;> simp

end DocShell.Query
