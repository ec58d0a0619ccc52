import DocShell.Proofs.Recognition
import DocShell.Proofs.Spelling
import DocShell.Proofs.Timestamps

namespace DocShell.Query

variable {α : Type}

/-- A text that can be part of a path. -/
def HasWordChars (text : String) : Prop := ∀ c ∈ text.toList, isWordChar c = true

def Scalar.WellFormed : Scalar → Prop
  | int value => -0x8000000000000000 ≤ value ∧ value < 0x8000000000000000
  | float _ => True
  | string value => IsQuotable value

def FilterValue.WellFormed : FilterValue → Prop
  | scalar value => value.WellFormed
  | array items => ∀ item ∈ items, item.WellFormed
  | timestamp value => value.WellFormed

structure Filter.WellFormed (filter : Filter) : Prop where
  field : IsField filter.field
  takesArray : filter.operator.takesArray = filter.value.isArray
  value : filter.value.WellFormed

def ClauseBody.WellFormed : ClauseBody → Prop
  | select fields => ∀ field ∈ fields, IsField field
  | filter filters => ∀ filter ∈ filters, filter.WellFormed
  | order orderings => ∀ ordering ∈ orderings, IsField ordering.field
  | limit number => number < 0x10000000000000000

def Operation.filters : Operation → List Filter
  | query selection => selection.filters
  | count _ filters => filters
  | _ => []

/-- The path of a collection. A slash in front of it does not belong to it. -/
structure IsCollection (path : String) : Prop where
  ne_empty : path ≠ ""
  chars : HasWordChars path

/-- The operations that a line can denote. -/
def Operation.WellFormed : Operation → Prop
  | query selection =>
      IsCollection selection.collection ∧
        (ClauseBody.select selection.fields).WellFormed ∧
        (ClauseBody.filter selection.filters).WellFormed ∧
        (ClauseBody.order selection.orderings).WellFormed ∧
        (ClauseBody.limit selection.limit).WellFormed
  | get collection document =>
      IsCollection collection ∧ (Path.segments collection).length % 2 = 1 ∧
        document ≠ "" ∧ HasWordChars document ∧ '/' ∉ document.toList
  | count collection filters => IsCollection collection ∧ (ClauseBody.filter filters).WellFormed
  | listCollections document =>
      document = "" ∨ HasWordChars document ∧ (Path.segments document).length % 2 = 0
  | pager _ => True

/-- What the tokens of every text satisfy. -/
structure Token.IsRead (token : Token) : Prop where
  word : token.kind = .word → IsField token.literal
  string : token.kind = .string → IsQuotable token.literal

theorem isRead_of_mem_tokensFrom {first : Bool} {cs : List Char} {token : Token}
    (h : token ∈ tokensFrom first cs) : token.IsRead := by
  obtain ⟨kind, literal⟩ := token
  constructor
  · rintro rfl
    exact isField_of_mem_tokensFrom h
  · rintro rfl
    exact isQuotable_of_mem_tokensFrom h

theorem Separated.forall_values {phrase : List Token → α → Prop} {separator : TokenKind}
    {P : α → Prop} (hphrase : ∀ tokens value, phrase tokens value →
      (∀ token ∈ tokens, token.IsRead) → P value) {tokens : List Token} {values : List α}
    (h : Separated phrase separator tokens values) (hread : ∀ token ∈ tokens, token.IsRead) :
    ∀ value ∈ values, P value := by
  induction h with
  | one hvalue => simpa using hphrase _ _ hvalue hread
  | more hvalue _ ih =>
      rw [List.forall_mem_append, List.forall_mem_cons] at hread
      exact List.forall_mem_cons.mpr ⟨hphrase _ _ hvalue hread.1, ih hread.2.2⟩

theorem ScalarPhrase.wellFormed {tokens : List Token} {value : Scalar}
    (h : ScalarPhrase tokens value) (hread : ∀ token ∈ tokens, token.IsRead) :
    value.WellFormed := by
  cases h with
  | int _ hlow hhigh => exact ⟨hlow, hhigh⟩
  | float => trivial
  | string => exact (hread _ (List.mem_cons_self ..)).string rfl

theorem ValuePhrase.wellFormed {tokens : List Token} {value : FilterValue}
    (h : ValuePhrase tokens value) (hread : ∀ token ∈ tokens, token.IsRead) :
    value.WellFormed := by
  cases h with
  | scalar hscalar => exact hscalar.wellFormed hread
  | empty => simp [FilterValue.WellFormed]
  | array hitems =>
      rw [List.forall_mem_cons, List.forall_mem_append] at hread
      exact hitems.forall_values (fun _ _ hitem => hitem.wellFormed) hread.2.1
  | timestamp _ hvalue => exact Time.Timestamp.wellFormed_of_ofText? hvalue

theorem FilterPhrase.wellFormed {tokens : List Token} {filter : Filter}
    (h : FilterPhrase tokens filter) (hread : ∀ token ∈ tokens, token.IsRead) :
    filter.WellFormed := by
  obtain ⟨-, hvalue, htakes⟩ := h
  rw [List.forall_mem_cons, List.forall_mem_cons] at hread
  exact ⟨hread.1.word rfl, htakes, hvalue.wellFormed hread.2.2⟩

theorem FieldPhrase.isField {tokens : List Token} {field : String} (h : FieldPhrase tokens field)
    (hread : ∀ token ∈ tokens, token.IsRead) : IsField field := by
  cases h
  exact (hread _ (List.mem_cons_self ..)).word rfl

theorem OrderingPhrase.isField {tokens : List Token} {ordering : Ordering}
    (h : OrderingPhrase tokens ordering) (hread : ∀ token ∈ tokens, token.IsRead) :
    IsField ordering.field := by
  cases h <;> exact (hread _ (List.mem_cons_self ..)).word rfl

theorem ClausePhrase.wellFormed {tokens : List Token} {body : ClauseBody}
    (h : ClausePhrase tokens body) (hread : ∀ token ∈ tokens, token.IsRead) :
    body.WellFormed := by
  cases h with
  | select hfields =>
      exact hfields.forall_values (fun _ _ hfield => hfield.isField)
        (List.forall_mem_cons.mp hread).2
  | filter hfilters =>
      exact hfilters.forall_values (fun _ _ hfilter => hfilter.wellFormed)
        (List.forall_mem_cons.mp hread).2
  | order horderings =>
      rw [List.forall_mem_cons, List.forall_mem_cons] at hread
      exact horderings.forall_values (fun _ _ hordering => hordering.isField) hread.2.2
  | limit _ hrange => exact hrange

theorem OptionalClause.wellFormed {body : α → ClauseBody} {absent value : α} {tokens : List Token}
    (h : OptionalClause body absent tokens value) (habsent : (body absent).WellFormed)
    (hread : ∀ token ∈ tokens, token.IsRead) : (body value).WellFormed := by
  cases h with
  | absent => exact habsent
  | present hclause => exact hclause.wellFormed hread

theorem hasWordChars_normalize {raw : String} (h : HasWordChars raw) :
    HasWordChars (Path.normalize raw) := by
  unfold Path.normalize
  split
  · rename_i rest hraw
    intro c hc
    rw [String.toList_ofList] at hc
    exact h c (hraw ▸ List.mem_cons_of_mem _ hc)
  · exact h

theorem OperationPhrase.wellFormed {tokens : List Token} {operation : Operation}
    (h : OperationPhrase tokens operation) (hread : ∀ token ∈ tokens, token.IsRead) :
    operation.WellFormed := by
  have hpath : ∀ raw, ⟨.word, raw⟩ ∈ tokens → HasWordChars (Path.normalize raw) :=
    fun raw hmem => hasWordChars_normalize ((hread _ hmem).word rfl).chars
  cases h with
  | @query _ raw _ _ _ _ _ _ _ _ hraw hselects hfilters horders hlimits =>
      have hcollection := hpath raw (by simp)
      simp only [List.forall_mem_cons, List.forall_mem_append] at hread
      obtain ⟨-, -, hreadSelects, hreadFilters, hreadOrders, hreadLimits⟩ := hread
      exact ⟨⟨hraw, hcollection⟩,
        hselects.wellFormed (by simp [ClauseBody.WellFormed]) hreadSelects,
        hfilters.wellFormed (by simp [ClauseBody.WellFormed]) hreadFilters,
        horders.wellFormed (by simp [ClauseBody.WellFormed]) hreadOrders,
        hlimits.wellFormed (by simp [ClauseBody.WellFormed]) hreadLimits⟩
  | @count _ raw _ _ hraw hfilters =>
      have hcollection := hpath raw (by simp)
      simp only [List.forall_mem_cons] at hread
      exact ⟨⟨hraw, hcollection⟩,
        hfilters.wellFormed (by simp [ClauseBody.WellFormed]) hread.2.2⟩
  | @get _ raw _ _ hsplit hlast hcollection hdocument hodd =>
      have hchars := hpath raw (by simp)
      rw [hsplit] at hchars
      simp only [HasWordChars, String.toList_append, List.forall_mem_append] at hchars
      exact ⟨⟨hcollection, hchars.1.1⟩, hodd, hdocument, hchars.2, hlast⟩
  | root => exact .inl rfl
  | @base _ raw hshape =>
      have hchars := hpath raw (by simp)
      rcases hshape with hempty | heven
      · exact .inl hempty
      · exact .inr ⟨hchars, heven⟩
  | pager => trivial

theorem wellFormed_of_parse {line : String} {operation : Operation}
    (h : parse line = .ok operation) : operation.WellFormed :=
  (parse_eq_ok_iff_tokensFrom.mp h).wellFormed fun _ => isRead_of_mem_tokensFrom

end DocShell.Query
