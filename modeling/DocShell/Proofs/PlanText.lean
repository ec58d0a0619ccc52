import DocShell.Proofs.JsonText
import DocShell.Proofs.WellFormed
import DocShell.Shell.Session

namespace DocShell.Time.Timestamp

variable {t t' : Timestamp}

theorem WellFormed.text_cases (h : t.WellFormed) : withOffset? t.text = some t ∨
    withOffset? t.text = none ∧ t.text = t.literal ++ ['Z'] := by
  by_cases hyear : 0 ≤ t.year ∧ t.year ≤ 9999
  · exact .inl (h.withOffset?_text hyear)
  · have hzero : t.nanosecond = 0 ∧ t.offset = 0 := by
      have hyear' := mt h.year_of hyear
      omega
    have htext : t.text = t.literal ++ ['Z'] := by
      simp [text, literal, localText, hyear, hzero, fractionText, offsetText]
    have hsigned : t.text = (if t.year < 0 then '-' else '+') :: t.text.tail := by
      simp [text, yearText, hyear]
    refine .inr ⟨?_, htext⟩
    rw [hsigned]
    exact withOffset?_signed t.year _

theorem WellFormed.text_injective (h : t.WellFormed) (h' : t'.WellFormed)
    (htext : t.text = t'.text) : t = t' := by
  rcases h.text_cases with hsome | ⟨hnone, hliteral⟩
  · rcases h'.text_cases with hsome' | ⟨hnone', -⟩
    · rw [htext, hsome'] at hsome
      exact (Option.some.inj hsome).symm
    · rw [htext, hnone'] at hsome
      cases hsome
  · rcases h'.text_cases with hsome' | ⟨-, hliteral'⟩
    · rw [htext, hsome'] at hnone
      cases hnone
    · rw [hliteral, hliteral'] at htext
      have hsame := List.append_cancel_right htext
      have hread := h.ofText?_literal
      rw [hsame, h'.ofText?_literal] at hread
      exact (Option.some.inj hread).symm

end DocShell.Time.Timestamp

namespace DocShell.Json

theorem eq_of_sorted_map_eq {α : Type} {f : α → Json} {xs ys : List α}
    (h : (array (xs.map f)).sorted = (array (ys.map f)).sorted)
    (hitems : ∀ x ∈ xs, ∀ y ∈ ys, (f x).sorted = (f y).sorted → x = y) : xs = ys := by
  rw [sorted, sorted, Json.array.injEq, sortedItems_eq, sortedItems_eq, List.map_map,
    List.map_map] at h
  induction xs generalizing ys with
  | nil => exact (List.map_eq_nil_iff.mp h.symm).symm
  | cons x xs ih =>
      obtain ⟨y, rest, rfl, hy, hrest⟩ := List.map_eq_cons_iff.mp h.symm
      have hfirst := hitems x (List.mem_cons_self ..) y (List.mem_cons_self ..) hy.symm
      have hothers := ih hrest.symm fun x hx y hy =>
        hitems x (List.mem_cons_of_mem _ hx) y (List.mem_cons_of_mem _ hy)
      rw [hfirst, hothers]

end DocShell.Json

namespace DocShell.Query

open DocShell.Json

def Scalar.isFloat : Scalar → Bool
  | float _ => true
  | _ => false

def FilterValue.scalars : FilterValue → List Scalar
  | scalar s => [s]
  | array items => items
  | timestamp _ => []

def Operation.Floatless (operation : Operation) : Prop :=
  ∀ filter ∈ operation.filters, ∀ item ∈ filter.value.scalars, item.isFloat = false

/-- The operations on documents, which are answered with their plan. -/
def Operation.IsPlanned : Operation → Prop
  | query _ | get _ _ | count _ _ => True
  | _ => False

section Readable

variable {levels : Nat}

theorem Scalar.readable {value : Scalar} (h : value.WellFormed) (hfloat : value.isFloat = false) :
    Readable levels value.plan := by
  cases value with
  | int value => exact .int h.1 (Int.lt_trans h.2 (by decide))
  | float value => cases hfloat
  | string value => exact .string

theorem FilterValue.readable {value : FilterValue} (h : value.WellFormed)
    (hfloat : ∀ item ∈ value.scalars, item.isFloat = false) :
    Readable (levels + 2) value.plan := by
  have hcontent : Readable (levels + 1) value.content := by
    cases value with
    | scalar s => exact s.readable h (hfloat s (List.mem_singleton_self s))
    | array items =>
        exact .array (List.forall_mem_map.mpr fun item hmem =>
          item.readable (h item hmem) (hfloat item hmem))
    | timestamp t => exact .string
  refine .object (by simp) ?_
  simpa using ⟨.string, hcontent⟩

theorem Filter.readable {filter : Filter} (h : filter.WellFormed)
    (hfloat : ∀ item ∈ filter.value.scalars, item.isFloat = false) :
    Readable (levels + 3) filter.plan := by
  refine .object (by simp) ?_
  simpa using ⟨.string, .string, FilterValue.readable h.value hfloat⟩

theorem Ordering.readable (ordering : Ordering) : Readable (levels + 1) ordering.plan := by
  refine .object (by simp) ?_
  simpa using ⟨.string, .string⟩

theorem readable_filters {filters : List Filter} (h : ∀ filter ∈ filters, filter.WellFormed)
    (hfloat : ∀ filter ∈ filters, ∀ item ∈ filter.value.scalars, item.isFloat = false) :
    Readable (levels + 4) (.array (filters.map Filter.plan)) :=
  .array (List.forall_mem_map.mpr fun filter hmem =>
    filter.readable (h filter hmem) (hfloat filter hmem))

end Readable

/-- No two members of a plan have one name. -/
theorem Operation.nodup_names (operation : Operation) :
    ((("operation", .string operation.name) :: operation.details).map Prod.fst).Nodup := by
  cases operation <;> simp [details]

theorem Operation.readable {operation : Operation} (h : operation.WellFormed)
    (hfloat : operation.Floatless) : Readable 5 operation.plan := by
  refine .object operation.nodup_names (List.forall_mem_cons.mpr ⟨.string, ?_⟩)
  cases operation with
  | query selection =>
      obtain ⟨-, -, hfilters, -, hlimit⟩ := h
      have hfields : Readable 4 (.array (selection.fields.map .string)) :=
        .array (List.forall_mem_map.mpr fun _ _ => .string)
      have horderings : Readable 4 (.array (selection.orderings.map Ordering.plan)) :=
        .array (List.forall_mem_map.mpr fun ordering _ => ordering.readable)
      have hlimit' : Readable 4 (.int selection.limit) :=
        .int (by omega) (Int.ofNat_lt.mpr hlimit)
      simpa [details] using
        ⟨.string, hfields, readable_filters hfilters hfloat, horderings, hlimit'⟩
  | get collection document => simpa [details] using ⟨.string, .string⟩
  | count collection filters =>
      simpa [details] using ⟨.string, readable_filters h.2 hfloat⟩
  | listCollections document => simpa [details] using .string
  | pager enabled => simpa [details] using .bool

section Injective

theorem Operator.name_injective {o o' : Operator} (h : o.name = o'.name) : o = o' := by
  have hall : ∀ c c' : Comparison, c.name = c'.name → c = c' := by
    intro c c' h
    cases c <;> cases c' <;> first | rfl | exact absurd h (by decide)
  cases o <;> cases o' <;> first
    | rfl
    | exact congrArg _ (hall _ _ h)
    | exact absurd h (by decide)
    | (rename_i c; cases c <;> exact absurd h (by decide))

theorem Direction.name_injective {d d' : Direction} (h : d.name = d'.name) : d = d' := by
  cases d <;> cases d' <;> first | rfl | exact absurd h (by decide)

theorem Scalar.plan_injective {value value' : Scalar}
    (h : value.plan.sorted = value'.plan.sorted) : value = value' := by
  cases value <;> cases value' <;> simp_all [Scalar.plan, Json.sorted]

/-- Different values have different plans: the name of the kind tells a timestamp from a string. -/
theorem FilterValue.plan_injective {value value' : FilterValue} (hvalue : value.WellFormed)
    (hvalue' : value'.WellFormed) (h : value.plan.sorted = value'.plan.sorted) :
    value = value' := by
  rw [plan, plan] at h
  have hmembers := sortedMembers_eq_of_sorted_eq h rfl (by simp)
  simp only [sortedMembers_cons_eq_iff, and_true] at hmembers
  obtain ⟨hname, hcontent⟩ := hmembers
  have hkind := Json.string.inj hname
  cases value with
  | scalar s =>
      cases value' with
      | scalar s' => exact congrArg scalar (Scalar.plan_injective hcontent)
      | _ => cases s <;> exact absurd hkind (by simp [kindName])
  | array items =>
      cases value' with
      | array items' =>
          exact congrArg array
            (eq_of_sorted_map_eq hcontent fun _ _ _ _ => Scalar.plan_injective)
      | scalar s => cases s <;> exact absurd hkind (by simp [kindName])
      | _ => exact absurd hkind (by simp [kindName])
  | timestamp t =>
      cases value' with
      | timestamp t' =>
          have htext := congrArg String.toList (Json.string.inj hcontent)
          rw [String.toList_ofList, String.toList_ofList] at htext
          exact congrArg timestamp (Time.Timestamp.WellFormed.text_injective hvalue hvalue' htext)
      | scalar s => cases s <;> exact absurd hkind (by simp [kindName])
      | _ => exact absurd hkind (by simp [kindName])

theorem Filter.plan_injective {filter filter' : Filter} (hfilter : filter.WellFormed)
    (hfilter' : filter'.WellFormed) (h : filter.plan.sorted = filter'.plan.sorted) :
    filter = filter' := by
  rw [plan, plan] at h
  have hmembers := sortedMembers_eq_of_sorted_eq h rfl (by simp)
  simp only [sortedMembers_cons_eq_iff, and_true] at hmembers
  obtain ⟨hfield, hoperator, hvalue⟩ := hmembers
  obtain ⟨field, operator, value⟩ := filter
  obtain ⟨field', operator', value'⟩ := filter'
  obtain rfl : field = field' := Json.string.inj hfield
  obtain rfl : operator = operator' := Operator.name_injective (Json.string.inj hoperator)
  obtain rfl : value = value' :=
    FilterValue.plan_injective hfilter.value hfilter'.value hvalue
  rfl

theorem Ordering.plan_injective {ordering ordering' : Ordering}
    (h : ordering.plan.sorted = ordering'.plan.sorted) : ordering = ordering' := by
  rw [plan, plan] at h
  have hmembers := sortedMembers_eq_of_sorted_eq h rfl (by simp)
  simp only [sortedMembers_cons_eq_iff, and_true] at hmembers
  obtain ⟨hfield, hdirection⟩ := hmembers
  obtain ⟨field, direction⟩ := ordering
  obtain ⟨field', direction'⟩ := ordering'
  obtain rfl : field = field' := Json.string.inj hfield
  obtain rfl : direction = direction' := Direction.name_injective (Json.string.inj hdirection)
  rfl

theorem filters_injective {filters filters' : List Filter}
    (hfilters : ∀ filter ∈ filters, filter.WellFormed)
    (hfilters' : ∀ filter ∈ filters', filter.WellFormed)
    (h : (Json.array (filters.map Filter.plan)).sorted =
      (Json.array (filters'.map Filter.plan)).sorted) : filters = filters' :=
  eq_of_sorted_map_eq h fun filter hmem filter' hmem' =>
    Filter.plan_injective (hfilters filter hmem) (hfilters' filter' hmem')

theorem Operation.name_eq_of_plan_eq {operation operation' : Operation}
    (h : operation.plan.sorted = operation'.plan.sorted) : operation.name = operation'.name := by
  have hperm := perm_of_sorted_eq operation.nodup_names operation'.nodup_names h
  have hmem : ("operation", .string operation.name) ∈ sortedMembers
      (("operation", .string operation'.name) :: operation'.details) :=
    hperm.subset (List.mem_cons_self ..)
  rw [sortedMembers, List.mem_cons] at hmem
  rcases hmem with hsame | hmem
  · exact Json.string.inj (Prod.mk.inj hsame).2
  · have hnodup := operation'.nodup_names
    rw [List.map_cons, List.nodup_cons, ← names_sortedMembers] at hnodup
    exact absurd (List.mem_map_of_mem hmem) hnodup.1

/-- Different operations have different plans. -/
theorem Operation.plan_injective {operation operation' : Operation}
    (hoperation : operation.WellFormed) (hoperation' : operation'.WellFormed)
    (h : operation.plan.sorted = operation'.plan.sorted) : operation = operation' := by
  have hname := name_eq_of_plan_eq h
  have hmembers : operation.details.map Prod.fst = operation'.details.map Prod.fst →
      sortedMembers operation.details = sortedMembers operation'.details := by
    intro hnames
    have hcons := sortedMembers_eq_of_sorted_eq h
      (by rw [List.map_cons, List.map_cons, hnames]) operation.nodup_names
    exact (List.cons.inj hcons).2
  cases operation with
  | query q =>
      cases operation' with
      | query q' =>
          have hdetails := hmembers rfl
          simp only [details, sortedMembers_cons_eq_iff, and_true] at hdetails
          obtain ⟨hcollection, hfields, hfilters, horderings, hlimit⟩ := hdetails
          obtain ⟨collection, fields, filters, orderings, limit⟩ := q
          obtain ⟨collection', fields', filters', orderings', limit'⟩ := q'
          obtain rfl : collection = collection' := Json.string.inj hcollection
          obtain rfl : fields = fields' :=
            eq_of_sorted_map_eq hfields fun _ _ _ _ hfield => Json.string.inj hfield
          obtain rfl : filters = filters' :=
            filters_injective hoperation.2.2.1 hoperation'.2.2.1 hfilters
          obtain rfl : orderings = orderings' :=
            eq_of_sorted_map_eq horderings fun _ _ _ _ => Ordering.plan_injective
          obtain rfl : limit = limit' := Int.ofNat_inj.mp (Json.int.inj hlimit)
          rfl
      | _ => exact absurd hname (by simp [name])
  | get collection document =>
      cases operation' with
      | get collection' document' =>
          have hdetails := hmembers rfl
          simp only [details, sortedMembers_cons_eq_iff, and_true] at hdetails
          obtain rfl : collection = collection' := Json.string.inj hdetails.1
          obtain rfl : document = document' := Json.string.inj hdetails.2
          rfl
      | _ => exact absurd hname (by simp [name])
  | count collection filters =>
      cases operation' with
      | count collection' filters' =>
          have hdetails := hmembers rfl
          simp only [details, sortedMembers_cons_eq_iff, and_true] at hdetails
          obtain rfl : collection = collection' := Json.string.inj hdetails.1
          obtain rfl : filters = filters' := filters_injective hoperation.2 hoperation'.2 hdetails.2
          rfl
      | _ => exact absurd hname (by simp [name])
  | listCollections document =>
      cases operation' with
      | listCollections document' =>
          have hdetails := hmembers rfl
          simp only [details, sortedMembers_cons_eq_iff, and_true] at hdetails
          obtain rfl : document = document' := Json.string.inj hdetails
          rfl
      | _ => exact absurd hname (by simp [name])
  | pager enabled =>
      cases operation' with
      | pager enabled' =>
          have hdetails := hmembers rfl
          simp only [details, sortedMembers_cons_eq_iff, and_true] at hdetails
          obtain rfl : enabled = enabled' := Json.bool.inj hdetails
          rfl
      | _ => exact absurd hname (by simp [name])

end Injective

end DocShell.Query

namespace DocShell.Shell

open DocShell.Json
open DocShell.Query

/-- In every format and color the same value is read: colors only change the order of members. -/
theorem ofText?_jsonText {levels : Nat} {value : Json} (h : Readable levels value)
    (hlevels : levels ≤ maxDepth) (format : Format) (color : Bool) :
    ofText? (jsonText format color value) = some value.sorted := by
  cases format with
  | json => exact h.ofText?_text hlevels .compact
  | jsonPretty =>
      have hplain := h.ofText?_text hlevels .pretty
      cases color with
      | false => exact hplain
      | true =>
          have hsorted := h.sorted.ofText?_text hlevels .pretty
          rw [h.sorted_sorted] at hsorted
          simp only [jsonText, hplain, if_true]
          exact hsorted

theorem run_eq_plan (session : Session) (store : Store) {line : String} {operation : Operation}
    (h : parse line = .ok operation) (hplanned : operation.IsPlanned) :
    (session.run store line).1 =
      .ok (jsonText session.format session.color operation.plan) := by
  rw [Session.run, h]
  cases operation with
  | query | get | count => rfl
  | listCollections | pager => cases hplanned

/-- The output for an operation on documents is read as its plan, the same for all formats and
colors, and the output for another operation is never read as that plan. -/
theorem plan_determines {line : String} {operation : Operation}
    (hparse : parse line = .ok operation) (hplanned : operation.IsPlanned)
    (hfloat : operation.Floatless) :
    ∃ value, Same operation.plan value ∧
      (∀ (session : Session) (store : Store), ∃ text,
        (session.run store line).1 = .ok text ∧ ofText? text = some value) ∧
      ∀ (line' : String) (other : Operation), parse line' = .ok other → other.IsPlanned →
        other.Floatless → ∀ (session : Session) (store : Store) (text : String),
          (session.run store line').1 = .ok text → ofText? text = some value →
            other = operation := by
  have hwell := wellFormed_of_parse hparse
  have hread := Operation.readable hwell hfloat
  refine ⟨operation.plan.sorted, hread.same_sorted, ?_, ?_⟩
  · intro session store
    exact ⟨_, run_eq_plan session store hparse hplanned, ofText?_jsonText hread (by decide) _ _⟩
  · intro line' other hparse' hplanned' hfloat' session store text hrun htext
    have hwell' := wellFormed_of_parse hparse'
    rw [run_eq_plan session store hparse' hplanned'] at hrun
    cases hrun
    rw [ofText?_jsonText (Operation.readable hwell' hfloat') (by decide)] at htext
    exact Operation.plan_injective hwell' hwell (Option.some.inj htext)

/-- Quotes, line breaks, the ends of the ranges and a leap second are read as they were written. -/
theorem plan_determines_escaped :
    let line := "QUERY /a WHERE b IN ['\"\\\n\u0001é', -9223372036854775808] AND " ++
      "c < timestamp('2024-02-29T23:59:60.5+05:30') LIMIT 18446744073709551615"
    ∃ operation value, parse line = .ok operation ∧ Same operation.plan value ∧
      ∀ (session : Session) (store : Store), ∃ text,
        (session.run store line).1 = .ok text ∧ ofText? text = some value := by
  intro line
  have hparse : parse line = .ok (.query ⟨"a", [],
      [⟨"b", .memberOf, .array [.string "\"\\\n\u0001é", .int (-9223372036854775808)]⟩,
        ⟨"c", .compare .less, .timestamp ⟨2024, 2, 29, 23, 59, 60, 500000000, 330⟩⟩],
      [], 18446744073709551615⟩) := by decide +kernel
  obtain ⟨value, hsame, hrun, -⟩ := plan_determines hparse trivial (by
    simp [Operation.Floatless, Operation.filters, FilterValue.scalars, Scalar.isFloat])
  exact ⟨_, value, hparse, hsame, hrun⟩

end DocShell.Shell
