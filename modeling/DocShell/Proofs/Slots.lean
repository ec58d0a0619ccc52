import DocShell.Proofs.Continuation
import DocShell.Proofs.Misplacement
import DocShell.Proofs.WellFormed

/-!
A place of a line where one value is read: what stands in front of it is read alike whatever the
value is, and what comes behind it goes on alike. Main statement: behind the front of a clause, and
behind the front of the value of a filter, a line is read through such a place, and the operation
that comes of it holds the value there.
-/

namespace DocShell.Query

variable {α β γ : Type}

/-- Phrases of one sort, with a separator behind each of them. -/
inductive Led (phrase : List Token → α → Prop) (separator : TokenKind) :
    List Token → List α → Prop where
  | nil : Led phrase separator [] []
  | cons {front rest literal value values} : phrase front value →
      Led phrase separator rest values →
      Led phrase separator (front ++ ⟨separator, literal⟩ :: rest) (value :: values)

theorem Led.separated {phrase : List Token → α → Prop} {separator : TokenKind}
    {tokens last : List Token} {values : List α} {value : α}
    (h : Led phrase separator tokens values) (hlast : phrase last value) :
    Separated phrase separator (tokens ++ last) (values ++ [value]) := by
  induction h with
  | nil => exact .one hlast
  | cons hfirst _ ih =>
      rw [List.append_assoc, List.cons_append]
      exact .more hfirst ih

namespace Rule

theorem bind_congr {rule rule' : Rule α} {ahead ahead' : List Token} (next : α → Rule β)
    (h : rule ahead = rule' ahead') : (rule >>= next) ahead = (rule' >>= next) ahead' := by
  simp only [bind, EStateM.bind, h]

theorem outcome_congr {rule rule' : Rule α} {ahead ahead' : List Token}
    (h : rule ahead = rule' ahead') : outcome rule ahead = outcome rule' ahead' := by
  simp only [outcome, h]

theorem map_map (rule : Rule α) (f : α → β) (g : β → γ) (ahead : List Token) :
    (g <$> f <$> rule) ahead = ((fun value => g (f value)) <$> rule) ahead :=
  congrFun (Functor.map_map f g rule) ahead

theorem separated_of_led {item : Rule α} (hitem : Advances item) {separator : TokenKind}
    {phrase : List Token → α → Prop} {further : List TokenKind} (hreads : Reads item phrase further)
    (hseparator : separator ∉ further) {tokens : List Token} {values : List α}
    (h : Led phrase separator tokens values) (ahead : List Token) :
    separated item hitem separator (tokens ++ ahead) =
      ((values ++ ·) <$> separated item hitem separator : Rule (List α)) ahead := by
  induction h with
  | nil => exact congrFun (@id_map Rule _ _ _ (separated item hitem separator)).symm ahead
  | @cons front rest literal value values hfirst _ ih =>
      have hmore : Avoids further (⟨separator, literal⟩ :: (rest ++ ahead)) :=
        avoids_cons.mpr hseparator
      have hrun := hreads.complete hfirst hmore
      rw [List.append_assoc, List.cons_append, separated_of_kind hitem hrun rfl]
      exact (map_congr (value :: ·) ih).trans (map_map _ _ _ ahead)

/-- What is made of a value and of what follows it: the value is in view of it, and had it been
another value, there would have come something of that one as well. -/
def Uniform (next : β → Rule α) (view : α → Option β) : Prop :=
  ∀ value ahead result rest, next value ahead = .ok result rest →
    view result = some value ∧ ∀ value', ∃ result', next value' ahead = .ok result' rest

/-- Behind `front`, in front of a token of the kind, a rule reads a value with the rule `inner`. -/
def Slot (kind : TokenKind) (rule : Rule α) (front : List Token) (inner : Rule β)
    (view : α → Option β) : Prop :=
  ∃ next : β → Rule α, Uniform next view ∧ ∀ literal back,
    rule (front ++ ⟨kind, literal⟩ :: back) = (inner >>= next) (⟨kind, literal⟩ :: back)

namespace Slot

variable {kind : TokenKind} {rule : Rule α} {front front' : List Token} {inner : Rule β}
  {view : α → Option β}

theorem refl (kind : TokenKind) (rule : Rule α) : Slot kind rule [] rule some := by
  refine ⟨pure, fun value ahead result rest h => ?_, fun literal back => ?_⟩
  · obtain ⟨rfl, rfl⟩ := pure_eq_ok.mp h
    exact ⟨rfl, fun value' => ⟨value', rfl⟩⟩
  · rw [bind_pure]
    rfl

theorem of_eq {rule' : Rule α} (h : Slot kind rule front inner view)
    (heq : ∀ literal back, rule' (front' ++ ⟨kind, literal⟩ :: back) =
      rule (front ++ ⟨kind, literal⟩ :: back)) : Slot kind rule' front' inner view := by
  obtain ⟨next, hnext, hrun⟩ := h
  exact ⟨next, hnext, fun literal back => (heq literal back).trans (hrun literal back)⟩

/-- What is read behind the slot may ask what the found values are like, but not which they are. -/
theorem bind (h : Slot kind rule front inner view) {next : α → Rule γ} {view' : γ → Option α}
    (hnext : ∀ found ahead result rest, next found ahead = .ok result rest →
      view' result = some found ∧ ∀ found', (view found).isSome → (view found').isSome →
        ∃ result', next found' ahead = .ok result' rest) :
    Slot kind (rule >>= next) front inner fun result => (view' result).bind view := by
  obtain ⟨first, hfirst, hrun⟩ := h
  refine ⟨fun value => first value >>= next, fun value ahead result rest h => ?_,
    fun literal back => ?_⟩
  · obtain ⟨found, middle, hfound, hresult⟩ := bind_eq_ok h
    obtain ⟨hview, hothers⟩ := hfirst value ahead found middle hfound
    obtain ⟨hview', hothers'⟩ := hnext found middle result rest hresult
    refine ⟨by simp only [hview', Option.bind_some, hview], fun value' => ?_⟩
    obtain ⟨found', hfound'⟩ := hothers value'
    have hsome := (hfirst value' ahead found' middle hfound').1
    obtain ⟨result', hresult'⟩ := hothers' found' (by rw [hview]; rfl) (by rw [hsome]; rfl)
    exact ⟨result', (bind_of_ok hfound').trans hresult'⟩
  · rw [← bind_assoc]
    exact bind_congr next (hrun literal back)

theorem map (h : Slot kind rule front inner view) {f : α → γ} {view' : γ → Option β}
    (hview : ∀ found value, view found = some value → view' (f found) = some value) :
    Slot kind (f <$> rule) front inner view' := by
  obtain ⟨next, hnext, hrun⟩ := h
  refine ⟨fun value => f <$> next value, fun value ahead result rest h => ?_,
    fun literal back => ?_⟩
  · obtain ⟨found, hfound, rfl⟩ := map_eq_ok h
    obtain ⟨hfirst, hothers⟩ := hnext value ahead found rest hfound
    refine ⟨hview found value hfirst, fun value' => ?_⟩
    obtain ⟨found', hfound'⟩ := hothers value'
    exact ⟨f found', map_of_ok hfound'⟩
  · rw [← map_bind]
    exact map_congr f (hrun literal back)

theorem refused (h : Slot kind rule front inner view) {literal : String}
    {back rest : List Token} {cause : ParseError}
    (hinner : inner (⟨kind, literal⟩ :: back) = .error cause rest) :
    rule (front ++ ⟨kind, literal⟩ :: back) = .error cause rest := by
  obtain ⟨next, -, hrun⟩ := h
  rw [hrun]
  exact bind_of_error hinner

theorem accepted (h : Slot kind rule front inner view) {literal : String}
    {back middle rest : List Token} {value : β} {result : α}
    (hinner : inner (⟨kind, literal⟩ :: back) = .ok value middle)
    (hresult : rule (front ++ ⟨kind, literal⟩ :: back) = .ok result rest) :
    view result = some value := by
  obtain ⟨next, hnext, hrun⟩ := h
  rw [hrun, bind_of_ok hinner] at hresult
  exact (hnext value middle result rest hresult).1

/-- Where one value is read with success, every other one is. -/
theorem exchange (h : Slot kind rule front inner view) {literal literal' : String}
    {back back' middle rest : List Token} {value value' : β} {result : α}
    (hinner : inner (⟨kind, literal⟩ :: back) = .ok value middle)
    (hinner' : inner (⟨kind, literal'⟩ :: back') = .ok value' middle)
    (hresult : rule (front ++ ⟨kind, literal⟩ :: back) = .ok result rest) :
    ∃ result', rule (front ++ ⟨kind, literal'⟩ :: back') = .ok result' rest := by
  obtain ⟨next, hnext, hrun⟩ := h
  rw [hrun, bind_of_ok hinner] at hresult
  rw [hrun, bind_of_ok hinner']
  exact (hnext value middle result rest hresult).2 value'

/-- Two ways to write one value are read alike. -/
theorem run_congr (h : Slot kind rule front inner view) {literal literal' : String}
    {back back' : List Token}
    (hinner : inner (⟨kind, literal⟩ :: back) = inner (⟨kind, literal'⟩ :: back')) :
    rule (front ++ ⟨kind, literal⟩ :: back) = rule (front ++ ⟨kind, literal'⟩ :: back') := by
  obtain ⟨next, -, hrun⟩ := h
  rw [hrun, hrun]
  exact bind_congr next hinner

theorem separated (h : Slot kind rule front inner view) (hrule : Advances rule)
    {separator : TokenKind} {phrase : List Token → α → Prop} {further : List TokenKind}
    (hreads : Reads rule phrase further) (hseparator : separator ∉ further) {tokens : List Token}
    {values : List α} (hled : Led phrase separator tokens values) :
    Slot kind (separated rule hrule separator) (tokens ++ front) inner
      fun found => found[values.length]?.bind view := by
  have hitem : Slot kind (rule >>= fun value => optional separator >>= fun found =>
      found.elim (pure (values ++ [value])) fun _ =>
        (values ++ value :: ·) <$> Rule.separated rule hrule separator)
      front inner fun found => found[values.length]?.bind view := by
    refine h.bind fun value ahead result rest hresult => ?_
    obtain ⟨found, middle, hfound, hresult⟩ := bind_eq_ok hresult
    cases found with
    | none =>
        obtain ⟨rfl, rfl⟩ := pure_eq_ok.mp hresult
        exact ⟨by simp, fun value' _ _ => ⟨values ++ [value'], bind_of_ok hfound⟩⟩
    | some literal =>
        obtain ⟨others, hothers, rfl⟩ := map_eq_ok hresult
        refine ⟨by simp, fun value' _ _ => ⟨values ++ value' :: others, ?_⟩⟩
        exact (bind_of_ok hfound).trans (map_of_ok hothers)
  refine hitem.of_eq fun literal back => ?_
  rw [List.append_assoc, separated_of_led hrule hreads hseparator hled,
    map_congr _ (congrFun (separated_eq rule hrule separator) _), map_bind]
  refine congrFun (congrArg _ (funext fun value => ?_)) _
  rw [map_bind]
  refine congrArg _ (funext fun found => ?_)
  cases found with
  | none => rfl
  | some literal => exact funext (map_map (Rule.separated rule hrule separator) _ _)

theorem clauses {clause : Clause} {tokens : List Token} {bodies : List ClauseBody}
    (hphrases : ClausePhrases tokens bodies) {view : ClauseBody → Option β}
    (h : Slot kind (body clause) front inner view) {f : List ClauseBody → γ} {view' : γ → Option β}
    (hview : ∀ found others value, view found = some value →
      view' (f (bodies ++ found :: others)) = some value) {later : List Clause}
    (hnodup : later.Nodup) (hsub : (bodies.map ClauseBody.clause ++ [clause]).Sublist later)
    (table : List Clause) (last : Option Clause) (word : String) :
    Slot kind (f <$> Rule.clauses table last later) (tokens ++ ⟨clause.opener, word⟩ :: front) inner
      view' := by
  induction hphrases generalizing f last later with
  | nil =>
      obtain ⟨later', hfind, -⟩ := Clause.find?_of_sublist hnodup hsub
      have hlist : Slot kind (body clause >>= fun found =>
          Rule.clauses table (some clause) later' >>= fun others => pure (found :: others))
          front inner fun found => found.head?.bind view := by
        refine h.bind fun found ahead result rest hresult => ?_
        obtain ⟨others, middle, hothers, hresult⟩ := bind_eq_ok hresult
        obtain ⟨rfl, rfl⟩ := pure_eq_ok.mp hresult
        exact ⟨rfl, fun found' _ _ => ⟨found' :: others, bind_of_ok hothers⟩⟩
      have hmade : ∀ found value, found.head?.bind view = some value →
          view' (f found) = some value := by
        rintro (_ | ⟨found, others⟩) value hvalue
        · cases hvalue
        · exact hview found others value hvalue
      exact (hlist.map hmade).of_eq fun literal back => map_congr f (clauses_of_find hfind _)
  | @cons first rest found bodies hfirst hrest ih =>
      obtain ⟨opening, words, rfl⟩ := hfirst.exists_cons
      obtain ⟨later', hfind, hsub'⟩ := Clause.find?_of_sublist hnodup hsub
      have hnodup' : later'.Nodup :=
        (List.nodup_cons.mp (hnodup.sublist (Clause.find?_eq_some hfind).2)).2
      have hothers := ih (f := fun others => f (found :: others)) hview hnodup' hsub'
        (some found.clause)
      refine hothers.of_eq fun literal back => ?_
      have havoids := avoids_of_clausePhrases hrest
        (clause.avoids_opener word (front ++ ⟨kind, literal⟩ :: back))
      have hbody := (reads_body found.clause opening).complete hfirst havoids
      have hread : Rule.clauses table last later
          (⟨found.clause.opener, opening⟩ :: (words ++ (rest ++
            ⟨clause.opener, word⟩ :: (front ++ ⟨kind, literal⟩ :: back)))) =
          ((found :: ·) <$> Rule.clauses table (some found.clause) later' : Rule (List ClauseBody))
            (rest ++ ⟨clause.opener, word⟩ :: (front ++ ⟨kind, literal⟩ :: back)) := by
        rw [clauses_of_find hfind, bind_of_ok hbody, bind_pure_comp]
      simp only [List.append_assoc, List.cons_append]
      exact (map_congr f hread).trans (map_map _ _ _ _)

end Slot

/-- What a list of tokens denotes as a line. -/
def wholeLine : Rule Operation
  | [] => .error .emptyInput []
  | token :: ahead => operation token ahead

end Rule

open Rule

theorem parse_eq_wholeLine (line : String) : parse line = outcome wholeLine (tokens line.toList) := by
  cases htokens : tokens line.toList with
  | nil => simp [tokens_eq] at htokens
  | cons token ahead => exact parse_eq_outcome line htokens

def ClauseBody.filters? : ClauseBody → Option (List Filter)
  | filter filters => some filters
  | _ => none

def ClauseBody.limit? : ClauseBody → Option Nat
  | limit number => some number
  | _ => none

def Operation.limit? : Operation → Option Nat
  | query selection => some selection.limit
  | _ => none

section Clauses

variable {bodies : List ClauseBody} (path : String) (others : List ClauseBody)

theorem filters_ofClauses (h : Clause.filter ∉ bodies.map ClauseBody.clause)
    (filters : List Filter) :
    (Selection.ofClauses path (bodies ++ .filter filters :: others)).filters = filters := by
  induction bodies with
  | nil => rfl
  | cons body bodies ih =>
      simp only [List.map_cons, List.mem_cons, not_or] at h
      cases body with
      | filter => exact absurd rfl h.1
      | _ => exact ih h.2

theorem filters_operation {request : Request} (h : Clause.filter ∉ bodies.map ClauseBody.clause)
    (filters : List Filter) :
    (request.operation path (bodies ++ .filter filters :: others)).filters = filters := by
  have hfilters := filters_ofClauses path others h filters
  cases request <;> exact hfilters

theorem limit_ofClauses (h : Clause.limit ∉ bodies.map ClauseBody.clause) (number : Nat) :
    (Selection.ofClauses path (bodies ++ .limit number :: others)).limit = number := by
  induction bodies with
  | nil => rfl
  | cons body bodies ih =>
      simp only [List.map_cons, List.mem_cons, not_or] at h
      cases body with
      | limit => exact absurd rfl h.1
      | _ => exact ih h.2

theorem Request.not_mem_of_sublist {request : Request} {clause : Clause}
    (h : (bodies.map ClauseBody.clause ++ [clause]).Sublist request.clauses) :
    clause ∉ bodies.map ClauseBody.clause := by
  have hnodup := request.nodup_clauses.sublist h
  intro hmem
  exact (List.nodup_append.mp hnodup).2.2 clause hmem clause (List.mem_singleton_self _) rfl

end Clauses

/-- What stands in front of the body of a clause: a request and its path, clauses that may stand
before this one, and the word that opens it. -/
inductive ClauseFront (clause : Clause) : List Token → Prop where
  | mk {request : Request} {opening raw tokens bodies word} : request ≠ .get →
      Path.normalize raw ≠ "" → ClausePhrases tokens bodies →
      (bodies.map ClauseBody.clause ++ [clause]).Sublist request.clauses →
      ClauseFront clause
        (⟨request.opener, opening⟩ :: ⟨.word, raw⟩ :: (tokens ++ [⟨clause.opener, word⟩]))

/-- What stands in front of the value of a filter: the filters before it, its field and its
operator. -/
inductive OperandFront (operator : Operator) : Nat → List Token → Prop where
  | mk {line tokens filters field kind literal} : ClauseFront .filter line →
      Led FilterPhrase (.keyword .andWord) tokens filters → OperatorPhrase kind operator →
      OperandFront operator filters.length (line ++ (tokens ++ [⟨.word, field⟩, ⟨kind, literal⟩]))

section Slots

variable {kind : TokenKind} {line front : List Token} {inner : Rule β}

theorem ClauseFront.slot {clause : Clause} (hfront : ClauseFront clause line)
    {view : ClauseBody → Option β} (h : Slot kind (body clause) front inner view)
    {view' : Operation → Option β}
    (hview : ∀ (request : Request) path bodies found others value,
      (bodies.map ClauseBody.clause ++ [clause]).Sublist request.clauses →
      view found = some value →
      view' (request.operation path (bodies ++ found :: others)) = some value) :
    Slot kind wholeLine (line ++ front) inner view' := by
  cases hfront with
  | @mk request opening raw tokens bodies word hget hraw hphrases hsub =>
      have hclauses := h.clauses hphrases (f := request.operation (Path.normalize raw))
        (fun found others value => hview request _ bodies found others value hsub)
        request.nodup_clauses hsub request.clauses none word
      refine hclauses.of_eq fun literal back => ?_
      simp only [List.cons_append, List.append_assoc, List.nil_append, wholeLine]
      exact operation_of_word hget rfl hraw _

theorem slot_filter {operator : Operator} {okind : TokenKind} (hkind : OperatorPhrase okind operator)
    {view : FilterValue → Option β} (h : Slot kind value front inner view)
    (hshape : ∀ found found', (view found).isSome → (view found').isSome →
      found.isArray = found'.isArray) (field literal : String) :
    Slot kind filter (⟨.word, field⟩ :: ⟨okind, literal⟩ :: front) inner
      fun found => view found.value := by
  have hchecked : Slot kind (value >>= fun found =>
      if operator.takesArray = found.isArray then pure (Filter.mk field operator found)
      else throw (.operatorMismatch operator found)) front inner
      fun found => (some found.value).bind view := by
    refine h.bind fun found ahead result rest hresult => ?_
    split at hresult
    · rename_i htakes
      obtain ⟨rfl, rfl⟩ := pure_eq_ok.mp hresult
      refine ⟨rfl, fun found' hfound hfound' => ⟨⟨field, operator, found'⟩, ?_⟩⟩
      rw [if_pos (htakes.trans (hshape found found' hfound hfound'))]
      rfl
    · exact absurd hresult throw_ne_ok
  refine hchecked.of_eq fun _ back => ?_
  refine (bind_of_ok (expect_eq_ok.mpr rfl)).trans ?_
  exact bind_of_ok (operator_eq_ok.mpr ⟨_, _, hkind, rfl⟩)

theorem OperandFront.slot {operator : Operator} {index : Nat}
    (hfront : OperandFront operator index line) {view : FilterValue → Option β}
    (h : Slot kind value front inner view)
    (hshape : ∀ found found', (view found).isSome → (view found').isSome →
      found.isArray = found'.isArray) :
    Slot kind wholeLine (line ++ front) inner
      fun operation => operation.filters[index]?.bind fun filter => view filter.value := by
  cases hfront with
  | @mk line tokens filters field okind literal hclause hled hkind =>
      have hfilter := slot_filter hkind h hshape field literal
      have hfilters : Slot kind (body .filter)
          (tokens ++ ⟨.word, field⟩ :: ⟨okind, literal⟩ :: front) inner fun found =>
            found.filters?.bind fun items =>
              items[filters.length]?.bind fun filter => view filter.value :=
        (hfilter.separated filter_advances reads_filter (by simp) hled).map fun found value hvalue => hvalue
      have hline : Slot kind wholeLine
          (line ++ (tokens ++ ⟨.word, field⟩ :: ⟨okind, literal⟩ :: front)) inner fun operation =>
            operation.filters[filters.length]?.bind fun filter => view filter.value := by
        refine hclause.slot hfilters fun request path bodies found others value hsub hvalue => ?_
        cases found with
        | filter found =>
            have hmem := Request.not_mem_of_sublist hsub
            rw [filters_operation path others hmem]
            exact hvalue
        | _ => cases hvalue
      simpa only [List.append_assoc, List.cons_append, List.nil_append] using hline

end Slots

section Closed

variable {line tokens : List Token}

theorem ClauseFront.exists_operation {clause : Clause} (hfront : ClauseFront clause line)
    {body : ClauseBody} (hclause : body.clause = clause)
    (hbody : ∀ word, ClausePhrase (⟨clause.opener, word⟩ :: tokens) body) :
    ∃ operation, OperationPhrase (line ++ tokens) operation := by
  cases hfront with
  | @mk request opening raw front bodies word hget hraw hphrases hsub =>
      have hwhole := hphrases.append (.cons (hbody word) .nil)
      have hline : ∃ operation, OperationPhrase (⟨request.opener, opening⟩ :: ⟨.word, raw⟩ ::
          (front ++ (⟨clause.opener, word⟩ :: tokens ++ []))) operation := by
        refine (exists_operation_iff hget).mpr ⟨hraw, bodies ++ [body], hwhole, ?_⟩
        rw [List.map_append, List.map_singleton, hclause]
        exact hsub
      simpa using hline

theorem OperandFront.exists_operation {operator : Operator} {index : Nat}
    (hfront : OperandFront operator index line) {value : FilterValue}
    (hvalue : ValuePhrase tokens value) (hfit : operator.takesArray = value.isArray) :
    ∃ operation, OperationPhrase (line ++ tokens) operation := by
  cases hfront with
  | @mk line front filters field kind literal hclause hled hkind =>
      have hlast : FilterPhrase (⟨.word, field⟩ :: ⟨kind, literal⟩ :: tokens)
          ⟨field, operator, value⟩ := .compare hkind hvalue hfit
      have hline := hclause.exists_operation rfl fun word =>
        @ClausePhrase.filter word _ _ (hled.separated hlast)
      simpa using hline

end Closed

end DocShell.Query
