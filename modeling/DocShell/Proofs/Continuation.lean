import DocShell.Proofs.Rendering
import DocShell.Proofs.Walk

namespace DocShell.Query

variable {α : Type}

/-- The words that may follow an operation or a part of one. -/
inductive Connective where
  | clause (clause : Clause)
  | andWord
  | direction (direction : Direction)
  | byWord
deriving DecidableEq, Repr

namespace Connective

def text : Connective → String
  | clause .select => "SELECT"
  | clause .filter => "WHERE"
  | clause .order => "ORDER BY"
  | clause .limit => "LIMIT"
  | andWord => "AND"
  | direction .ascending => "ASC"
  | direction .descending => "DESC"
  | byWord => "BY"

def offer : Connective → Offer
  | clause c => c.offer
  | andWord => andOffer
  | direction .ascending => ascOffer
  | direction .descending => descOffer
  | byWord => byOffer

def kind : Connective → TokenKind
  | clause c => c.opener
  | andWord => .keyword .andWord
  | direction .ascending => .keyword .asc
  | direction .descending => .keyword .desc
  | byWord => .keyword .byWord

def keywords : Connective → List Keyword
  | clause .select => [.select]
  | clause .filter => [.whereWord]
  | clause .order => [.orderWord, .byWord]
  | clause .limit => [.limit]
  | andWord => [.andWord]
  | direction .ascending => [.asc]
  | direction .descending => [.desc]
  | byWord => [.byWord]

/-- What makes an operation of the parts before it. -/
def completion : Connective → String
  | clause .select => "a"
  | clause .filter => "a == 1"
  | clause .order => "a"
  | clause .limit => "1"
  | andWord => "a == 1"
  | direction _ => ""
  | byWord => "a"

theorem offer_text (c : Connective) : c.offer.text = c.text := by
  rcases c with ⟨⟨⟩⟩ | _ | ⟨⟨⟩⟩ | _ <;> rfl

theorem text_injective {c d : Connective} (h : c.text = d.text) : c = d := by
  rcases c with ⟨⟨⟩⟩ | _ | ⟨⟨⟩⟩ | _ <;> rcases d with ⟨⟨⟩⟩ | _ | ⟨⟨⟩⟩ | _ <;>
    first | rfl | exact absurd h (by decide)

theorem kind_injective {c d : Connective} (h : c.kind = d.kind) : c = d := by
  rcases c with ⟨⟨⟩⟩ | _ | ⟨⟨⟩⟩ | _ <;> rcases d with ⟨⟨⟩⟩ | _ | ⟨⟨⟩⟩ | _ <;>
    first | rfl | exact absurd h (by decide)

theorem not_isInner (c : Connective) : c.kind.isInner = false := by
  rcases c with ⟨⟨⟩⟩ | _ | ⟨⟨⟩⟩ | _ <;> rfl

theorem kind_ne_of_isInner (c : Connective) {kind : TokenKind} (h : kind.isInner = true) :
    c.kind ≠ kind := by
  rintro rfl
  rw [c.not_isInner] at h
  cases h

theorem kind_ne_opener (c : Connective) (request : Request) : c.kind ≠ request.opener := by
  rcases c with ⟨⟨⟩⟩ | _ | ⟨⟨⟩⟩ | _ <;> cases request <;> decide

theorem kind_ne_command (c : Connective) (command : Command) : c.kind ≠ .command command := by
  rcases c with ⟨⟨⟩⟩ | _ | ⟨⟨⟩⟩ | _ <;> simp [kind, Clause.opener]

end Connective

/-- Items are cut at a token either between two of them or inside one. If the items before the cut
are whole, the last one included, they are a phrase. -/
theorem Separated.split {phrase : List Token → α → Prop} {separator kind : TokenKind}
    {literal : String} {front back tokens : List Token} {values : List α}
    (h : Separated phrase separator tokens values)
    (htokens : tokens = front ++ ⟨kind, literal⟩ :: back) :
    ∃ last, last <:+ front ∧
      (∀ value, phrase last value → ∃ values, Separated phrase separator front values) ∧
      (kind = separator ∧ (∃ value, phrase last value) ∨
        ∃ more value, phrase (last ++ ⟨kind, literal⟩ :: more) value) := by
  induction h generalizing front with
  | one hvalue =>
      subst htokens
      exact ⟨front, List.suffix_rfl, fun value hvalue => ⟨_, .one hvalue⟩, .inr ⟨back, _, hvalue⟩⟩
  | @more first rest literal' value values hvalue hvalues ih =>
      rcases List.append_eq_append_iff.mp htokens with ⟨between, rfl, hrest⟩ | ⟨between, rfl, hback⟩
      · cases between with
        | nil =>
            simp only [List.nil_append, List.cons.injEq, Token.mk.injEq] at hrest
            refine ⟨first, by simp, fun value hvalue => ⟨_, by simpa using .one hvalue⟩, ?_⟩
            exact .inl ⟨hrest.1.1.symm, value, hvalue⟩
        | cons token between =>
            simp only [List.cons_append, List.cons.injEq] at hrest
            obtain ⟨last, hsuffix, hwhole, hcut⟩ := ih hrest.2
            refine ⟨last, ?_, fun value' hvalue' => ?_, hcut⟩
            · exact hsuffix.trans ⟨first ++ [token], by simp⟩
            · obtain ⟨values', hvalues'⟩ := hwhole value' hvalue'
              rw [← hrest.1]
              exact ⟨_, .more hvalue hvalues'⟩
      · cases between with
        | nil =>
            simp only [List.nil_append, List.cons.injEq, Token.mk.injEq] at hback
            rw [List.append_nil] at hvalue
            exact ⟨front, List.suffix_rfl, fun value hvalue => ⟨_, .one hvalue⟩,
              .inl ⟨hback.1.1, value, hvalue⟩⟩
        | cons token between =>
            simp only [List.cons_append, List.cons.injEq] at hback
            rw [← hback.1] at hvalue
            exact ⟨front, List.suffix_rfl, fun value hvalue => ⟨_, .one hvalue⟩,
              .inr ⟨between, value, hvalue⟩⟩

/-- A connective may come behind the clauses that `tokens` are, which a table allows. -/
inductive Continues (table : List Clause) (tokens : List Token) : Connective → Prop where
  | clause {bodies clause} : ClausePhrases tokens bodies →
      (bodies.map ClauseBody.clause ++ [clause]).Sublist table →
      Continues table tokens (.clause clause)
  | andWord {bodies} : ClausePhrases tokens bodies →
      (bodies.map ClauseBody.clause).Sublist table →
      bodies.getLast?.map ClauseBody.clause = some .filter → Continues table tokens .andWord
  | direction {bodies direction} : ClausePhrases tokens bodies →
      (bodies.map ClauseBody.clause).Sublist table →
      bodies.getLast?.map ClauseBody.clause = some .order → endsDirected tokens = false →
      Continues table tokens (.direction direction)
  | byWord {front literal bodies} : tokens = front ++ [⟨Clause.order.opener, literal⟩] →
      ClausePhrases front bodies →
      (bodies.map ClauseBody.clause ++ [Clause.order]).Sublist table →
      Continues table tokens .byWord

theorem last_cons {bodies : List ClauseBody} {last : Clause} (body : ClauseBody)
    (h : bodies.getLast?.map ClauseBody.clause = some last) :
    (body :: bodies).getLast?.map ClauseBody.clause = some last := by
  cases bodies with
  | nil => cases h
  | cons second bodies => rwa [List.getLast?_cons_cons]

theorem Continues.cons {table : List Clause} {first rest : List Token} {body : ClauseBody}
    {later : List Clause} {connective : Connective} (hfirst : ClausePhrase first body)
    (hsub : (body.clause :: later).Sublist table) (h : Continues later rest connective) :
    Continues table (first ++ rest) connective := by
  cases h with
  | clause hphrases hlater =>
      exact .clause (.cons hfirst hphrases) ((hlater.cons_cons body.clause).trans hsub)
  | andWord hphrases hlater hlast =>
      exact .andWord (.cons hfirst hphrases) ((hlater.cons_cons body.clause).trans hsub)
        (last_cons body hlast)
  | direction hphrases hlater hlast hdirected =>
      refine .direction (.cons hfirst hphrases) ((hlater.cons_cons body.clause).trans hsub)
        (last_cons body hlast) ?_
      have hne := hphrases.ne_nil (by
        rintro rfl
        cases hlast)
      rwa [endsDirected_append first hne]
  | byWord htokens hphrases hlater =>
      subst htokens
      rw [← List.append_assoc]
      exact .byWord rfl (.cons hfirst hphrases) ((hlater.cons_cons body.clause).trans hsub)

theorem Continues.mono {table table' : List Clause} {tokens : List Token}
    {connective : Connective} (h : Continues table tokens connective)
    (hsub : table.Sublist table') : Continues table' tokens connective := by
  cases h with
  | clause hphrases hlater => exact .clause hphrases (hlater.trans hsub)
  | andWord hphrases hlater hlast => exact .andWord hphrases (hlater.trans hsub) hlast
  | direction hphrases hlater hlast hdirected =>
      exact .direction hphrases (hlater.trans hsub) hlast hdirected
  | byWord htokens hphrases hlater => exact .byWord htokens hphrases (hlater.trans hsub)

theorem ClausePhrase.phrases {tokens : List Token} {body : ClauseBody}
    (h : ClausePhrase tokens body) : ClausePhrases tokens [body] := by
  have hphrases := ClausePhrases.cons h .nil
  rwa [List.append_nil] at hphrases

/-- A direction stands behind a field that has none. -/
theorem OrderingPhrase.split {front back : List Token} {literal : String} {value : Ordering}
    {connective : Connective}
    (h : OrderingPhrase (front ++ ⟨connective.kind, literal⟩ :: back) value) :
    ∃ field direction, front = [⟨.word, field⟩] ∧ connective = .direction direction := by
  have hword : connective.kind ≠ .word := connective.kind_ne_of_isInner rfl
  generalize htokens : front ++ ⟨connective.kind, literal⟩ :: back = tokens at h
  have hdirection : ∀ field token, front ++ ⟨connective.kind, literal⟩ :: back =
      [⟨.word, field⟩, token] → front = [⟨.word, field⟩] ∧ connective.kind = token.kind := by
    intro field token htokens
    rcases front with _ | ⟨first, _ | ⟨second, front⟩⟩
    · exact absurd (congrArg Token.kind (List.cons.inj htokens).1) hword
    · simp only [List.cons_append, List.nil_append, List.cons.injEq] at htokens
      exact ⟨by rw [htokens.1], congrArg Token.kind htokens.2.1⟩
    · simp at htokens
  cases h with
  | @plain field =>
      rcases front with _ | ⟨first, front⟩
      · exact absurd (congrArg Token.kind (List.cons.inj htokens).1) hword
      · simp at htokens
  | @ascending field =>
      obtain ⟨hfront, hkind⟩ := hdirection field _ htokens
      exact ⟨field, .ascending, hfront, Connective.kind_injective hkind⟩
  | @descending field =>
      obtain ⟨hfront, hkind⟩ := hdirection field _ htokens
      exact ⟨field, .descending, hfront, Connective.kind_injective hkind⟩

theorem continues_of_filters {front back : List Token} {opening literal : String}
    {filters : List Filter} {connective : Connective}
    (h : Separated FilterPhrase (.keyword .andWord)
      (front ++ ⟨connective.kind, literal⟩ :: back) filters) :
    Continues [.filter] (⟨.keyword .whereWord, opening⟩ :: front) connective := by
  have hmem := h.forall_mem (P := fun kind => kind.isInner = true ∨ kind = .keyword .andWord)
    (fun _ _ hfilter token hmem => .inl (hfilter.isInner token hmem)) (.inr rfl)
    ⟨connective.kind, literal⟩ (by simp)
  obtain rfl : connective = .andWord :=
    Connective.kind_injective (hmem.resolve_left (by simp [connective.not_isInner]))
  obtain ⟨last, -, hwhole, hcut⟩ := h.split rfl
  rcases hcut with ⟨-, value, hvalue⟩ | ⟨more, value, hvalue⟩
  · obtain ⟨values, hvalues⟩ := hwhole value hvalue
    exact .andWord (ClausePhrase.filter hvalues).phrases (List.Sublist.refl _) rfl
  · have hinner := hvalue.isInner ⟨Connective.andWord.kind, literal⟩ (by simp)
    cases hinner

theorem continues_of_orderings {front back : List Token} {opening second literal : String}
    {orderings : List Ordering} {connective : Connective}
    (h : Separated OrderingPhrase (.punctuation .comma)
      (front ++ ⟨connective.kind, literal⟩ :: back) orderings) :
    Continues [.order] (⟨.keyword .orderWord, opening⟩ :: ⟨.keyword .byWord, second⟩ :: front)
      connective := by
  obtain ⟨last, ⟨init, hinit⟩, hwhole, hcut⟩ := h.split rfl
  rcases hcut with ⟨hcomma, -⟩ | ⟨more, value, hvalue⟩
  · exact absurd hcomma (connective.kind_ne_of_isInner rfl)
  · obtain ⟨field, direction, rfl, rfl⟩ := hvalue.split
    obtain ⟨values, hvalues⟩ := hwhole _ .plain
    refine .direction (ClausePhrase.order hvalues).phrases (List.Sublist.refl _) rfl ?_
    rw [← hinit]
    exact endsDirected_append (_ :: _ :: init) (by simp)

theorem ClausePhrase.continues {front back : List Token} {literal : String} {body : ClauseBody}
    {connective : Connective}
    (h : ClausePhrase (front ++ ⟨connective.kind, literal⟩ :: back) body) (hne : front ≠ []) :
    Continues [body.clause] front connective := by
  obtain ⟨opener, front, rfl⟩ := List.exists_cons_of_ne_nil hne
  generalize htokens : (opener :: front) ++ ⟨connective.kind, literal⟩ :: back = tokens at h
  rw [List.cons_append] at htokens
  cases h with
  | select hfields =>
      obtain ⟨-, rfl⟩ := List.cons.inj htokens
      have hmem := hfields.forall_mem (P := fun kind => kind.isInner = true)
        (fun _ _ hfield => hfield.isInner) rfl ⟨connective.kind, literal⟩ (by simp)
      exact absurd rfl (connective.kind_ne_of_isInner hmem)
  | filter hfilters =>
      obtain ⟨rfl, rfl⟩ := List.cons.inj htokens
      exact continues_of_filters hfilters
  | order horderings =>
      obtain ⟨rfl, hrest⟩ := List.cons.inj htokens
      cases front with
      | nil =>
          obtain ⟨hby, -⟩ := List.cons.inj hrest
          obtain rfl : connective = .byWord :=
            Connective.kind_injective (congrArg Token.kind hby)
          exact .byWord (List.nil_append _).symm .nil (List.Sublist.refl _)
      | cons second front =>
          obtain ⟨rfl, rfl⟩ := List.cons.inj hrest
          exact continues_of_orderings horderings
  | limit =>
      obtain ⟨-, hrest⟩ := List.cons.inj htokens
      cases front with
      | nil =>
          obtain ⟨hint, -⟩ := List.cons.inj hrest
          exact absurd (congrArg Token.kind hint) (connective.kind_ne_of_isInner rfl)
      | cons second front => simp at hrest

/-- What stands in front of a connective of some clauses is itself made of clauses. -/
theorem ClausePhrases.continues {table : List Clause} {front back : List Token} {literal : String}
    {bodies : List ClauseBody} {connective : Connective}
    (h : ClausePhrases (front ++ ⟨connective.kind, literal⟩ :: back) bodies)
    (hsub : (bodies.map ClauseBody.clause).Sublist table) : Continues table front connective := by
  generalize htokens : front ++ ⟨connective.kind, literal⟩ :: back = tokens at h
  induction h generalizing front table with
  | nil => simp at htokens
  | @cons first rest body bodies hfirst hrest ih =>
      rw [List.map_cons] at hsub
      have hbody : [body.clause].Sublist table :=
        List.singleton_sublist.mpr (hsub.subset (List.mem_cons_self ..))
      -- The connective opens the rest, or it stands in the first clause, or in a later one.
      rcases List.append_eq_append_iff.mp htokens with ⟨between, rfl, hback⟩ | ⟨between, rfl, hback⟩
      · cases between with
        | nil =>
            have hback' : [] ++ ⟨connective.kind, literal⟩ :: back = rest := hback
            have hnil := Continues.cons hfirst hsub (ih (List.Sublist.refl _) hback')
            rwa [List.append_nil, List.append_nil] at hnil
        | cons token between =>
            rw [List.cons_append, List.cons.injEq] at hback
            rw [← hback.1] at hfirst
            cases front with
            | nil =>
                obtain ⟨opening, inner, hcons⟩ := hfirst.exists_cons
                rw [List.nil_append, List.cons.injEq] at hcons
                have hconnective : connective = .clause body.clause :=
                  Connective.kind_injective (congrArg Token.kind hcons.1)
                subst hconnective
                exact .clause .nil hbody
            | cons opener front => exact (hfirst.continues (by simp)).mono hbody
      · exact Continues.cons hfirst hsub (ih (List.Sublist.refl _) hback.symm)

theorem Separated.append {phrase : List Token → α → Prop} {separator : TokenKind}
    {front item : List Token} {values : List α} {value : α} (literal : String)
    (h : Separated phrase separator front values) (hvalue : phrase item value) :
    Separated phrase separator (front ++ ⟨separator, literal⟩ :: item) (values ++ [value]) := by
  induction h with
  | one hfirst => exact .more hfirst (.one hvalue)
  | more hfirst _ ih =>
      rw [List.append_assoc, List.cons_append]
      exact .more hfirst ih

theorem ClausePhrases.append {front back : List Token} {bodies bodies' : List ClauseBody}
    (hfront : ClausePhrases front bodies) (hback : ClausePhrases back bodies') :
    ClausePhrases (front ++ back) (bodies ++ bodies') := by
  induction hfront with
  | nil => exact hback
  | cons hfirst _ ih =>
      rw [List.append_assoc]
      exact .cons hfirst ih

theorem ClausePhrases.extend {tokens more : List Token} {bodies : List ClauseBody} {last : Clause}
    (h : ClausePhrases tokens bodies) (hlast : bodies.getLast?.map ClauseBody.clause = some last)
    (hmore : ∀ back body, back <:+ tokens → ClausePhrase back body → body.clause = last →
      ∃ body', body'.clause = last ∧ ClausePhrase (back ++ more) body') :
    ∃ bodies', ClausePhrases (tokens ++ more) bodies' ∧
      bodies'.map ClauseBody.clause = bodies.map ClauseBody.clause := by
  induction h with
  | nil => cases hlast
  | @cons first rest body bodies hfirst hrest ih =>
      cases bodies with
      | nil =>
          cases hrest
          have hclause : body.clause = last := by simpa using hlast
          obtain ⟨body', rfl, hbody'⟩ := hmore first body (by simp) hfirst hclause
          refine ⟨[body'], ?_, by simp [hclause]⟩
          rw [List.append_nil]
          exact hbody'.phrases
      | cons second bodies =>
          rw [List.getLast?_cons_cons] at hlast
          obtain ⟨bodies', hphrases, hsame⟩ := ih hlast fun back body hback =>
            hmore back body (hback.trans (List.suffix_append ..))
          refine ⟨body :: bodies', ?_, congrArg (body.clause :: ·) hsame⟩
          rw [List.append_assoc]
          exact .cons hfirst hphrases

theorem orderings_direct {tokens : List Token} {orderings : List Ordering} {token : Token}
    (h : Separated OrderingPhrase (.punctuation .comma) tokens orderings)
    (hdirected : endsDirected tokens = false)
    (htoken : token.kind = .keyword .asc ∨ token.kind = .keyword .desc) :
    ∃ orderings',
      Separated OrderingPhrase (.punctuation .comma) (tokens ++ [token]) orderings' := by
  induction h with
  | one hordering =>
      cases hordering with
      | @plain field =>
          obtain ⟨kind, literal⟩ := token
          rcases htoken with rfl | rfl
          · exact ⟨_, .one .ascending⟩
          · exact ⟨_, .one .descending⟩
      | ascending => cases hdirected
      | descending => cases hdirected
  | @more front rest literal value values hvalue hrest ih =>
      rw [endsDirected_append _ (by simp), endsDirected_cons (by simp) (by simp)] at hdirected
      obtain ⟨orderings', horderings⟩ := ih hdirected
      rw [List.append_assoc, List.cons_append]
      exact ⟨_, .more hvalue horderings⟩

namespace Connective

def tokens (connective : Connective) : List Token := connective.keywords.map Token.ofKeyword

theorem exists_tokens_eq (connective : Connective) :
    ∃ literal back, connective.tokens = ⟨connective.kind, literal⟩ :: back := by
  rcases connective with ⟨⟨⟩⟩ | _ | ⟨⟨⟩⟩ | _ <;> exact ⟨_, _, rfl⟩

def completionTokens (connective : Connective) : List Token :=
  tokensFrom false connective.completion.toList

theorem completionTokens_eq (connective : Connective) :
    connective.completionTokens =
      match connective with
      | clause .select | clause .order | byWord => [⟨.word, "a"⟩]
      | clause .filter | andWord => [⟨.word, "a"⟩, ⟨.comparison .equal, "=="⟩, ⟨.int, "1"⟩]
      | clause .limit => [⟨.int, "1"⟩]
      | direction _ => [] := by
  rcases connective with ⟨⟨⟩⟩ | _ | ⟨⟨⟩⟩ | _ <;> decide +kernel

def condition : Filter := ⟨"a", .compare .equal, .scalar (.int 1)⟩

theorem filterPhrase_completion : FilterPhrase andWord.completionTokens condition := by
  rw [completionTokens_eq]
  exact .compare .compare (.scalar (.int (by decide) (by decide) (by decide))) rfl

theorem clausePhrase_completion (opened : Clause) :
    ∃ body : ClauseBody, body.clause = opened ∧
      ClausePhrase ((clause opened).tokens ++ (clause opened).completionTokens) body := by
  cases opened with
  | select =>
      refine ⟨.select ["a"], rfl, ?_⟩
      rw [completionTokens_eq]
      exact .select (.one .word)
  | filter => exact ⟨.filter [_], rfl, .filter (.one filterPhrase_completion)⟩
  | order =>
      refine ⟨.order [⟨"a", .ascending⟩], rfl, ?_⟩
      rw [completionTokens_eq]
      exact .order (.one .plain)
  | limit =>
      refine ⟨.limit 1, rfl, ?_⟩
      rw [completionTokens_eq]
      exact .limit (by decide) (by decide)

theorem direction_tokens (given : Direction) :
    ∃ token, (direction given).tokens ++ (direction given).completionTokens = [token] ∧
      (token.kind = .keyword .asc ∨ token.kind = .keyword .desc) := by
  rw [completionTokens_eq]
  cases given with
  | ascending => exact ⟨_, rfl, .inl rfl⟩
  | descending => exact ⟨_, rfl, .inr rfl⟩

end Connective

theorem ClausePhrase.andWord_completion {tokens : List Token} {body : ClauseBody}
    (h : ClausePhrase tokens body) (hclause : body.clause = .filter) :
    ∃ body', body'.clause = Clause.filter ∧ ClausePhrase
      (tokens ++ (Connective.andWord.tokens ++ Connective.andWord.completionTokens)) body' := by
  cases h with
  | filter hfilters =>
      have hmore := hfilters.append Keyword.andWord.name Connective.filterPhrase_completion
      exact ⟨_, rfl, .filter hmore⟩
  | select => cases hclause
  | order => cases hclause
  | limit => cases hclause

theorem ClausePhrase.direction_completion {tokens : List Token} {body : ClauseBody}
    (h : ClausePhrase tokens body) (hclause : body.clause = .order)
    (hdirected : endsDirected tokens = false) (direction : Direction) :
    ∃ body', body'.clause = Clause.order ∧ ClausePhrase (tokens ++
      ((Connective.direction direction).tokens ++
        (Connective.direction direction).completionTokens)) body' := by
  cases h with
  | order horderings =>
      rw [endsDirected_cons (by simp) (by simp), endsDirected_cons (by simp) (by simp)]
        at hdirected
      obtain ⟨token, htokens, hkind⟩ := Connective.direction_tokens direction
      obtain ⟨orderings', horderings'⟩ := orderings_direct horderings hdirected hkind
      rw [htokens]
      exact ⟨_, rfl, .order horderings'⟩
  | select => cases hclause
  | filter => cases hclause
  | limit => cases hclause

/-- Where a connective may come, it can be followed up to an operation. -/
theorem Continues.completes {table : List Clause} {tokens : List Token} {connective : Connective}
    (h : Continues table tokens connective) :
    ∃ bodies, ClausePhrases (tokens ++ (connective.tokens ++ connective.completionTokens)) bodies ∧
      (bodies.map ClauseBody.clause).Sublist table := by
  cases h with
  | @clause bodies opened hphrases hsub =>
      obtain ⟨body, rfl, hbody⟩ := Connective.clausePhrase_completion opened
      refine ⟨bodies ++ [body], hphrases.append hbody.phrases, ?_⟩
      rwa [List.map_append]
  | andWord hphrases hsub hlast =>
      obtain ⟨bodies', hphrases', hsame⟩ := hphrases.extend hlast fun _ _ _ hback hclause =>
        hback.andWord_completion hclause
      exact ⟨bodies', hphrases', hsame ▸ hsub⟩
  | @direction bodies direction hphrases hsub hlast hdirected =>
      have hmore : ∀ back body, back <:+ tokens → ClausePhrase back body → body.clause = .order →
          ∃ body', body'.clause = Clause.order ∧ ClausePhrase (back ++
            ((Connective.direction direction).tokens ++
              (Connective.direction direction).completionTokens)) body' := by
        rintro back body ⟨front, rfl⟩ hback hclause
        have hne : back ≠ [] := by
          obtain ⟨opening, inner, rfl⟩ := hback.exists_cons
          simp
        rw [endsDirected_append front hne] at hdirected
        exact hback.direction_completion hclause hdirected direction
      obtain ⟨bodies', hphrases', hsame⟩ := hphrases.extend hlast hmore
      exact ⟨bodies', hphrases', hsame ▸ hsub⟩
  | @byWord front literal bodies htokens hphrases hsub =>
      subst htokens
      have horder : ClausePhrase (⟨Clause.order.opener, literal⟩ ::
          (Connective.byWord.tokens ++ Connective.byWord.completionTokens))
          (.order [⟨"a", .ascending⟩]) := by
        rw [Connective.completionTokens_eq]
        exact .order (.one .plain)
      refine ⟨bodies ++ [.order [⟨"a", .ascending⟩]], ?_, by rwa [List.map_append]⟩
      rw [List.append_assoc]
      exact hphrases.append horder.phrases

/-- A connective in an operation stands behind a request with a path and some of its clauses. -/
theorem OperationPhrase.split {front back : List Token} {literal : String}
    {connective : Connective} {operation : Operation}
    (h : OperationPhrase (front ++ ⟨connective.kind, literal⟩ :: back) operation) :
    ∃ (request : Request) (opening raw : String) (middle : List Token), request ≠ .get ∧
      front = ⟨request.opener, opening⟩ :: ⟨.word, raw⟩ :: middle ∧ Path.normalize raw ≠ "" ∧
      Continues request.clauses middle connective := by
  have hword : connective.kind ≠ .word := connective.kind_ne_of_isInner rfl
  have hcommand := connective.kind_ne_command
  have hclauses : ∀ (request : Request) (opening raw : String) (rest : List Token),
      request ≠ .get → front ++ ⟨connective.kind, literal⟩ :: back =
        ⟨request.opener, opening⟩ :: ⟨.word, raw⟩ :: rest →
      ∃ middle, front = ⟨request.opener, opening⟩ :: ⟨.word, raw⟩ :: middle ∧
        Path.normalize raw ≠ "" ∧ Continues request.clauses middle connective := by
    intro request opening raw rest hrequest htokens
    rcases front with _ | ⟨first, _ | ⟨second, middle⟩⟩
    · exact absurd (congrArg Token.kind (List.cons.inj htokens).1)
        (connective.kind_ne_opener request)
    · obtain ⟨-, htokens⟩ := List.cons.inj htokens
      exact absurd (congrArg Token.kind (List.cons.inj htokens).1) hword
    · obtain ⟨rfl, htokens'⟩ := List.cons.inj htokens
      obtain ⟨rfl, -⟩ := List.cons.inj htokens'
      obtain ⟨hraw, bodies, hphrases, hsub⟩ := (exists_operation_iff hrequest).mp ⟨_, h⟩
      exact ⟨middle, rfl, hraw, hphrases.continues hsub⟩
  have hmem : ∀ tokens : List Token, front ++ ⟨connective.kind, literal⟩ :: back = tokens →
      ⟨connective.kind, literal⟩ ∈ tokens := by
    rintro tokens rfl
    simp
  generalize htokens : front ++ ⟨connective.kind, literal⟩ :: back = tokens at h
  cases h with
  | query =>
      obtain ⟨middle, hmiddle⟩ := hclauses .query _ _ _ (by simp) htokens
      exact ⟨.query, _, _, middle, by simp, hmiddle⟩
  | count =>
      obtain ⟨middle, hmiddle⟩ := hclauses .count _ _ _ (by simp) htokens
      exact ⟨.count, _, _, middle, by simp, hmiddle⟩
  | get =>
      have hfound := hmem _ htokens
      have hget : connective.kind ≠ .keyword .get := connective.kind_ne_opener .get
      simp [hword, hget] at hfound
  | root =>
      have hfound := hmem _ htokens
      simp [hcommand] at hfound
  | base =>
      have hfound := hmem _ htokens
      simp [hcommand, hword] at hfound
  | pager =>
      have hfound := hmem _ htokens
      simp [hcommand, hword] at hfound

end DocShell.Query
