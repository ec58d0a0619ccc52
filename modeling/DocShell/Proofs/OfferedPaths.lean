import DocShell.Completion.Cache
import DocShell.Proofs.Lossless
import DocShell.Proofs.PathLine
import DocShell.Proofs.WellFormed

namespace DocShell.Query

open DocShell.Text.Bytes

/-- A hyphen with a digit behind it is no word: it begins a number. -/
def BeginsNegative (cs : List Char) : Prop :=
  ∃ digit rest, cs = '-' :: digit :: rest ∧ digit.isDigit = true

theorem beginsWord_cons_iff {c : Char} {cs : List Char} (hc : isWordStart c = true) :
    beginsWord (c :: cs) = true ↔ ¬BeginsNegative (c :: cs) := by
  simp only [beginsWord, hc, Bool.true_and, Bool.not_eq_true', Bool.and_eq_false_imp, beq_iff_eq]
  constructor
  · rintro hword ⟨digit, rest, heq, hdigit⟩
    obtain ⟨rfl, rfl⟩ := List.cons.inj heq
    simp [hdigit] at hword
  · rintro hnegative rfl
    cases cs with
    | nil => rfl
    | cons d ds => exact Bool.eq_false_iff.mpr fun hd => hnegative ⟨d, ds, rfl, by simpa using hd⟩

/-- Where a text of word characters is no word, it begins with a keyword or with a number. -/
theorem kind_ne_word {text : List Char} (hchars : ∀ c ∈ text, isWordChar c = true)
    (h : ¬(beginsWord text = true ∧ Keyword.ofWord? text = none)) (first : Bool) (position : Nat) :
    ∀ lexeme ∈ (lexemesFrom first position text).head?, lexeme.kind ≠ .word := by
  by_cases hstart : beginsWord text = true
  · rw [lexemesFrom_word hstart hchars]
    rintro lexeme hmem hword
    cases hmem
    exact h ⟨hstart, ofWord_eq_word_iff.mp hword⟩
  · cases text with
    | nil => simp
    | cons c cs =>
        have hc := hchars c (List.mem_cons_self ..)
        have hnumber : c.isDigit = true ∨ c = '-' ∧ cs.head?.any Char.isDigit = true := by
          simp only [beginsWord, Bool.and_eq_true, Bool.not_eq_true', not_and,
            Bool.not_eq_false, beq_iff_eq] at hstart
          simp only [isWordChar, Bool.or_eq_true] at hc
          exact hc.symm.imp_right hstart
        rw [lexemesFrom_lexeme (not_isSeparator_of_isWordChar hc), frontLexeme,
          munch_number hnumber]
        rintro lexeme hmem hword
        cases hmem
        rcases number_kind cs with hkind | hkind <;> simp_all

theorem OperationPhrase.exists_word {request : Request} {opening : String} {back : List Token}
    {operation : Operation} (h : OperationPhrase (⟨request.opener, opening⟩ :: back) operation) :
    ∃ token rest, back = token :: rest ∧ token.kind = .word := by
  cases request <;> cases h <;> exact ⟨_, _, rfl, rfl⟩

inductive IsBare (path : String) : Request → Operation → Prop where
  | query : IsBare path .query (.query ⟨path, [], [], [], 0⟩)
  | count : IsBare path .count (.count path [])

end DocShell.Query

namespace DocShell.Completion

open DocShell.Query
open DocShell.Text.Ascii
open DocShell.Text.Bytes

/-- What is typed behind the word of a request is completed as a path if it is a word, and is not
completed if it is not. -/
theorem ofText_of_opens {request : Request} {front typed : String}
    (hfront : Opens request front.toList) (htyped : HasWordChars typed) :
    (IsField typed ∧ Context.ofText (front ++ typed).toList = .collection typed ∧
        replacedFrom (front ++ typed).toList = byteLength front.toList) ∨
      Context.ofText (front ++ typed).toList = .nothing := by
  by_cases hfield : beginsWord typed.toList = true ∧ Keyword.ofWord? typed.toList = none
  · have hpath : IsField typed := ⟨hfield.1, htyped, hfield.2⟩
    have hcontext := ofText_of_path (.request hfront) hpath
    rw [Request.ofKind?_opener] at hcontext
    exact .inl ⟨hpath, hcontext, replacedFrom_of_path (.request hfront) hpath⟩
  · have hhead := kind_ne_word htyped hfield false (byteLength front.toList)
    obtain ⟨opener, hopener, hlexemes⟩ := hfront.lexemes_append typed.toList
    have hrequest : Request.ofKind? opener.kind = some request := by
      rw [hopener, Request.ofKind?_opener]
    have hnot_word : opener.kind ≠ .word := by
      rw [hopener]
      cases request <;> simp [Request.opener]
    rw [← String.toList_append] at hlexemes
    right
    rw [Context.ofText, hlexemes]
    cases hahead : lexemesFrom false (byteLength front.toList) typed.toList with
    | nil => simp [Context.ofLexemes, Context.openWord?, hnot_word, hrequest, Context.path]
    | cons lexeme rest =>
        have hkind : lexeme.kind ≠ .word := hhead lexeme (by rw [hahead]; rfl)
        have hopen : Context.openWord? (byteLength (front ++ typed).toList) (lexeme :: rest) =
            none := Context.openWord?_of_not (fun h => hkind h.1) rest
        have hnone : Context.openWord? (byteLength (front ++ typed).toList)
            (opener :: lexeme :: rest) = none := rfl
        simp only [Context.ofLexemes, hnone, hrequest, Context.path, hopen, if_neg hkind]

structure IsCollectionName (name : String) : Prop where
  ne_empty : name ≠ ""
  chars : HasWordChars name
  no_slash : '/' ∉ name.toList

theorem hasWordChars_append {front back : String} :
    HasWordChars (front ++ back) ↔ HasWordChars front ∧ HasWordChars back := by
  simp only [HasWordChars, String.toList_append, List.forall_mem_append]

theorem hasWordChars_slash : HasWordChars "/" := List.all_eq_true.mp (by decide)

/-- What is offered for a path that is being typed ends in the name of the collection. -/
theorem exists_name_of_mem_replacements {names : List String} {typed : String} {offer : Offer}
    (htyped : HasWordChars typed) (hnames : ∀ name ∈ names, IsCollectionName name)
    (h : offer ∈ (Context.collection typed).replacements names) :
    ∃ parent name, offer.text = parent ++ name ∧ HasWordChars parent ∧ IsCollectionName name := by
  have hbare : ∀ offer ∈ (Context.collection typed).suggestions names, ∃ parent name,
      offer.text = parent ++ name ∧ HasWordChars parent ∧ IsCollectionName name := by
    intro offer h
    unfold Context.suggestions at h
    dsimp only at h
    split at h
    · cases h
    · rename_i base last hpartial
      obtain ⟨name, hname, rfl⟩ := List.mem_map.mp h
      have hcollection := hnames name (Names.mem_matching.mp hname).1
      have hnormalize := normalize_of_splitPartial? hpartial
      have hchars := hasWordChars_normalize htyped
      dsimp only
      split at hnormalize
      · exact ⟨"", name, by rw [if_pos ‹_›, String.empty_append], by simp [HasWordChars],
          hcollection⟩
      · rw [hnormalize, hasWordChars_append] at hchars
        exact ⟨base ++ "/", name, by rw [if_neg ‹_›], hchars.1, hcollection⟩
  unfold Context.replacements at h
  dsimp only at h
  split at h
  · obtain ⟨bare, hmem, rfl⟩ := List.mem_map.mp h
    obtain ⟨parent, name, htext, hparent, hname⟩ := hbare bare hmem
    refine ⟨"/" ++ parent, name, ?_, hasWordChars_append.mpr ⟨hasWordChars_slash, hparent⟩, hname⟩
    rw [htext, String.append_assoc]
  · exact hbare offer h

theorem normalize_append_ne_empty {parent name : String} (h : IsCollectionName name) :
    Path.normalize (parent ++ name) ≠ "" := by
  have hname : name.toList ≠ [] := fun hnil => h.ne_empty (String.toList_injective hnil)
  intro hempty
  rcases Path.normalize_cases (parent ++ name) with ⟨-, htext⟩ | ⟨-, htext⟩
  · rw [hempty, String.toList_append] at htext
    rcases List.append_eq_singleton_iff.mp htext with ⟨-, hslash⟩ | ⟨-, hnil⟩
    · exact h.no_slash (by simp [hslash])
    · exact hname hnil
  · rw [hempty] at htext
    have hnil := congrArg String.toList htext.symm
    rw [String.toList_append, String.toList_empty] at hnil
    exact hname (List.append_eq_nil_iff.mp hnil).2

/-- A path goes on from a word that is typed, so it begins with a word as well, or with a negative
number. -/
theorem isField_iff_of_startsWith {typed text : String} (htyped : IsField typed)
    (hchars : HasWordChars text) (h : startsWith text.toList typed.toList = true) :
    IsField text ↔ Keyword.ofWord? text.toList = none ∧ ¬BeginsNegative text.toList := by
  have hstart : ∃ c cs, text.toList = c :: cs ∧ isWordStart c = true := by
    have hbegins := htyped.begins
    generalize typed.toList = ds at hbegins h
    cases ds with
    | nil => cases hbegins
    | cons d ds =>
        simp only [beginsWord, Bool.and_eq_true] at hbegins
        cases hcs : text.toList with
        | nil =>
            obtain ⟨front, back, hnil, -, hsame⟩ := startsWith_iff.mp h
            rw [hcs] at hnil
            rw [(List.append_eq_nil_iff.mp hnil.symm).1] at hsame
            cases hsame
        | cons c cs =>
            rw [hcs] at h
            refine ⟨c, cs, rfl, ?_⟩
            rw [← isWordStart_toLower, toLower_eq_of_startsWith h, isWordStart_toLower]
            exact hbegins.1
  obtain ⟨c, cs, htext, hc⟩ := hstart
  constructor
  · intro hfield
    refine ⟨hfield.not_keyword, ?_⟩
    rw [htext, ← beginsWord_cons_iff hc, ← htext]
    exact hfield.begins
  · rintro ⟨hkeyword, hnegative⟩
    rw [htext, ← beginsWord_cons_iff hc, ← htext] at hnegative
    exact ⟨hnegative, hchars, hkeyword⟩

/-- A request for a path that is a word asks for the collection, and one for a text that is none is
refused. -/
theorem parse_of_opens {request : Request} (hrequest : request ≠ .get) {front text : String}
    (hfront : Opens request front.toList) (hchars : HasWordChars text)
    (hpath : Path.normalize text ≠ "") :
    (IsField text → ∃ operation, parse (front ++ text) = .ok operation ∧
        IsBare (Path.normalize text) request operation) ∧
      (¬IsField text → ∃ cause, parse (front ++ text) = .error cause) := by
  obtain ⟨opener, hopener, hlexemes⟩ := hfront.lexemes_append text.toList
  have htokens : tokensFrom true (front ++ text).toList =
      ⟨request.opener, opener.literal⟩ :: tokensFrom false text.toList := by
    rw [tokensFrom, String.toList_append, ← hopener]
    refine (congrArg (List.map Lexeme.token) hlexemes).trans ?_
    rw [List.map_cons, map_token_lexemesFrom]
    rfl
  constructor
  · intro hfield
    rw [(hfield.spells false).tokens] at htokens
    have hbare : ∃ operation, IsBare (Path.normalize text) request operation ∧
        OperationPhrase [⟨request.opener, opener.literal⟩, ⟨.word, text⟩] operation := by
      cases request with
      | get => exact absurd rfl hrequest
      | query => exact ⟨_, .query, .query hpath .absent .absent .absent .absent⟩
      | count => exact ⟨_, .count, .count hpath .absent⟩
    obtain ⟨operation, hoperation, hphrase⟩ := hbare
    rw [← htokens] at hphrase
    exact ⟨operation, parse_eq_ok_iff_tokensFrom.mpr hphrase, hoperation⟩
  · intro hfield
    cases hparse : parse (front ++ text) with
    | error cause => exact ⟨cause, rfl⟩
    | ok operation =>
        have hphrase := parse_eq_ok_iff_tokensFrom.mp hparse
        rw [htokens] at hphrase
        obtain ⟨token, rest, hahead, hkind⟩ := hphrase.exists_word
        have hnot : ¬(beginsWord text.toList = true ∧ Keyword.ofWord? text.toList = none) :=
          fun h => hfield ⟨h.1, hchars, h.2⟩
        obtain ⟨lexeme, lexemes, hcons, htoken, -⟩ := List.map_eq_cons_iff.mp hahead
        refine absurd ?_ (kind_ne_word hchars hnot false 0 lexeme (by rw [hcons]; rfl))
        rw [← hkind, ← htoken]
        rfl

/-- An offered collection can be asked for, unless its path is a keyword or begins with a negative
number: then the line with it is refused. -/
theorem parse_offered (names : String → List String)
    (hnames : ∀ base, ∀ name ∈ names base, IsCollectionName name) {request : Request}
    (hrequest : request ≠ .get) {front typed : String} (hfront : Opens request front.toList)
    (htyped : HasWordChars typed) {offer : Offer}
    (hoffer : offer ∈
      (complete names (front ++ typed).toList (byteLength (front ++ typed).toList)).2) :
    splitAt? (front ++ typed).toList
        (complete names (front ++ typed).toList (byteLength (front ++ typed).toList)).1 =
      some (front.toList, typed.toList) ∧
    (Keyword.ofWord? offer.text.toList = none ∧ ¬BeginsNegative offer.text.toList →
      ∃ operation, parse (front ++ offer.text) = .ok operation ∧
        IsBare (Path.normalize offer.text) request operation) ∧
    (¬(Keyword.ofWord? offer.text.toList = none ∧ ¬BeginsNegative offer.text.toList) →
      ∃ cause, parse (front ++ offer.text) = .error cause) := by
  simp only [complete, upTo_byteLength] at hoffer ⊢
  rcases ofText_of_opens hfront htyped with ⟨hfield, hcontext, hstart⟩ | hcontext
  · rw [hcontext] at hoffer
    have hbelow : ∀ name ∈ ((Context.collection typed).base?.map names).getD [],
        IsCollectionName name := by
      cases (Context.collection typed).base? with
      | none => simp
      | some base => exact hnames base
    obtain ⟨parent, name, htext, hparent, hname⟩ :=
      exists_name_of_mem_replacements htyped hbelow hoffer
    have hchars : HasWordChars offer.text := by
      rw [htext]
      exact hasWordChars_append.mpr ⟨hparent, hname.chars⟩
    have hpath : Path.normalize offer.text ≠ "" := by
      rw [htext]
      exact normalize_append_ne_empty hname
    rw [← isField_iff_of_startsWith hfield hchars
      (Context.startsWith_of_mem_replacements hoffer), hstart, String.toList_append]
    exact ⟨splitAt?_append _ _, parse_of_opens hrequest hfront hchars hpath⟩
  · rw [hcontext] at hoffer
    cases hoffer

theorem isCollectionName_iff {name : String} : IsCollectionName name ↔
    name ≠ "" ∧ name.toList.all (fun c => isWordChar c && c != '/') = true := by
  simp only [List.all_eq_true, Bool.and_eq_true, bne_iff_ne]
  constructor
  · rintro ⟨hne, hchars, hslash⟩
    exact ⟨hne, fun c hc => ⟨hchars c hc, ne_of_mem_of_not_mem hc hslash⟩⟩
  · rintro ⟨hne, hall⟩
    exact ⟨hne, fun c hc => (hall c hc).1, fun hmem => (hall '/' hmem).2 rfl⟩

theorem mem_of_mem_cached {path base name : String} {names : List String}
    (h : name ∈ (Cache.ofEntries [(path, names)]).cached base) : name ∈ names := by
  rw [Cache.cached, Cache.ofEntries] at h
  by_cases hbase : base = path
  · simpa [hbase] using h
  · simp [List.lookup_cons, List.lookup_nil, beq_false_of_ne hbase] at h

/-- A collection below a document can be counted, though its name alone is a keyword. -/
theorem parse_offered_below :
    ⟨"/users/1/order", "order"⟩ ∈ (complete (Cache.ofEntries [("users/1", ["order"])]).cached
      ("count \t" ++ "/users/1/O").toList 17).2 ∧
    ∃ operation, parse ("count \t" ++ "/users/1/order") = .ok operation ∧
      IsBare "users/1/order" .count operation := by
  have hoffer : ⟨"/users/1/order", "order"⟩ ∈
      (complete (Cache.ofEntries [("users/1", ["order"])]).cached
        ("count \t" ++ "/users/1/O").toList 17).2 := by decide +kernel
  have hnames : ∀ base, ∀ name ∈ (Cache.ofEntries [("users/1", ["order"])]).cached base,
      IsCollectionName name := by
    intro base name hmem
    rw [List.mem_singleton.mp (mem_of_mem_cached hmem)]
    exact isCollectionName_iff.mpr (by decide)
  have hfront : Opens .count "count \t".toList :=
    (.intro (by decide) (by decide) (List.all_eq_true.mp (by decide)) :
      Opens .count ("count".toList ++ " \t".toList))
  have htyped : HasWordChars "/users/1/O" := List.all_eq_true.mp (by decide)
  refine ⟨hoffer, (parse_offered _ hnames (by decide) hfront htyped hoffer).2.1 ⟨by decide, ?_⟩⟩
  rintro ⟨digit, rest, htext, -⟩
  cases htext

/-- At the root no slash need stand in front of a name, and there a keyword and a negative number
are offered that are not read as words. -/
theorem refused_offered :
    (∀ base, ∀ name ∈ (Cache.ofEntries [("", ["select", "-5a"])]).cached base,
      IsCollectionName name) ∧
    Opens .query "QUERY ".toList ∧ HasWordChars "s" ∧ HasWordChars "-" ∧
    (complete (Cache.ofEntries [("", ["select", "-5a"])]).cached ("QUERY " ++ "s").toList 7 =
        (6, [⟨"select", "select"⟩]) ∧
      parse ("QUERY " ++ "select") =
        .error (.unexpectedToken (.kind .word) ⟨.keyword .select, "select"⟩)) ∧
    complete (Cache.ofEntries [("", ["select", "-5a"])]).cached ("QUERY " ++ "-").toList 7 =
        (6, [⟨"-5a", "-5a"⟩]) ∧
      parse ("QUERY " ++ "-5a") = .error (.unexpectedToken (.kind .word) ⟨.int, "-5"⟩) := by
  have hopens : Opens .query ("QUERY".toList ++ " ".toList) :=
    .intro (by decide) (by decide) (List.all_eq_true.mp (by decide))
  refine ⟨?_, hopens, List.all_eq_true.mp (by decide), List.all_eq_true.mp (by decide),
    ⟨by decide +kernel, by decide +kernel⟩, by decide +kernel, by decide +kernel⟩
  intro base name hmem
  rcases List.mem_pair.mp (mem_of_mem_cached hmem) with rfl | rfl
  · exact isCollectionName_iff.mpr (by decide)
  · exact isCollectionName_iff.mpr (by decide)

end DocShell.Completion
