import DocShell.Toml.Printer

namespace DocShell.Toml

def IsQuote (c : Char) : Prop := c = '"' ∨ c = '\''

/-- How one character stands between quotes: for itself, or as an escape. What follows the backslash
of an escape joins no lines. -/
inductive Written (quote : Char) (multiline : Bool) (c : Char) : List Char → Prop where
  | plain : isControl c = false → c ≠ quote → (quote = '"' → c ≠ '\\') →
      Written quote multiline c [c]
  | lineBreak : multiline = true → c = '\n' → Written quote multiline c ['\n']
  | escape {mark code} : quote = '"' → isSpace mark = false → mark ≠ '\n' → mark ≠ '\r' →
      (∀ rest, escape? (mark :: (code ++ rest)) = some (c, rest)) →
      Written quote multiline c ('\\' :: mark :: code)

/-- How a text stands between quotes. Of a run of quotes, `maxRun` may stand for themselves, and
`run` of them have just done so. -/
inductive Body (quote : Char) (multiline : Bool) (maxRun : Nat) :
    Nat → List Char → List Char → Prop where
  | nil (run) : Body quote multiline maxRun run [] []
  | quote {run cs body} : run < maxRun → Body quote multiline maxRun (run + 1) cs body →
      Body quote multiline maxRun run (quote :: cs) (quote :: body)
  | char (run) {c cs front body} : Written quote multiline c front →
      Body quote multiline maxRun 0 cs body →
      Body quote multiline maxRun run (c :: cs) (front ++ body)

section Writing

theorem escape?_code {c : Char} (h : needsCode c = true) (rest : List Char) :
    escape? ((codeOf c).drop 1 ++ rest) = some (c, rest) := by
  have hall : ∀ n : Fin 0x80, DocShell.Json.hexQuad? '0' '0'
      (DocShell.Json.hexDigit (n.val / 16 % 16)).toUpper
      (DocShell.Json.hexDigit (n.val % 16)).toUpper = some n.val := by decide
  have hcode : c.toNat < 0x80 := by
    simp only [needsCode, isControl, Bool.and_eq_true, Bool.or_eq_true, decide_eq_true_eq,
      beq_iff_eq] at h
    omega
  have hfound := hall ⟨c.toNat, hcode⟩
  have hchar : charOf? c.toNat = some c := by
    rw [charOf?, if_pos (.inl (by omega)), Char.ofNat_toNat]
  simp only [codeOf, List.drop_succ_cons, List.drop_zero, List.cons_append, List.nil_append,
    escape?, hfound, Option.bind_eq_bind, Option.bind_some, hchar]
  rfl

theorem isControl_of_needsCode {c : Char} (h : needsCode c = false) (hbreak : c ≠ '\n') :
    isControl c = false := by
  rw [needsCode, Bool.and_eq_false_iff] at h
  refine h.resolve_right ?_
  simpa using hbreak

theorem escaped_cons {c : Char} (hc : c ≠ '"') (multiline : Bool) (maxRun run : Nat)
    (cs : List Char) : ∃ front, Written '"' multiline c front ∧
      escaped multiline maxRun run (c :: cs) = front ++ escaped multiline maxRun 0 cs := by
  refine ⟨_, ?_, if_neg hc⟩
  split
  case h_3 =>
    cases multiline with
    | true => exact .lineBreak rfl rfl
    | false => exact .escape rfl rfl (by decide) (by decide) fun _ => rfl
  case h_7 hbreak _ _ hslash =>
    split
    · rename_i hcode
      exact .escape rfl rfl (by decide) (by decide) fun rest => escape?_code hcode rest
    · rename_i hcode
      exact .plain (isControl_of_needsCode (Bool.eq_false_iff.mpr hcode) hbreak) hc fun _ => hslash
  all_goals exact .escape rfl rfl (by decide) (by decide) fun _ => rfl

theorem body_escaped (multiline : Bool) (maxRun run : Nat) (cs : List Char) :
    Body '"' multiline maxRun run cs (escaped multiline maxRun run cs) := by
  induction cs generalizing run with
  | nil => exact .nil run
  | cons c cs ih =>
      by_cases hc : c = '"'
      · subst hc
        have hescape : Written '"' multiline '"' ['\\', '"'] :=
          .escape rfl rfl (by decide) (by decide) fun _ => rfl
        have heq : escaped multiline maxRun run ('"' :: cs) =
            if run < maxRun then '"' :: escaped multiline maxRun (run + 1) cs
            else '\\' :: '"' :: escaped multiline maxRun 0 cs := if_pos rfl
        rw [heq]
        split
        · rename_i hrun
          exact .quote hrun (ih (run + 1))
        · exact .char run hescape (ih 0)
      · obtain ⟨front, hfront, heq⟩ := escaped_cons hc multiline maxRun run cs
        rw [heq]
        exact .char run hfront (ih 0)

theorem longestRun_cons_self (c : Char) (cs : List Char) : longestRun c (c :: cs) =
    (max (longestRun c cs).1 ((longestRun c cs).2 + 1), (longestRun c cs).2 + 1) := if_pos rfl

theorem longestRun_cons_of_ne {c d : Char} (h : d ≠ c) (cs : List Char) :
    longestRun c (d :: cs) = ((longestRun c cs).1, 0) := if_neg h

theorem front_le_longestRun (c : Char) (cs : List Char) :
    (longestRun c cs).2 ≤ (longestRun c cs).1 := by
  cases cs with
  | nil => exact Nat.le_refl 0
  | cons d cs =>
      by_cases h : d = c
      · subst h
        rw [longestRun_cons_self]
        exact Nat.le_max_right _ _
      · rw [longestRun_cons_of_ne h]
        exact Nat.zero_le _

/-- A text in which no run of apostrophes is too long needs no escapes between apostrophes. -/
theorem body_literal {multiline : Bool} {maxRun run : Nat} {cs : List Char}
    (hcodes : ∀ c ∈ cs, needsCode c = false) (hbreaks : multiline = true ∨ '\n' ∉ cs)
    (hlongest : (longestRun '\'' cs).1 ≤ maxRun) (hfront : run + (longestRun '\'' cs).2 ≤ maxRun) :
    Body '\'' multiline maxRun run cs cs := by
  induction cs generalizing run with
  | nil => exact .nil run
  | cons c cs ih =>
      obtain ⟨hcode, htail⟩ := List.forall_mem_cons.mp hcodes
      have hrest : multiline = true ∨ '\n' ∉ cs :=
        hbreaks.imp_right fun h hmem => h (List.mem_cons_of_mem c hmem)
      by_cases hc : c = '\''
      · subst hc
        rw [longestRun_cons_self] at hlongest hfront
        have hnext := Nat.le_trans (Nat.le_max_left _ _) hlongest
        exact .quote (by omega) (ih htail hrest hnext (by omega))
      · rw [longestRun_cons_of_ne hc] at hlongest hfront
        have hnext : 0 + (longestRun '\'' cs).2 ≤ maxRun := by
          rw [Nat.zero_add]
          exact Nat.le_trans (front_le_longestRun '\'' cs) hlongest
        have hbody : Body '\'' multiline maxRun 0 cs cs := ih htail hrest hlongest hnext
        by_cases hbreak : c = '\n'
        · subst hbreak
          refine .char run (.lineBreak ?_ rfl) hbody
          exact hbreaks.resolve_right fun h => h List.mem_cons_self
        · exact .char run (.plain (isControl_of_needsCode hcode hbreak) hc nofun) hbody

end Writing

section OneLine

theorem basic?_written {c : Char} {front : List Char} (h : Written '"' false c front)
    (rest : List Char) :
    basic? (front ++ rest) = (basic? rest).map fun found => (c :: found.1, found.2) := by
  cases h with
  | plain hcontrol hquote hslash =>
      rw [List.singleton_append, basic?, if_neg hquote, if_neg (hslash rfl), hcontrol]
      rfl
  | lineBreak hmultiline => cases hmultiline
  | @escape mark code _ _ _ _ hescape =>
      rw [List.cons_append, List.cons_append, basic?, if_neg (by decide), if_pos rfl]
      split
      · rename_i hnone
        rw [hescape rest] at hnone
        cases hnone
      · rename_i found rest' hfound
        rw [hescape rest] at hfound
        cases hfound
        rfl

theorem basic?_body {run : Nat} {cs body : List Char} (h : Body '"' false 0 run cs body)
    (rest : List Char) : basic? (body ++ '"' :: rest) = some (cs, rest) := by
  induction h with
  | nil => rw [List.nil_append, basic?, if_pos rfl]
  | quote hrun => exact absurd hrun (Nat.not_lt_zero _)
  | char run hfront _ ih =>
      rw [List.append_assoc, basic?_written hfront, ih, Option.map_some]

theorem literal?_body {run : Nat} {cs body : List Char} (h : Body '\'' false 0 run cs body)
    (rest : List Char) : literal? (body ++ '\'' :: rest) = some (cs, rest) := by
  induction h with
  | nil => rw [List.nil_append, literal?, if_pos rfl]
  | quote hrun => exact absurd hrun (Nat.not_lt_zero _)
  | char run hfront _ ih =>
      cases hfront with
      | plain hcontrol hquote =>
          rw [List.append_assoc, List.singleton_append, literal?, if_neg hquote, hcontrol, ih]
          rfl
      | lineBreak hmultiline => cases hmultiline
      | escape hquote => cases hquote

end OneLine

section ManyLines

variable {quote : Char}

theorem closing?_run {rest : List Char} (hrest : rest.head? ≠ some quote) {run : Nat}
    (hrun : run ≤ 5) : closing? quote (List.replicate run quote ++ rest) =
      if run < 3 then none else some (List.replicate (run - 3) quote, rest) := by
  have htake : (List.replicate run quote ++ rest).takeWhile (· == quote) =
      List.replicate run quote := by
    rw [List.takeWhile_append_of_pos (by simp)]
    cases rest with
    | nil => simp
    | cons c rest =>
        have hc : c ≠ quote := fun h => hrest (congrArg some h)
        rw [List.takeWhile_cons_of_neg (by simpa using hc), List.append_nil]
  rw [closing?, htake, List.take_of_length_le (by simpa using hrun), List.length_replicate,
    List.drop_replicate, List.drop_left' List.length_replicate]

theorem multiline?_cons {c : Char} {tail : List Char} (hclosing : closing? quote (c :: tail) = none)
    (hbreak : lineBreak? (c :: tail) = none) (hslash : quote = '"' → c ≠ '\\')
    (hcontrol : isControl c = false) : multiline? quote (c :: tail) =
      (multiline? quote tail).map fun found => (c :: found.1, found.2) := by
  rw [multiline?, hclosing]
  dsimp only
  split
  · rename_i written rest hfound
    rw [hbreak] at hfound
    cases hfound
  · rw [if_neg fun h => hslash h.1 h.2, hcontrol]
    rfl

theorem multiline?_lineBreak {tail : List Char}
    (hclosing : closing? quote ('\n' :: tail) = none) : multiline? quote ('\n' :: tail) =
      (multiline? quote tail).map fun found => ('\n' :: found.1, found.2) := by
  rw [multiline?, hclosing]
  dsimp only
  split
  · rename_i written rest hfound
    cases hfound
    rfl
  · rename_i hnone
    cases hnone

theorem multiline?_escape {c mark : Char} {cs rest : List Char}
    (hclosing : closing? '"' ('\\' :: mark :: cs) = none) (hspace : isSpace mark = false)
    (hbreak : lineBreak? (mark :: cs) = none) (hescape : escape? (mark :: cs) = some (c, rest)) :
    multiline? '"' ('\\' :: mark :: cs) =
      (multiline? '"' rest).map fun found => (c :: found.1, found.2) := by
  have hcontinued : continued? (mark :: cs) = none := by
    rw [continued?, List.dropWhile_cons_of_neg (by rw [hspace]; decide), hbreak]
    rfl
  rw [multiline?, hclosing]
  dsimp only
  split
  · rename_i hfound
    cases hfound
  · rw [if_pos ⟨rfl, rfl⟩]
    split
    · rename_i hfound
      rw [hcontinued] at hfound
      cases hfound
    · split
      · rename_i hnone
        rw [hescape] at hnone
        cases hnone
      · rename_i found rest' hfound
        rw [hescape] at hfound
        cases hfound
        rfl

theorem lineBreak?_cons {c : Char} (hbreak : c ≠ '\n') (hreturn : c ≠ '\r') (cs : List Char) :
    lineBreak? (c :: cs) = none := by
  unfold lineBreak?
  split
  · rename_i heq
    exact absurd (List.cons.inj heq).1 hbreak
  · rename_i heq
    exact absurd (List.cons.inj heq).1 hreturn
  · rfl

theorem ne_of_isControl {c : Char} (h : isControl c = false) : c ≠ '\n' ∧ c ≠ '\r' := by
  constructor
  · rintro rfl
    cases h
  · rintro rfl
    cases h

theorem Written.head_ne (hquote : IsQuote quote) {multiline : Bool} {c : Char} {front : List Char}
    (h : Written quote multiline c front) (rest : List Char) :
    (front ++ rest).head? ≠ some quote := by
  cases h with
  | plain _ hc => exact fun heq => hc (Option.some.inj heq)
  | lineBreak => rcases hquote with rfl | rfl <;> exact fun heq => nomatch heq
  | escape hq =>
      subst hq
      exact fun heq => nomatch heq

theorem multiline?_written (hquote : IsQuote quote) {c : Char} {front : List Char}
    (h : Written quote true c front) (rest : List Char) : multiline? quote (front ++ rest) =
      (multiline? quote rest).map fun found => (c :: found.1, found.2) := by
  have hclosing : closing? quote (front ++ rest) = none :=
    closing?_run (h.head_ne hquote rest) (Nat.zero_le 5)
  cases h with
  | plain hcontrol _ hslash =>
      obtain ⟨hbreak, hreturn⟩ := ne_of_isControl hcontrol
      exact multiline?_cons hclosing (lineBreak?_cons hbreak hreturn rest) hslash hcontrol
  | lineBreak _ hc =>
      subst hc
      exact multiline?_lineBreak hclosing
  | escape hq hspace hbreak hreturn hescape =>
      subst hq
      exact multiline?_escape hclosing hspace (lineBreak?_cons hbreak hreturn _) (hescape rest)

theorem multiline?_quotes (hquote : IsQuote quote) {run : Nat} (hrun : run < 3) {rest : List Char}
    (hrest : rest.head? ≠ some quote) : multiline? quote (List.replicate run quote ++ rest) =
      (multiline? quote rest).map fun found => (List.replicate run quote ++ found.1, found.2) := by
  induction run with
  | zero =>
      have hid : (fun found : List Char × List Char => ([] ++ found.1, found.2)) = id := rfl
      rw [List.replicate_zero, List.nil_append, hid, Option.map_id_fun]
      rfl
  | succ run ih =>
      have hclosing := closing?_run hrest (by omega : run + 1 ≤ 5)
      rw [if_pos hrun] at hclosing
      rw [List.replicate_succ, List.cons_append] at hclosing ⊢
      have hcontrol : isControl quote = false := by
        rcases hquote with rfl | rfl <;> rfl
      have hslash : quote = '"' → quote ≠ '\\' := by
        rintro rfl
        decide
      obtain ⟨hbreak, hreturn⟩ := ne_of_isControl hcontrol
      rw [multiline?_cons hclosing (lineBreak?_cons hbreak hreturn _) hslash hcontrol,
        ih (by omega), Option.map_map]
      rfl

/-- Quotes that come last in a text stand right before those that close the string. -/
theorem multiline?_body (hquote : IsQuote quote) {run : Nat} {cs body rest : List Char}
    (hrest : rest.head? ≠ some quote) (h : Body quote true 2 run cs body) (hrun : run ≤ 2) :
    multiline? quote (List.replicate run quote ++ (body ++ (List.replicate 3 quote ++ rest))) =
      some (List.replicate run quote ++ cs, rest) := by
  -- only the character behind a run says whether it closes the string, so the run is put back
  induction h with
  | nil run =>
      have hclosing := closing?_run hrest (by omega : run + 3 ≤ 5)
      rw [if_neg (by omega), Nat.add_sub_cancel] at hclosing
      rw [List.nil_append, ← List.append_assoc, List.replicate_append_replicate]
      have hcons : List.replicate (run + 3) quote ++ rest =
          quote :: (List.replicate (run + 2) quote ++ rest) := rfl
      rw [hcons] at hclosing ⊢
      rw [multiline?, hclosing, List.append_nil]
  | @quote run cs body hlt _ ih =>
      have hmove : ∀ cs : List Char, List.replicate run quote ++ quote :: cs =
          List.replicate (run + 1) quote ++ cs := by
        intro cs
        rw [List.replicate_succ', List.append_assoc, List.singleton_append]
      rw [List.cons_append, hmove, hmove, ih (by omega)]
  | char run hfront _ ih =>
      have hbody := ih (Nat.zero_le 2)
      rw [List.replicate_zero, List.nil_append, List.nil_append] at hbody
      rw [List.append_assoc, multiline?_quotes hquote (by omega) (hfront.head_ne hquote _),
        multiline?_written hquote hfront, hbody]
      rfl

theorem Body.lineBreak? (hquote : IsQuote quote) {multiline : Bool} {maxRun run : Nat}
    {cs body : List Char} (h : Body quote multiline maxRun run cs body) (hcs : '\n' ∉ cs)
    (rest : List Char) : lineBreak? (body ++ quote :: rest) = none := by
  have hopens : ∀ rest, Toml.lineBreak? (quote :: rest) = none := by
    rcases hquote with rfl | rfl <;> exact fun _ => rfl
  cases h with
  | nil => exact hopens rest
  | quote => exact hopens _
  | char run hfront =>
      cases hfront with
      | plain hcontrol =>
          obtain ⟨hbreak, hreturn⟩ := ne_of_isControl hcontrol
          exact lineBreak?_cons hbreak hreturn _
      | lineBreak _ hc => exact absurd (hc ▸ List.mem_cons_self) hcs
      | escape => rfl

theorem afterOpening_body (hquote : IsQuote quote) {cs body : List Char}
    (h : Body quote true 2 0 cs body) (rest : List Char) :
    afterOpening (opening cs ++ (body ++ quote :: rest)) = body ++ quote :: rest := by
  rw [opening]
  split
  · rfl
  · rename_i hcs
    rw [List.nil_append, afterOpening, h.lineBreak? hquote (by simpa using hcs)]

end ManyLines

/-- What may follow a string: no quote, which could belong to those that close it. -/
def StopsString (rest : List Char) : Prop := ∀ c ∈ rest.head?, ¬IsQuote c

/-- Characters that are one token, a string with the text `cs`. -/
def Denotes (written cs : List Char) (multiline : Bool) : Prop :=
  ∃ quote tail, IsQuote quote ∧ written = quote :: tail ∧ ∀ rest, StopsString rest →
    token? quote (tail ++ rest) = some (.string cs multiline, rest)

section Token

variable {quote : Char} {cs body rest : List Char}

theorem token?_eq_string? (hquote : IsQuote quote) (cs : List Char) :
    token? quote cs = string? quote cs := by
  rcases hquote with rfl | rfl <;> rfl

theorem StopsString.head_ne (h : StopsString rest) (hquote : IsQuote quote) :
    rest.head? ≠ some quote := fun heq => h quote heq hquote

theorem denotes_multiline (hquote : IsQuote quote) (h : Body quote true 2 0 cs body) :
    Denotes (List.replicate 3 quote ++ opening cs ++ body ++ List.replicate 3 quote) cs true := by
  refine ⟨quote, quote :: quote :: (opening cs ++ (body ++ List.replicate 3 quote)), hquote, ?_, ?_⟩
  · simp only [List.append_assoc, List.replicate_succ, List.replicate_zero, List.cons_append,
      List.nil_append]
  intro rest hrest
  have hbody := multiline?_body hquote (hrest.head_ne hquote) h (Nat.zero_le 2)
  have hopening := afterOpening_body hquote h (quote :: quote :: rest)
  have htail : quote :: quote :: (opening cs ++ (body ++ List.replicate 3 quote)) ++ rest =
      quote :: quote :: (opening cs ++ (body ++ quote :: quote :: quote :: rest)) := by
    simp only [List.append_assoc, List.replicate_succ, List.replicate_zero, List.cons_append,
      List.nil_append]
  have hstring : multiline? quote (body ++ quote :: quote :: quote :: rest) = some (cs, rest) :=
    hbody
  rw [token?_eq_string? hquote, htail, string?, if_pos ⟨rfl, rfl⟩, hopening, hstring,
    Option.map_some]

theorem string?_of_head_ne (hcs : ∀ rest, cs ≠ quote :: quote :: rest) :
    string? quote cs = string?.single? quote cs := by
  unfold string?
  split
  · rename_i c d rest
    refine if_neg ?_
    rintro ⟨rfl, rfl⟩
    exact hcs rest rfl
  · rfl

theorem single?_body (hquote : IsQuote quote) (h : Body quote false 0 0 cs body)
    (rest : List Char) :
    string?.single? quote (body ++ quote :: rest) = some (.string cs false, rest) := by
  rcases hquote with rfl | rfl
  · rw [string?.single?, if_pos rfl, basic?_body h, Option.map_some]
  · rw [string?.single?, if_neg (by decide), literal?_body h, Option.map_some]

theorem denotes_single (hquote : IsQuote quote) (h : Body quote false 0 0 cs body) :
    Denotes (quote :: body ++ [quote]) cs false := by
  refine ⟨quote, body ++ [quote], hquote, rfl, ?_⟩
  intro rest hrest
  have hne : ∀ tail, body ++ quote :: rest ≠ quote :: quote :: tail := by
    intro tail heq
    cases h with
    | nil => exact hrest.head_ne hquote (congrArg (fun cs => (cs.drop 1).head?) heq)
    | quote hrun => exact absurd hrun (Nat.not_lt_zero 0)
    | char run hfront =>
        rw [List.append_assoc] at heq
        exact hfront.head_ne hquote _ (congrArg List.head? heq)
  rw [token?_eq_string? hquote, List.append_assoc, List.singleton_append, string?_of_head_ne hne,
    single?_body hquote h]

theorem denotes_literal (hcodes : cs.any needsCode = false) (hrun : (longestRun '\'' cs).1 = 0)
    (hbreak : cs.contains '\n' = false) : Denotes (literal cs) cs false := by
  have hfront := front_le_longestRun '\'' cs
  refine denotes_single (.inr rfl) (body_literal ?_ (.inr ?_) (by omega) (by omega))
  · simpa using hcodes
  · simpa using hbreak

theorem denotes_multilineLiteral (hcodes : cs.any needsCode = false)
    (hrun : (longestRun '\'' cs).1 ≤ 2) : Denotes (multilineLiteral cs) cs true := by
  have hfront := front_le_longestRun '\'' cs
  refine denotes_multiline (.inr rfl) (body_literal ?_ (.inl rfl) (by omega) (by omega))
  simpa using hcodes

/-- What is written for a text is one token, a string with this text. -/
theorem denotes_quote (text : String) :
    ∃ multiline, Denotes (Toml.quote text) text.toList multiline := by
  have hbasic : ∀ cs, Denotes (basic cs) cs false := fun cs =>
    denotes_single (.inl rfl) (body_escaped false 0 0 cs)
  have hmultiline : ∀ cs, Denotes (multilineBasic cs) cs true := fun cs =>
    denotes_multiline (.inl rfl) (body_escaped true 2 0 cs)
  unfold Toml.quote
  dsimp only
  split
  · exact ⟨false, hbasic _⟩
  split
  · rename_i h
    simp only [Bool.and_eq_true, Bool.not_eq_true', beq_iff_eq] at h
    exact ⟨false, denotes_literal h.1.1 h.1.2 h.2⟩
  split
  · exact ⟨true, hmultiline _⟩
  split
  · rename_i h
    simp only [Bool.and_eq_true, Bool.not_eq_true', decide_eq_true_eq] at h
    exact ⟨true, denotes_multilineLiteral h.1 h.2⟩
  split
  · exact ⟨true, hmultiline _⟩
  · exact ⟨false, hbasic _⟩

end Token

end DocShell.Toml
