import DocShell.Json.Printer
import DocShell.Json.Reader
import DocShell.Proofs.Members
import DocShell.Proofs.Timestamps

namespace DocShell.Json

open DocShell.Number
open DocShell.Number.Decimal

theorem hexQuad?_hexDigit {n : Nat} (h : n < 0x20) :
    hexQuad? '0' '0' (hexDigit (n / 16)) (hexDigit (n % 16)) = some n := by
  have hall : ∀ n : Fin 0x20,
      hexQuad? '0' '0' (hexDigit (n / 16)) (hexDigit (n % 16)) = some n.val := by decide
  exact hall ⟨n, h⟩

theorem stringBody?_escape (c : Char) (rest : List Char) :
    stringBody? (escape c ++ rest) =
      (stringBody? rest).map fun found => (c :: found.1, found.2) := by
  unfold escape
  split
  case h_8 hquote hbackslash _ _ _ _ _ =>
    split
    · rename_i hcontrol
      have hhigh : isHighSurrogate c.toNat = false := by
        simp only [isHighSurrogate, Bool.and_eq_false_imp, decide_eq_true_eq,
          decide_eq_false_iff_not]
        omega
      have hlow : isLowSurrogate c.toNat = false := by
        simp only [isLowSurrogate, Bool.and_eq_false_imp, decide_eq_true_eq,
          decide_eq_false_iff_not]
        omega
      simp only [List.cons_append, List.nil_append, stringBody?, hexQuad?_hexDigit hcontrol, hhigh,
        hlow, Bool.false_eq_true, if_false, Char.ofNat_toNat]
    · rename_i hcontrol
      rw [List.singleton_append, stringBody?, if_neg hcontrol]
      · exact hquote
      · exact fun _ _ _ _ _ hc => (hbackslash hc).elim
      · exact fun _ _ hc => (hbackslash hc).elim
      · exact fun hc => (hbackslash hc).elim
  all_goals
    rw [List.cons_append, List.singleton_append, stringBody?, unescape?]
    simp

theorem stringBody?_quote (cs rest : List Char) :
    stringBody? (cs.flatMap escape ++ '"' :: rest) = some (cs, rest) := by
  induction cs with
  | nil => rw [List.flatMap_nil, List.nil_append, stringBody?]
  | cons c cs ih =>
      rw [List.flatMap_cons, List.append_assoc, stringBody?_escape, ih, Option.map_some]

section Number

theorem le_extend (value : Nat) (written : List Char) : value ≤ extend value written := by
  rw [extend_eq]
  exact Nat.le_trans (Nat.le_mul_of_pos_right _ (Nat.pow_pos (by decide))) (Nat.le_add_right _ _)

/-- All digits of a number that fits a word fit it. -/
theorem absorb_eq {value : Nat} {written : List Char} (h : extend value written < UInt64.size) :
    absorb value written = (extend value written, written.length) := by
  induction written generalizing value with
  | nil => rfl
  | cons c cs ih =>
      have hnext : extend value (c :: cs) = extend (value * 10 + digitValue c) cs := rfl
      rw [hnext] at h ⊢
      have hfits := Nat.lt_of_le_of_lt (le_extend _ cs) h
      simp only [absorb, if_pos hfits, ih h, List.length_cons]

/-- What may follow a number: nothing that would be read as a part of it. -/
def StopsNumber (rest : List Char) : Prop :=
  ∀ c ∈ rest.head?, c.isDigit = false ∧ c ≠ '.' ∧ c ≠ 'e' ∧ c ≠ 'E'

theorem stopsNumber_nil : StopsNumber [] := by
  intro c hc
  cases hc

theorem stopsNumber_cons {c : Char} (h : c.isDigit = false ∧ c ≠ '.' ∧ c ≠ 'e' ∧ c ≠ 'E')
    (rest : List Char) : StopsNumber (c :: rest) := by
  intro d hd
  cases hd
  exact h

variable {n : Nat} {rest : List Char} (hrest : StopsNumber rest)

include hrest

theorem whole_digits : whole (digits n ++ rest) = (digits n, rest) := by
  rcases Nat.eq_zero_or_pos n with rfl | hpos
  · rw [digits, if_pos (by decide)]
    rfl
  · have hdigits : ∀ c ∈ digits n, c.isDigit = true := fun c => isDigit_of_mem_digits
    have hstops : Time.EndsNumber rest := fun c hc => (hrest c hc).1
    unfold whole
    split
    · rename_i tail heq
      have hhead := digits_head_ne_zero hpos
      obtain ⟨c, cs, hcs⟩ := List.exists_cons_of_ne_nil (digits_ne_nil n)
      rw [hcs] at heq hhead
      exact absurd (congrArg some (List.cons.inj heq).1) hhead
    · rw [Time.takeWhile_isDigit_append hdigits hstops,
        Time.dropWhile_isDigit_append hdigits hstops]

theorem number?_digits (h : n < UInt64.size) (negative : Bool) :
    number? negative (digits n ++ rest) =
      if !negative then some (int n, rest)
      else if n = 0 ∨ 0x8000000000000000 < n then float? negative n 0 rest
      else some (int (-n), rest) := by
  have habsorb : absorb 0 (digits n) = (n, (digits n).length) := by
    have hvalue : extend 0 (digits n) = n := ofDigits_digits n
    rw [absorb_eq (by rw [hvalue]; exact h), hvalue]
  have hne : (digits n).isEmpty = false := List.isEmpty_eq_false_iff.mpr (digits_ne_nil n)
  simp only [number?, whole_digits hrest, habsorb, hne, Nat.sub_self, Bool.false_eq_true, if_false]
  split
  · exact absurd rfl (hrest '.' rfl).2.1
  · exact absurd rfl (hrest 'e' rfl).2.2.1
  · exact absurd rfl (hrest 'E' rfl).2.2.2
  · rfl

end Number

section Run

variable {state : State} {rest : List Char}

/-- What the reader comes to at the end of a text that it reads in some state. -/
def run? (state : State) (cs : List Char) : Option State :=
  (tokens? cs).bind fun tokens => tokens.foldlM step? state

theorem run?_nil (state : State) : run? state [] = some state := by
  rw [run?, tokens?]
  rfl

theorem run?_space {c : Char} (h : isSpace c = true) (cs : List Char) :
    run? state (c :: cs) = run? state cs := by
  rw [run?, tokens?, if_pos h, run?]

theorem run?_token {c : Char} {cs : List Char} {token : Token} (hspace : isSpace c = false)
    (h : token? c cs = some (token, rest)) :
    run? state (c :: cs) = (step? state token).bind fun next => run? next rest := by
  have htokens : tokens? (c :: cs) = (tokens? rest).map (token :: ·) := by
    rw [tokens?, if_neg (by rw [hspace]; exact Bool.false_ne_true)]
    split
    · rename_i hnone
      rw [h] at hnone
      cases hnone
    · rename_i found rest' hfound
      rw [h] at hfound
      cases hfound
      rfl
  rw [run?, htokens]
  unfold run?
  cases tokens? rest with
  | none => cases step? state token <;> rfl
  | some tokens => rfl

def Token.sign? : Token → Option Char
  | openArray => some '['
  | closeArray => some ']'
  | openObject => some '{'
  | closeObject => some '}'
  | comma => some ','
  | colon => some ':'
  | _ => none

theorem run?_sign {token : Token} {c : Char} (h : token.sign? = some c) (cs : List Char) :
    run? state (c :: cs) = (step? state token).bind fun next => run? next cs := by
  cases token with
  | string | scalar => cases h
  | _ =>
      cases h
      exact run?_token rfl rfl

theorem run?_spaces {cs : List Char} (h : ∀ c ∈ cs, isSpace c = true) (rest : List Char) :
    run? state (cs ++ rest) = run? state rest := by
  induction cs with
  | nil => rfl
  | cons c cs ih =>
      obtain ⟨hc, hcs⟩ := List.forall_mem_cons.mp h
      rw [List.cons_append, run?_space hc, ih hcs]

theorem isSpace_lineBreak (layout : Layout) (depth : Nat) :
    ∀ c ∈ layout.lineBreak depth, isSpace c = true := by
  cases layout with
  | compact => simp [Layout.lineBreak]
  | pretty =>
      intro c hc
      rcases List.mem_cons.mp hc with rfl | hc
      · rfl
      · rw [List.eq_of_mem_replicate hc]
        rfl

theorem run?_lineBreak (layout : Layout) (depth : Nat) (rest : List Char) :
    run? state (layout.lineBreak depth ++ rest) = run? state rest :=
  run?_spaces (isSpace_lineBreak layout depth) rest

theorem run?_quote (value : String) (rest : List Char) : run? state (quote value ++ rest) =
    (step? state (.string value)).bind fun next => run? next rest := by
  have htoken : token? '"' (value.toList.flatMap escape ++ '"' :: rest) =
      some (.string value, rest) := by
    have hliteral : String.ofList value.toList = value := String.ofList_toList
    simp only [token?, stringBody?_quote, Option.map_some, hliteral]
  rw [quote, List.append_assoc, List.cons_append, List.singleton_append]
  exact run?_token rfl htoken

theorem run?_colon (layout : Layout) (rest : List Char) : run? state (layout.colon ++ rest) =
    (step? state .colon).bind fun next => run? next rest := by
  have hsign : Token.colon.sign? = some ':' := rfl
  cases layout with
  | compact => exact run?_sign hsign rest
  | pretty =>
      refine (run?_sign hsign (' ' :: rest)).trans ?_
      exact congrArg _ (funext fun next => run?_space rfl rest)

theorem run?_ofInt {value : Int} (hlow : -0x8000000000000000 ≤ value)
    (hhigh : value < 0x10000000000000000) (hrest : StopsNumber rest) :
    run? state (ofInt value ++ rest) =
      (step? state (.scalar (int value))).bind fun next => run? next rest := by
  unfold ofInt
  split
  · rename_i hnegative
    have htoken : token? '-' (digits value.natAbs ++ rest) = some (.scalar (int value), rest) := by
      have hsize : value.natAbs < UInt64.size := by
        simp only [UInt64.size]
        omega
      have hzero : ¬(value.natAbs = 0 ∨ 0x8000000000000000 < value.natAbs) := by omega
      have hvalue : -(value.natAbs : Int) = value := by omega
      simp only [token?, number?_digits hrest hsize, Bool.not_true, Bool.false_eq_true, if_false,
        if_neg hzero, hvalue, Option.map_some]
    rw [List.cons_append]
    exact run?_token rfl htoken
  · rename_i hpositive
    have hsize : value.natAbs < UInt64.size := by
      simp only [UInt64.size]
      omega
    have hvalue : (value.natAbs : Int) = value := by omega
    have hnumber := number?_digits hrest hsize false
    rw [hvalue] at hnumber
    obtain ⟨c, cs, hcs⟩ := List.exists_cons_of_ne_nil (digits_ne_nil value.natAbs)
    have hc : c.isDigit = true :=
      isDigit_of_mem_digits (hcs ▸ List.mem_cons_self : c ∈ digits value.natAbs)
    rw [hcs, List.cons_append] at hnumber ⊢
    have htoken : token? c (cs ++ rest) = some (.scalar (int value), rest) := by
      unfold token?
      split
      case h_9 =>
        rw [if_pos hc, hnumber]
        rfl
      all_goals cases hc
    refine run?_token ?_ htoken
    cases hspace : isSpace c with
    | false => rfl
    | true =>
        simp only [isSpace, Bool.or_eq_true, beq_iff_eq] at hspace
        rcases hspace with ((rfl | rfl) | rfl) | rfl <;> cases hc

end Run

/-- A state in which a value may begin. -/
def Expects (state : State) (frames : List Frame) : Prop :=
  ∀ token, token ≠ .closeArray → step? state token = begin? frames token

theorem expects_value (frames : List Frame) : Expects (.value frames) frames := fun _ _ => rfl

theorem expects_itemOrClose (frames : List Frame) :
    Expects (.itemOrClose frames) (.array [] :: frames) := by
  intro token h
  cases token with
  | closeArray => exact absurd rfl h
  | _ => rfl

theorem run?_word {state : State} {frames : List Frame} {c : Char} {cs rest : List Char}
    {value : Json} (hspace : isSpace c = false) (htoken : token? c cs = some (.scalar value, rest))
    (hstate : Expects state frames) : run? state (c :: cs) = run? (.after value frames) rest := by
  rw [run?_token hspace htoken, hstate _ (by simp)]
  rfl

/-- The text of a value is read as the value, wherever one may begin and as deep as there is room
for it. -/
def IsRead (layout : Layout) (levels : Nat) (value : Json) : Prop :=
  ∀ (state : State) (frames : List Frame) (depth : Nat) (rest : List Char),
    Expects state frames → frames.length + levels ≤ maxDepth → StopsNumber rest →
    run? state (print layout depth value ++ rest) = run? (.after value.sorted frames) rest

section Brackets

variable {layout : Layout} {levels depth : Nat} {frames : List Frame}

theorem stopsNumber_lineBreak {c : Char} (h : c.isDigit = false ∧ c ≠ '.' ∧ c ≠ 'e' ∧ c ≠ 'E')
    (rest : List Char) : StopsNumber (layout.lineBreak depth ++ c :: rest) := by
  cases layout with
  | compact => exact stopsNumber_cons h rest
  | pretty => exact stopsNumber_cons (by decide) _

theorem stopsNumber_printItems (items : List Json) (rest : List Char) :
    StopsNumber (printItems layout depth items ++ rest) := by
  cases items with
  | nil =>
      rw [printItems, List.append_assoc]
      exact stopsNumber_lineBreak (by decide) rest
  | cons item items => exact stopsNumber_cons (by decide) _

theorem stopsNumber_printMembers (members : List (String × Json)) (rest : List Char) :
    StopsNumber (printMembers layout depth members ++ rest) := by
  cases members with
  | nil =>
      rw [printMembers, List.append_assoc]
      exact stopsNumber_lineBreak (by decide) rest
  | cons member members => exact stopsNumber_cons (by decide) _

theorem run?_printItems {items : List Json} (h : ∀ item ∈ items, IsRead layout levels item)
    (hlevels : frames.length + 1 + levels ≤ maxDepth) (value : Json) (found : List Json)
    (rest : List Char) :
    run? (.after value (.array found :: frames)) (printItems layout depth items ++ rest) =
      run? (.after (array ((value :: found).reverse ++ sortedItems items)) frames) rest := by
  induction items generalizing value found with
  | nil =>
      have hsign : Token.closeArray.sign? = some ']' := rfl
      rw [printItems, List.append_assoc, run?_lineBreak, sortedItems, List.append_nil]
      exact run?_sign hsign rest
  | cons item items ih =>
      obtain ⟨hitem, hitems⟩ := List.forall_mem_cons.mp h
      have htext : printItems layout depth (item :: items) ++ rest =
          ',' :: (layout.lineBreak (depth + 1) ++ (print layout (depth + 1) item ++
            (printItems layout depth items ++ rest))) := by
        simp only [printItems, List.cons_append, List.append_assoc]
      have hsign : Token.comma.sign? = some ',' := rfl
      rw [htext, run?_sign hsign, step?, Option.bind_some, run?_lineBreak,
        hitem _ (.array (value :: found) :: frames) _ _ (expects_value _) hlevels
          (stopsNumber_printItems items rest), ih hitems, sortedItems]
      simp only [List.reverse_cons, List.append_assoc, List.cons_append, List.nil_append]

/-- A member is read behind an opening brace or a comma. -/
theorem run?_printMember {state : State} {found : List (String × Json)}
    {member : String × Json} (h : IsRead layout levels member.2)
    (hlevels : frames.length + 1 + levels ≤ maxDepth)
    (hstate : step? state (.string member.1) = some (.colon found member.1 frames))
    {rest : List Char} (hrest : StopsNumber rest) :
    run? state (printMember layout depth member ++ rest) =
      run? (.after member.2.sorted (.object found member.1 :: frames)) rest := by
  obtain ⟨name, value⟩ := member
  rw [printMember, List.append_assoc, List.append_assoc, run?_quote, hstate, Option.bind_some,
    run?_colon, step?, Option.bind_some]
  exact h _ _ _ _ (expects_value _) hlevels hrest

theorem run?_printMembers {members : List (String × Json)}
    (h : ∀ member ∈ members, IsRead layout levels member.2)
    (hlevels : frames.length + 1 + levels ≤ maxDepth) (value : Json)
    (found : List (String × Json)) (name : String) (rest : List Char) :
    run? (.after value (.object found name :: frames)) (printMembers layout depth members ++ rest) =
      run? (.after (ofMembers (((name, value) :: found).reverse ++ sortedMembers members)) frames)
        rest := by
  induction members generalizing value found name with
  | nil =>
      have hsign : Token.closeObject.sign? = some '}' := rfl
      rw [printMembers, List.append_assoc, run?_lineBreak, sortedMembers, List.append_nil]
      exact run?_sign hsign rest
  | cons member members ih =>
      obtain ⟨hmember, hmembers⟩ := List.forall_mem_cons.mp h
      have htext : printMembers layout depth (member :: members) ++ rest =
          ',' :: (layout.lineBreak (depth + 1) ++ (printMember layout depth member ++
            (printMembers layout depth members ++ rest))) := by
        simp only [printMembers, List.cons_append, List.append_assoc]
      have hsign : Token.comma.sign? = some ',' := rfl
      rw [htext, run?_sign hsign, step?, Option.bind_some, run?_lineBreak,
        run?_printMember hmember hlevels rfl (stopsNumber_printMembers members rest),
        ih hmembers, sortedMembers]
      simp only [List.reverse_cons, List.append_assoc, List.cons_append, List.nil_append]

end Brackets

section Value

variable {layout : Layout} {levels : Nat}

theorem isRead_null : IsRead layout levels null := by
  intro state frames depth rest hstate hlevels hrest
  have htoken : token? 'n' ('u' :: 'l' :: 'l' :: rest) = some (.scalar null, rest) := rfl
  exact run?_word rfl htoken hstate

theorem isRead_bool (value : Bool) : IsRead layout levels (bool value) := by
  intro state frames depth rest hstate hlevels hrest
  cases value with
  | true =>
      have htoken : token? 't' ('r' :: 'u' :: 'e' :: rest) = some (.scalar (bool true), rest) := rfl
      exact run?_word rfl htoken hstate
  | false =>
      have htoken : token? 'f' ('a' :: 'l' :: 's' :: 'e' :: rest) =
          some (.scalar (bool false), rest) := rfl
      exact run?_word rfl htoken hstate

theorem isRead_array {items : List Json} (h : ∀ item ∈ items, IsRead layout levels item) :
    IsRead layout (levels + 1) (array items) := by
  intro state frames depth rest hstate hlevels hrest
  have hroom : frames.length < maxDepth := by omega
  have hsign : Token.openArray.sign? = some '[' := rfl
  have hopen : step? state .openArray = some (.itemOrClose frames) := by
    rw [hstate _ (by simp), begin?, if_pos hroom]
  cases items with
  | nil =>
      have hclose : Token.closeArray.sign? = some ']' := rfl
      refine (run?_sign hsign (']' :: rest)).trans ?_
      rw [hopen, Option.bind_some, run?_sign hclose]
      rfl
  | cons item items =>
      obtain ⟨hitem, hitems⟩ := List.forall_mem_cons.mp h
      have hdeeper : frames.length + 1 + levels ≤ maxDepth := by omega
      have htext : print layout depth (array (item :: items)) ++ rest =
          '[' :: (layout.lineBreak (depth + 1) ++ (print layout (depth + 1) item ++
            (printItems layout depth items ++ rest))) := by
        simp only [print, List.cons_append, List.append_assoc]
      rw [htext, run?_sign hsign, hopen, Option.bind_some, run?_lineBreak,
        hitem _ (.array [] :: frames) _ _ (expects_itemOrClose frames) hdeeper
          (stopsNumber_printItems items rest), run?_printItems hitems hdeeper]
      rfl

theorem isRead_object {members : List (String × Json)}
    (h : ∀ member ∈ members, IsRead layout levels member.2) :
    IsRead layout (levels + 1) (object members) := by
  intro state frames depth rest hstate hlevels hrest
  have hroom : frames.length < maxDepth := by omega
  have hsign : Token.openObject.sign? = some '{' := rfl
  have hopen : step? state .openObject = some (.nameOrClose frames) := by
    rw [hstate _ (by simp), begin?, if_pos hroom]
  cases members with
  | nil =>
      have hclose : Token.closeObject.sign? = some '}' := rfl
      refine (run?_sign hsign ('}' :: rest)).trans ?_
      rw [hopen, Option.bind_some, run?_sign hclose]
      rfl
  | cons member members =>
      obtain ⟨hmember, hmembers⟩ := List.forall_mem_cons.mp h
      have hdeeper : frames.length + 1 + levels ≤ maxDepth := by omega
      have htext : print layout depth (object (member :: members)) ++ rest =
          '{' :: (layout.lineBreak (depth + 1) ++ (printMember layout depth member ++
            (printMembers layout depth members ++ rest))) := by
        simp only [print, List.cons_append, List.append_assoc]
      rw [htext, run?_sign hsign, hopen, Option.bind_some, run?_lineBreak,
        run?_printMember hmember hdeeper rfl (stopsNumber_printMembers members rest),
        run?_printMembers hmembers hdeeper]
      rfl

end Value

theorem isRead_of_readable {levels : Nat} {value : Json} (h : Readable levels value)
    (layout : Layout) : IsRead layout levels value := by
  induction h with
  | null => exact isRead_null
  | bool => exact isRead_bool _
  | int hlow hhigh =>
      intro state frames depth rest hstate hlevels hrest
      rw [print, run?_ofInt hlow hhigh hrest, hstate _ (by simp)]
      rfl
  | string =>
      intro state frames depth rest hstate hlevels hrest
      rw [print, run?_quote, hstate _ (by simp)]
      rfl
  | array _ ih => exact isRead_array ih
  | object _ _ ih => exact isRead_object ih

/-- The text of a value, in either layout, is read as the value with its members in order. -/
theorem Readable.ofText?_text {levels : Nat} {value : Json} (h : Readable levels value)
    (hlevels : levels ≤ maxDepth) (layout : Layout) :
    ofText? (value.text layout) = some value.sorted := by
  have hrun := isRead_of_readable h layout (.value []) [] 0 [] (expects_value [])
    (by simpa using hlevels) stopsNumber_nil
  rw [List.append_nil, run?_nil, run?] at hrun
  rw [ofText?, text, String.toList_ofList]
  cases htokens : tokens? (print layout 0 value) with
  | none =>
      rw [htokens] at hrun
      cases hrun
  | some tokens =>
      rw [htokens, Option.bind_some] at hrun
      rw [Option.bind_some, ofTokens?, hrun]

end DocShell.Json
