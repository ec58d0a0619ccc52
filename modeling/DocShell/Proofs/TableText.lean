import DocShell.Proofs.Numeral
import DocShell.Proofs.QuotedText
import DocShell.Shell.ConfigText

namespace DocShell.Toml

open DocShell.Number
open DocShell.Number.Decimal
open DocShell.Text.Segments

section Run

variable {state : State × Document} {rest : List Char}

def run? (state : State × Document) (cs : List Char) : Option (State × Document) :=
  (tokens? cs).bind fun tokens => (tokens ++ [Token.newline]).foldlM step? state

theorem run?_token {c : Char} {cs : List Char} {token : Token}
    (h : token? c cs = some (token, rest)) :
    run? state (c :: cs) = (step? state token).bind fun next => run? next rest := by
  have htokens : tokens? (c :: cs) = (tokens? rest).map (token :: ·) := by
    rw [tokens?]
    split
    · rename_i hnone
      rw [h] at hnone
      cases hnone
    · rename_i found rest' hfound
      rw [h] at hfound
      cases hfound
      rfl
  rw [run?, htokens]
  unfold run?
  cases tokens? rest with
  | none => cases step? state token <;> rfl
  | some tokens => rfl

theorem run?_space {c : Char} (hc : isSpace c = false) (cs : List Char) :
    run? state (' ' :: c :: cs) =
      (step? state (.blank [' '])).bind fun next => run? next (c :: cs) := by
  refine run?_token ?_
  have hstop : ¬isSpace c = true := by simpa using hc
  have htake : (c :: cs).takeWhile isSpace = [] := List.takeWhile_cons_of_neg hstop
  have hdrop : (c :: cs).dropWhile isSpace = c :: cs := List.dropWhile_cons_of_neg hstop
  have htoken : token? ' ' (c :: cs) =
      some (.blank (' ' :: (c :: cs).takeWhile isSpace), (c :: cs).dropWhile isSpace) := rfl
  rw [htoken, htake, hdrop]

theorem isAtomChar_of_isBareChar {c : Char} (h : isBareChar c = true) : isAtomChar c = true := by
  rw [isAtomChar, Bool.not_eq_true', Bool.eq_false_iff]
  intro hsign
  simp only [isSpace, Bool.or_eq_true, beq_iff_eq] at hsign
  rcases hsign with (((((((((((rfl | rfl) | rfl) | rfl) | rfl) | rfl) | rfl) | rfl) | rfl) | rfl) |
    rfl) | rfl) <;> cases h

theorem isSpace_of_isBareChar {c : Char} (h : isBareChar c = true) : isSpace c = false := by
  rw [isSpace, Bool.or_eq_false_iff, beq_eq_false_iff_ne, beq_eq_false_iff_ne]
  constructor
  · rintro rfl
    cases h
  · rintro rfl
    cases h

theorem token?_bare {c : Char} (h : isBareChar c = true) (cs : List Char) :
    token? c cs = some (.atom (c :: cs.takeWhile isAtomChar), cs.dropWhile isAtomChar) := by
  unfold token?
  split
  case h_13 => rw [isSpace_of_isBareChar h, if_neg Bool.false_ne_true]
  all_goals cases h

/-- Whether a word needs no quotes. -/
def isBare (source : List Char) : Bool := !source.isEmpty && source.all isBareChar

theorem exists_of_isBare {source : List Char} (h : isBare source = true) :
    ∃ c cs, source = c :: cs ∧ isBareChar c = true ∧ ∀ d ∈ cs, isBareChar d = true := by
  cases source with
  | nil => cases h
  | cons c cs =>
      have hbare := List.all_eq_true.mp (Bool.and_eq_true_iff.mp h).2
      obtain ⟨hc, hcs⟩ := List.forall_mem_cons.mp hbare
      exact ⟨c, cs, rfl, hc, hcs⟩

theorem run?_bare {source : List Char} (h : isBare source = true) {d : Char}
    (hd : isAtomChar d = false) (cs : List Char) : run? state (source ++ d :: cs) =
      (step? state (.atom source)).bind fun next => run? next (d :: cs) := by
  obtain ⟨c, source, rfl, hc, hsource⟩ := exists_of_isBare h
  have hatom : ∀ c ∈ source, isAtomChar c = true :=
    fun c hmem => isAtomChar_of_isBareChar (hsource c hmem)
  have hstop : ¬isAtomChar d = true := by simpa using hd
  have htake : (source ++ d :: cs).takeWhile isAtomChar = source := by
    rw [List.takeWhile_append_of_pos hatom, List.takeWhile_cons_of_neg hstop, List.append_nil]
  have hdrop : (source ++ d :: cs).dropWhile isAtomChar = d :: cs := by
    rw [List.dropWhile_append_of_pos hatom, List.dropWhile_cons_of_neg hstop]
  rw [List.cons_append]
  refine run?_token ?_
  rw [token?_bare hc, htake, hdrop]

end Run

section Values

/-- Characters that are read as a value where one stands behind a key. -/
def Reads (written : List Char) (value : Value) : Prop :=
  ∀ (key : String) (document : Document) (rest : List Char),
    run? (.value [.statement [key]], document) (' ' :: (written ++ '\n' :: rest)) =
      (document.assign [] key value).bind fun document => run? (.start, document) rest

theorem run?_after (value : Value) (key : String) (document : Document) (rest : List Char) :
    run? (.after value [.statement [key]], document) ('\n' :: rest) =
      (document.assign [] key value).bind fun document => run? (.start, document) rest := by
  have htoken : token? '\n' rest = some (.newline, rest) := rfl
  have hstep : step? (.after value [.statement [key]], document) .newline =
      (document.assign [] key value).map fun document => (.start, document) := rfl
  rw [run?_token htoken, hstep, Option.bind_map]
  rfl

theorem reads_quote (text : String) : Reads (quote text) (.string text) := by
  intro key document rest
  obtain ⟨multiline, mark, tail, hmark, hwritten, htoken⟩ := denotes_quote text
  have hspace : isSpace mark = false := by
    rcases hmark with rfl | rfl <;> rfl
  have hstops : StopsString ('\n' :: rest) := by
    rintro c hc
    cases hc
    rintro (h | h) <;> cases h
  have hgap : step? (.value [.statement [key]], document) (.blank [' ']) =
      some (.value [.statement [key]], document) := rfl
  have hstep : step? (.value [.statement [key]], document) (.string text.toList multiline) =
      some (.after (.string (String.ofList text.toList)) [.statement [key]], document) := rfl
  rw [hwritten, List.cons_append, run?_space hspace, hgap, Option.bind_some,
    run?_token (htoken _ hstops), hstep, Option.bind_some, String.ofList_toList]
  exact run?_after (.string text) key document rest

theorem reads_bare {source : List Char} {value : Value} (hbare : isBare source = true)
    (hvalue : Value.ofScalar? source = some value) : Reads source value := by
  intro key document rest
  obtain ⟨c, cs, rfl, hc, -⟩ := exists_of_isBare hbare
  have hspace := isSpace_of_isBareChar hc
  have hgap : step? (.value [.statement [key]], document) (.blank [' ']) =
      some (.value [.statement [key]], document) := rfl
  have hstep : step? (.value [.statement [key]], document) (.atom (c :: cs)) =
      some (.scalar (c :: cs) [.statement [key]], document) := rfl
  have htoken : token? '\n' rest = some (.newline, rest) := rfl
  have hclose : step? (.scalar (c :: cs) [.statement [key]], document) .newline =
      (Value.ofScalar? (c :: cs)).bind fun value =>
        close? value [.statement [key]] .newline document := rfl
  have hassign : close? value [.statement [key]] .newline document =
      (document.assign [] key value).map fun document => (.start, document) := rfl
  rw [List.cons_append, run?_space hspace, hgap, Option.bind_some,
    ← List.cons_append, run?_bare hbare rfl, hstep, Option.bind_some, run?_token htoken, hclose,
    hvalue, Option.bind_some, hassign, Option.bind_map]
  rfl

theorem reads_bool (value : Bool) : Reads (Shell.boolText value) (.boolean value) := by
  cases value with
  | true => exact reads_bare rfl rfl
  | false => exact reads_bare rfl rfl

theorem digits_ne_cons {c : Char} (h : c.isDigit = false) (n : Nat) (cs : List Char) :
    digits n ≠ c :: cs := by
  intro heq
  rw [isDigit_of_mem_digits (heq ▸ List.mem_cons_self : c ∈ digits n)] at h
  cases h

theorem digits_ne_zero_cons (n : Nat) (c : Char) (cs : List Char) : digits n ≠ '0' :: c :: cs := by
  intro h
  rcases Nat.eq_zero_or_pos n with rfl | hpos
  · have hzero : digits 0 = ['0'] := by
      rw [digits]
      rfl
    rw [hzero] at h
    cases h
  · exact digits_head_ne_zero hpos (congrArg List.head? h)

theorem wholeDigits?_digits (n : Nat) : wholeDigits? (digits n) = some (digits n) := by
  have hdigits : ∀ c ∈ digits n, c.isDigit = true := fun c => isDigit_of_mem_digits
  have hplain : '_' ∉ digits n := fun h => nomatch hdigits '_' h
  have hne : (digits n).isEmpty = false := List.isEmpty_eq_false_iff.mpr (digits_ne_nil n)
  have hgroup : plainDigits? Char.isDigit (digits n) = some (digits n) := by
    rw [plainDigits?, splitOn_of_not_mem hplain]
    simp only [List.all_cons, List.all_nil, hne, List.all_eq_true.mpr hdigits, Bool.not_false,
      Bool.and_self, if_true, List.flatten_cons, List.flatten_nil, List.append_nil]
  rw [wholeDigits?, hgroup]
  refine (Option.bind_some _ _).trans ?_
  split
  · rename_i heq
    exact absurd heq (digits_ne_zero_cons n _ _)
  · rfl

theorem integer?_digits {n : Nat} (h : n < 0x100000000000000000000000000000000) :
    integer? (digits n) = some (.integer n) := by
  have hsign : splitSign (digits n) = (false, digits n) := by
    unfold splitSign
    split
    · rename_i heq
      exact absurd heq (digits_ne_cons rfl n _)
    · rename_i heq
      exact absurd heq (digits_ne_cons rfl n _)
    · rfl
  have hrange : isInRange n = true := by
    rw [isInRange, Bool.and_eq_true, decide_eq_true_eq, decide_eq_true_eq]
    omega
  have hvalue : Value.ofInt n = .integer n := by rw [Value.ofInt, if_pos hrange]
  unfold integer?
  split
  · rename_i heq
    exact absurd heq (digits_ne_zero_cons n _ _)
  · rename_i heq
    exact absurd heq (digits_ne_zero_cons n _ _)
  · rename_i heq
    exact absurd heq (digits_ne_zero_cons n _ _)
  · simp only [hsign, wholeDigits?_digits, ofDigits_digits, Bool.false_eq_true, if_false, hvalue]

theorem ofScalar?_digits {n : Nat} (h : n < 0x100000000000000000000000000000000) :
    Value.ofScalar? (digits n) = some (.integer n) := by
  have htrue : (digits n == "true".toList) = false :=
    beq_eq_false_iff_ne.mpr (digits_ne_cons rfl n _)
  have hfalse : (digits n == "false".toList) = false :=
    beq_eq_false_iff_ne.mpr (digits_ne_cons rfl n _)
  rw [Value.ofScalar?, htrue, hfalse, integer?_digits h]
  rfl

theorem reads_digits {n : Nat} (h : n < 0x100000000000000000000000000000000) :
    Reads (digits n) (.integer n) := by
  refine reads_bare ?_ (ofScalar?_digits h)
  have hne : (digits n).isEmpty = false := List.isEmpty_eq_false_iff.mpr (digits_ne_nil n)
  rw [isBare, hne, Bool.not_false, Bool.true_and, List.all_eq_true]
  intro c hc
  rw [isBareChar, Char.isAlphanum, isDigit_of_mem_digits hc, Bool.or_true]
  rfl

end Values

section Tables

theorem lookup_eq_none {α : Type} {entries : List (String × α)} {name : String}
    (h : name ∉ entries.map Prod.fst) : entries.lookup name = none := by
  rw [List.lookup_eq_none_iff]
  intro entry hentry
  rw [bne_iff_ne]
  rintro rfl
  exact h (List.mem_map_of_mem hentry)

theorem Entries.replace_append {entries : Entries} {name : String}
    (h : name ∉ entries.map Prod.fst) (before after : Node) :
    Entries.replace (entries ++ [(name, before)]) name after = entries ++ [(name, after)] := by
  have hkept : ∀ entry ∈ entries,
      (if entry.1 = name then (name, after) else entry) = entry := by
    intro entry hentry
    refine if_neg ?_
    rintro rfl
    exact h (List.mem_map_of_mem hentry)
  rw [Entries.replace, List.map_append, List.map_congr_left hkept, List.map_id', List.map_singleton,
    if_pos rfl]

def closed (entries : List (String × Value)) : Entries :=
  entries.map fun entry => (entry.1, .value entry.2)

/-- The tables of a document, each with the values of its keys. -/
def root (tables : List (String × List (String × Value))) : Entries :=
  tables.map fun table => (table.1, .table .defined (closed table.2))

theorem names_closed (entries : List (String × Value)) :
    (closed entries).map Prod.fst = entries.map Prod.fst := List.map_map

theorem names_root (tables : List (String × List (String × Value))) :
    (root tables).map Prod.fst = tables.map Prod.fst := List.map_map

theorem root_concat (tables : List (String × List (String × Value))) (name : String)
    (entries : List (String × Value)) : root (tables ++ [(name, entries)]) =
      root tables ++ [(name, .table .defined (closed entries))] := List.map_append

variable {tables : List (String × List (String × Value))} {entries : List (String × Value)}
  {name key : String}

theorem openTable_root (h : name ∉ tables.map Prod.fst) (header : List String) :
    Document.openTable ⟨root tables, header⟩ [] name =
      some ⟨root (tables ++ [(name, [])]), [name]⟩ := by
  have hlookup := lookup_eq_none (names_root tables ▸ h)
  simp only [Document.openTable, Entries.within, hlookup, root_concat]
  rfl

theorem assign_root (hname : name ∉ tables.map Prod.fst) (hkey : key ∉ entries.map Prod.fst)
    (value : Value) : Document.assign ⟨root (tables ++ [(name, entries)]), [name]⟩ [] key value =
      some ⟨root (tables ++ [(name, entries ++ [(key, value)])]), [name]⟩ := by
  have hroot := names_root tables ▸ hname
  have hlookup : (root tables ++ [(name, Node.table .defined (closed entries))]).lookup name =
      some (.table .defined (closed entries)) := by
    rw [List.lookup_append, lookup_eq_none hroot, Option.none_or, List.lookup_cons_self]
  have hassign : Entries.assign [] key value .defined (closed entries) =
      some (closed (entries ++ [(key, value)])) := by
    have hfresh := lookup_eq_none (names_closed entries ▸ hkey)
    have hclosed : closed (entries ++ [(key, value)]) = closed entries ++ [(key, .value value)] :=
      List.map_append
    rw [Entries.assign, Entries.within, hfresh, hclosed]
    rfl
  rw [root_concat, root_concat]
  simp only [Document.assign, Entries.within, hlookup, hassign, Bool.false_and, Bool.false_eq_true,
    if_false, Option.bind_eq_bind, Option.bind_some, Option.pure_def,
    Entries.replace_append hroot]

theorem entriesToValues_closed (entries : List (String × Value)) :
    entriesToValues (closed entries) = entries := by
  induction entries with
  | nil => rfl
  | cons entry entries ih =>
      exact congrArg ((entry.1, entry.2) :: ·) ih

theorem entriesToValues_root (tables : List (String × List (String × Value))) :
    entriesToValues (root tables) = tables.map fun table => (table.1, .table table.2) := by
  induction tables with
  | nil => rfl
  | cons table tables ih =>
      have htable : (Node.table .defined (closed table.2)).toValue = .table table.2 := by
        rw [Node.toValue, entriesToValues_closed]
      rw [List.map_cons, ← ih, ← htable]
      rfl

end Tables

section Lines

theorem keyPart?_bare {name : String} (h : isBare name.toList = true) :
    keyPart? (.atom name.toList) = some name := by
  rw [keyPart?, if_pos (Bool.and_eq_true_iff.mp h).2, String.ofList_toList]

theorem readPart?_bare {name : String} (h : isBare name.toList = true) (place : Place)
    (document : Document) :
    readPart? place [] (.atom name.toList) document = some (.afterPart place [name], document) := by
  have hpart : readPart? place [] (.atom name.toList) document =
      (keyPart? (.atom name.toList)).map fun name => (.afterPart place [name], document) := rfl
  rw [hpart, keyPart?_bare h, Option.map_some]

/-- A key on a line with the value that is read for it. -/
structure Line where
  key : String
  written : List Char
  value : Value
  bare : isBare key.toList = true
  isRead : Reads written value

structure Table where
  name : String
  lines : List Line
  bare : isBare name.toList = true
  nodup : (lines.map Line.key).Nodup

def Line.ofText (key : String) (h : isBare key.toList = true) (text : String) : Line :=
  ⟨key, quote text, .string text, h, reads_quote text⟩

def Line.ofBool (key : String) (h : isBare key.toList = true) (value : Bool) : Line :=
  ⟨key, Shell.boolText value, .boolean value, h, reads_bool value⟩

def Line.ofNat (key : String) (h : isBare key.toList = true) (n : Nat)
    (hn : n < 0x100000000000000000000000000000000) : Line :=
  ⟨key, digits n, .integer n, h, reads_digits hn⟩

def Line.text (line : Line) : List Char := Shell.entryLine line.key line.written

@[simp] theorem Line.text_ofText (key : String) (h : isBare key.toList = true) (text : String) :
    (Line.ofText key h text).text = Shell.entryLine key (quote text) := rfl

@[simp] theorem Line.text_ofBool (key : String) (h : isBare key.toList = true) (value : Bool) :
    (Line.ofBool key h value).text = Shell.entryLine key (Shell.boolText value) := rfl

@[simp] theorem Line.text_ofNat (key : String) (h : isBare key.toList = true) (n : Nat)
    (hn : n < 0x100000000000000000000000000000000) :
    (Line.ofNat key h n hn).text = Shell.entryLine key (digits n) := rfl

def Line.entry (line : Line) : String × Value := (line.key, line.value)

def Table.text (table : Table) : List Char :=
  '[' :: (table.name.toList ++ ']' :: '\n' :: table.lines.flatMap Line.text)

theorem Table.text_eq {table : Table} {header : List Char}
    (h : header = '[' :: (table.name.toList ++ [']', '\n'])) :
    table.text = header ++ table.lines.flatMap Line.text := by
  rw [h, Table.text, List.cons_append, List.append_assoc]
  rfl

def Table.entries (table : Table) : List (String × Value) := table.lines.map Line.entry

def Table.content (table : Table) : String × List (String × Value) := (table.name, table.entries)

variable {document : Document}

theorem run?_line (line : Line) (rest : List Char) : run? (.start, document) (line.text ++ rest) =
    (document.assign [] line.key line.value).bind fun document => run? (.start, document) rest := by
  have htext : line.text ++ rest =
      line.key.toList ++ ' ' :: '=' :: ' ' :: (line.written ++ '\n' :: rest) := by
    simp only [Line.text, Shell.entryLine, List.append_assoc]
    rfl
  have hkey : step? (.start, document) (.atom line.key.toList) =
      readPart? .statement [] (.atom line.key.toList) document := rfl
  have hgap : step? (.afterPart .statement [line.key], document) (.blank [' ']) =
      some (.afterPart .statement [line.key], document) := rfl
  have hequals : ∀ cs, token? '=' cs = some (.equals, cs) := fun _ => rfl
  have hvalue : step? (.afterPart .statement [line.key], document) .equals =
      some (.value [.statement [line.key]], document) := rfl
  rw [htext, run?_bare line.bare rfl, hkey, readPart?_bare line.bare, Option.bind_some,
    run?_space rfl, hgap, Option.bind_some, run?_token (hequals _), hvalue, Option.bind_some]
  exact line.isRead line.key document rest

theorem run?_nil : run? (.start, document) [] = some (.start, document) := by
  rw [run?, tokens?]
  rfl

theorem run?_newline (rest : List Char) :
    run? (.start, document) ('\n' :: rest) = run? (.start, document) rest := by
  have htoken : token? '\n' rest = some (.newline, rest) := rfl
  rw [run?_token htoken]
  rfl

theorem run?_header {name : String} (h : isBare name.toList = true) (rest : List Char) :
    run? (.start, document) ('[' :: (name.toList ++ ']' :: '\n' :: rest)) =
      (document.openTable [] name).bind fun document => run? (.start, document) rest := by
  have hopen : ∀ cs, token? '[' cs = some (.openBracket, cs) := fun _ => rfl
  have hheader : step? (.start, document) .openBracket = some (.openHeader, document) := rfl
  have hname : step? (.openHeader, document) (.atom name.toList) =
      readPart? .table [] (.atom name.toList) document := rfl
  have hclose : ∀ cs, token? ']' cs = some (.closeBracket, cs) := fun _ => rfl
  have htable : step? (.afterPart .table [name], document) .closeBracket =
      (document.openTable [] name).map fun document => (.done, document) := rfl
  have hbreak : ∀ cs, token? '\n' cs = some (.newline, cs) := fun _ => rfl
  rw [run?_token (hopen _), hheader, Option.bind_some, run?_bare h rfl, hname,
    readPart?_bare h, Option.bind_some, run?_token (hclose _), htable, Option.bind_map]
  refine congrArg _ (funext fun document => ?_)
  exact run?_token (hbreak rest)

/-- The lines under a header give their keys to the table that it has begun. -/
theorem run?_lines {tables : List (String × List (String × Value))} {name : String}
    (hname : name ∉ tables.map Prod.fst) (lines : List Line) (entries : List (String × Value))
    (hkeys : (entries.map Prod.fst ++ lines.map Line.key).Nodup) (rest : List Char) :
    run? (.start, ⟨root (tables ++ [(name, entries)]), [name]⟩)
        (lines.flatMap Line.text ++ rest) =
      run? (.start, ⟨root (tables ++ [(name, entries ++ lines.map Line.entry)]), [name]⟩) rest := by
  -- each line adds its key to what the table has already, so the entries vary
  induction lines generalizing entries with
  | nil => rw [List.map_nil, List.append_nil, List.flatMap_nil, List.nil_append]
  | cons line lines ih =>
      have hfresh : line.key ∉ entries.map Prod.fst := by
        intro hmem
        exact (List.nodup_append.mp hkeys).2.2 _ hmem _ List.mem_cons_self rfl
      have hnext : ((entries ++ [line.entry]).map Prod.fst ++ lines.map Line.key).Nodup := by
        rw [List.map_append, List.append_assoc]
        exact hkeys
      have hassign := assign_root hname hfresh line.value
      rw [List.flatMap_cons, List.append_assoc, run?_line, hassign, Option.bind_some]
      refine (ih (entries ++ [line.entry]) hnext).trans ?_
      rw [List.map_cons, List.append_assoc, List.singleton_append]

theorem run?_table {tables : List (String × List (String × Value))} {header : List String}
    (table : Table) (hname : table.name ∉ tables.map Prod.fst) (rest : List Char) :
    run? (.start, ⟨root tables, header⟩) (table.text ++ rest) =
      run? (.start, ⟨root (tables ++ [table.content]), [table.name]⟩) rest := by
  have htext : table.text ++ rest =
      '[' :: (table.name.toList ++ ']' :: '\n' :: (table.lines.flatMap Line.text ++ rest)) := by
    simp only [Table.text, List.cons_append, List.append_assoc]
  rw [htext, run?_header table.bare, openTable_root hname, Option.bind_some]
  exact run?_lines hname table.lines [] table.nodup rest

theorem run?_tables {done : List (String × List (String × Value))} {header : List String}
    (tables : List Table) (hnames : (done.map Prod.fst ++ tables.map Table.name).Nodup) :
    ∃ header', run? (.start, ⟨root done, header⟩)
        (tables.flatMap fun table => '\n' :: table.text) =
      some (.start, ⟨root (done ++ tables.map Table.content), header'⟩) := by
  induction tables generalizing done header with
  | nil =>
      refine ⟨header, ?_⟩
      rw [List.map_nil, List.append_nil, List.flatMap_nil, run?_nil]
  | cons table tables ih =>
      have hfresh : table.name ∉ done.map Prod.fst := by
        intro hmem
        exact (List.nodup_append.mp hnames).2.2 _ hmem _ List.mem_cons_self rfl
      have hnext : ((done ++ [table.content]).map Prod.fst ++ tables.map Table.name).Nodup := by
        rw [List.map_append, List.append_assoc]
        exact hnames
      obtain ⟨header', htables⟩ := @ih (done ++ [table.content]) [table.name] hnext
      refine ⟨header', ?_⟩
      rw [List.flatMap_cons, List.cons_append, run?_newline, run?_table table hfresh, htables,
        List.map_cons, List.append_assoc, List.singleton_append]

theorem ofText?_of_run {cs : List Char} (hmark : cs.head? ≠ some '\ufeff')
    (h : run? (.start, .empty) cs = some (.start, document)) :
    ofText? (String.ofList cs) = some (entriesToValues document.root) := by
  obtain ⟨tokens, htokens, hrun⟩ := Option.bind_eq_some_iff.mp h
  have hread : ofTokens? tokens = some (entriesToValues document.root) := by
    rw [ofTokens?, hrun]
  rw [ofText?, String.toList_ofList]
  split
  · exact absurd rfl hmark
  · rw [htokens]
    exact hread

end Lines

/-- A document that has one table after the other, with empty lines between them. -/
def tableText (tables : List Table) : List Char :=
  (tables.flatMap fun table => '\n' :: table.text).drop 1

theorem ofText?_tableText {tables : List Table} (h : (tables.map Table.name).Nodup) :
    ofText? (String.ofList (tableText tables)) =
      some (tables.map fun table => (table.name, .table table.entries)) := by
  have hmark : (tableText tables).head? ≠ some '\ufeff' := by
    cases tables with
    | nil => exact fun h => nomatch h
    | cons table tables => exact fun h => nomatch h
  obtain ⟨header, htables⟩ := @run?_tables [] [] tables h
  have hrun : run? (.start, .empty) (tableText tables) =
      some (.start, ⟨root (tables.map Table.content), header⟩) := by
    cases tables with
    | nil => exact htables
    | cons table tables => exact (run?_newline _).symm.trans htables
  rw [ofText?_of_run hmark hrun, entriesToValues_root, List.map_map]
  rfl

end DocShell.Toml
