import DocShell.Completion.Menu
import DocShell.Proofs.Indexing
import Mathlib.Order.Bounds.Basic

namespace DocShell.Completion

open DocShell.Query
open DocShell.Text.Blank
open DocShell.Text.Bytes

namespace Stream

/-- The nearest boundary of a line at or in front of a position, searched for byte by byte. -/
def lastBoundary (line : List Char) : Nat → Nat
  | 0 => 0
  | position + 1 =>
      if position + 1 ∈ boundaries line then position + 1 else lastBoundary line position

def ofLine? (line : List Char) (position : Nat) : Option Stream := do
  let cursor := lastBoundary line (min position (byteLength line))
  let text ← slice? line 0 cursor
  return ⟨tokenize text, text, cursor⟩

end Stream

/-- The suggestions at a position of a line, and the position from which they replace its text. -/
def complete? (names : String → List String) (line : List Char) (position : Nat) :
    Option (Nat × List Offer) := do
  let stream ← Stream.ofLine? line position
  let context ← stream.context?
  let start ← stream.replacedFrom?
  return (start, context.replacements ((context.base?.map names).getD []))

/-- Whether suggestions that replace nothing touch what is before them. The line is cut at the very
position, boundary or not. -/
def touches? (line : List Char) (start position : Nat) : Option Bool :=
  if start = position then
    (slice? line 0 position).map fun text => text.getLast?.any fun c => !isBlank c
  else some false

def menu? (names : String → List String) (line : List Char) (position : Nat) :
    Option (List MenuEntry) := do
  let (start, offers) ← complete? names line position
  let touches ← touches? line start position
  return offers.map fun offer =>
    ⟨if touches then " " ++ offer.text else offer.text, offer.description, start, position⟩

section Line

variable {line : List Char} {position : Nat}

theorem byteLength_upTo_mono (cs : List Char) {position position' : Nat}
    (h : position ≤ position') :
    byteLength (upTo cs position) ≤ byteLength (upTo cs position') := by
  induction cs generalizing position position' with
  | nil => exact Nat.le_refl _
  | cons c cs ih =>
      rw [upTo, upTo]
      split
      · rw [if_pos (by omega), byteLength_cons, byteLength_cons]
        exact Nat.add_le_add_left (ih (by omega)) _
      · exact Nat.zero_le _

theorem isGreatest_byteLength_upTo (line : List Char) (position : Nat) :
    IsGreatest {boundary | boundary ∈ boundaries line ∧ boundary ≤ position}
      (byteLength (upTo line position)) := by
  obtain ⟨back, hback⟩ := upTo_prefix line position
  constructor
  · refine ⟨?_, byteLength_upTo_le line position⟩
    have hmem := byteLength_mem_boundaries (upTo line position) back
    rwa [← hback] at hmem
  · rintro boundary ⟨hmem, hle⟩
    rw [← (exists_upTo_append hmem).1]
    exact byteLength_upTo_mono line hle

theorem lastBoundary_isGreatest (line : List Char) (position : Nat) :
    IsGreatest {boundary | boundary ∈ boundaries line ∧ boundary ≤ position}
      (Stream.lastBoundary line position) := by
  induction position with
  | zero =>
      refine ⟨⟨?_, Nat.le_refl _⟩, fun boundary h => h.2⟩
      exact byteLength_mem_boundaries [] line
  | succ position ih =>
      rw [Stream.lastBoundary]
      split
      · rename_i hmem
        exact ⟨⟨hmem, Nat.le_refl _⟩, fun boundary h => h.2⟩
      · rename_i hmem
        refine ⟨⟨ih.1.1, Nat.le_succ_of_le ih.1.2⟩, ?_⟩
        rintro boundary ⟨hboundary, hle⟩
        have hne : boundary ≠ position + 1 := ne_of_mem_of_not_mem hboundary hmem
        exact ih.2 ⟨hboundary, by omega⟩

theorem slice?_append_back (text back : List Char) (start : Nat) :
    slice? (text ++ back) start (byteLength text) = slice? text start (byteLength text) := by
  rw [slice?, slice?, splitAt?_append, splitAt?_byteLength]
  rfl

theorem mem_boundaries_append {text : List Char} {boundary : Nat} (h : boundary ∈ boundaries text)
    (back : List Char) : boundary ∈ boundaries (text ++ back) := by
  obtain ⟨hlength, rest, hrest⟩ := exists_upTo_append h
  have hmem := byteLength_mem_boundaries (upTo text boundary) (rest ++ back)
  rwa [← List.append_assoc, ← hrest, hlength] at hmem

theorem ofLine?_eq (line : List Char) (position : Nat) :
    Stream.ofLine? line position = some (.ofText (upTo line position)) := by
  have hbounded :
      {boundary | boundary ∈ boundaries line ∧ boundary ≤ min position (byteLength line)} =
        {boundary | boundary ∈ boundaries line ∧ boundary ≤ position} := by
    ext boundary
    constructor
    · exact fun h => ⟨h.1, Nat.le_trans h.2 (Nat.min_le_left _ _)⟩
    · exact fun h => ⟨h.1, Nat.le_min.mpr ⟨h.2, le_byteLength_of_mem_boundaries h.1⟩⟩
  have hlast := lastBoundary_isGreatest line (min position (byteLength line))
  rw [hbounded] at hlast
  have hcursor := hlast.unique (isGreatest_byteLength_upTo line position)
  rw [Stream.ofLine?, hcursor, slice?_upTo]
  rfl

theorem complete?_eq (names : String → List String) (line : List Char) (position : Nat) :
    complete? names line position = some (complete names line position) := by
  rw [complete?, ofLine?_eq]
  show ((Stream.ofText (upTo line position)).context? >>= fun context =>
    (Stream.ofText (upTo line position)).replacedFrom? >>= fun start => _) = _
  rw [Stream.context?_ofText, Stream.replacedFrom?_ofText]
  rfl

theorem replacedFrom_cases (text : List Char) : replacedFrom text = byteLength text ∨
    ∃ front word, lexemes text = front ++ [word] ∧ word.kind = .word ∧
      word.start = replacedFrom text ∧ word.stop = byteLength text := by
  rcases List.eq_nil_or_concat (lexemes text) with hnil | ⟨front, word, hword⟩
  · rw [replacedFrom, hnil]
    exact .inl rfl
  · rw [List.concat_eq_append] at hword
    rw [replacedFrom, hword, List.getLast?_concat]
    dsimp only
    by_cases hopen : word.kind = .word ∧ word.stop = byteLength text
    · rw [if_pos hopen]
      exact .inr ⟨front, word, rfl, hopen.1, rfl, hopen.2⟩
    · rw [if_neg hopen]
      exact .inl rfl

theorem replacedFrom_le (text : List Char) : replacedFrom text ≤ byteLength text := by
  rcases replacedFrom_cases text with hend | ⟨front, word, -, -, hstart, hstop⟩
  · exact Nat.le_of_eq hend
  · rw [← hstart, ← hstop]
    exact Nat.le_add_right _ _

/-- The line is cut at the position only where nothing is replaced, and there the position is a
boundary. -/
theorem touches?_eq (line : List Char) (position : Nat) :
    touches? line (replacedFrom (upTo line position)) position =
      some (replacedFrom (upTo line position) == position &&
        (upTo line position).getLast?.any fun c => !isBlank c) := by
  have hle := replacedFrom_le (upTo line position)
  have hcut := slice?_upTo line position
  generalize replacedFrom (upTo line position) = start at hle
  by_cases hstart : start = position
  · have hcursor : byteLength (upTo line position) = position :=
      Nat.le_antisymm (byteLength_upTo_le line position) (hstart ▸ hle)
    rw [hcursor] at hcut
    rw [touches?, if_pos hstart, hcut, hstart, beq_self_eq_true, Bool.true_and]
    rfl
  · rw [touches?, if_neg hstart, beq_eq_false_iff_ne.mpr hstart, Bool.false_and]

/-- Inside a character the cut fails. Suggestions start on a boundary, so it is not made there. -/
example : touches? "é".toList 1 1 = none ∧ touches? "é".toList 0 1 = some false := by decide

theorem menu?_eq (names : String → List String) (line : List Char) (position : Nat) :
    menu? names line position = some (menu names line position) := by
  rw [menu?, complete?_eq]
  show (touches? line (replacedFrom (upTo line position)) position >>= _) = _
  rw [touches?_eq]
  rfl

/-- What is being typed is in a stream what ends at the cursor: all other lexemes end in front of
a lexeme behind them. -/
theorem isOpen?_eq {text : List Char} {place : Nat} {word : Lexeme}
    (h : (tokenize text)[place]? = some word) (hword : word.kind = .word) :
    (Stream.ofText text).isOpen? place = some (decide (word.stop = byteLength text)) := by
  have hlt : place < (lexemes text).length := by
    by_contra hge
    rw [tokenize, List.getElem?_append_right (by omega), List.getElem?_singleton] at h
    split at h
    · cases h
      cases hword
    · cases h
  rw [tokenize, List.getElem?_append_left hlt] at h
  obtain ⟨_, hget⟩ := List.getElem?_eq_some_iff.mp h
  have hahead := List.drop_eq_getElem_cons hlt
  rw [hget] at hahead
  have hpairwise : ((lexemes text).drop place).Pairwise fun a b => a.stop ≤ b.start :=
    (covers_lexemesFrom true 0 text).pairwise.drop
  rw [Stream.isOpen?_ofText (Nat.le_of_lt hlt)]
  rw [hahead] at hpairwise ⊢
  cases hback : (lexemes text).drop (place + 1) with
  | nil =>
      rw [Context.openWord?]
      by_cases hstop : word.stop = byteLength text <;> simp [hword, hstop]
  | cons next rest =>
      have hnext : next ∈ (lexemes text).drop (place + 1) := by simp [hback]
      have hnext : next ∈ lexemes text := List.mem_of_mem_drop hnext
      have hstands := standsIn_of_mem hnext
      have hbefore : word.stop ≤ next.start :=
        List.rel_of_pairwise_cons hpairwise (by simp [hback])
      have hle := stop_le (hnext : next ∈ lexemesFrom true 0 text)
      have hlt := hstands.start_lt_stop
      have hstop : word.stop ≠ byteLength text := by omega
      simp [Context.openWord?, hstop]

/-- The lexeme that a text is completed from, if any: a word at its end. -/
theorem exists_typed (text : List Char) : replacedFrom text ∈ boundaries text ∧
    ∃ typed, slice? text (replacedFrom text) (byteLength text) = some typed ∧
      (typed = [] ∨ ∃ front word, lexemes text = front ++ [word] ∧ word.kind = .word ∧
        word.start = replacedFrom text ∧ word.stop = byteLength text ∧ word.source = typed) := by
  rcases replacedFrom_cases text with hend | ⟨front, word, hlexemes, hword, hstart, hstop⟩
  · have hcut := slice?_append text [] []
    have hmem := byteLength_mem_boundaries text []
    rw [List.append_nil, List.append_nil] at hcut
    rw [List.append_nil] at hmem
    rw [hend]
    exact ⟨hmem, [], hcut, .inl rfl⟩
  · have hstands := standsIn_of_mem (show word ∈ lexemes text by simp [hlexemes])
    have hmem := hstands.start_mem
    have hslice := hstands.slice_eq
    rw [hstart] at hmem hslice
    rw [hstop] at hslice
    exact ⟨hmem, word.source, hslice, .inr ⟨front, word, hlexemes, hword, hstart, hstop, rfl⟩⟩

/-- No look-up and no cut fails on the way to the suggestions and to the menu, wherever the cursor
is. The suggestions are those at the last boundary of the line that is not behind the cursor, with
what is behind it left out. They replace nothing, or a word that ends there and is the last lexeme:
to be typed still and to end there is the same for a word. The menu has an entry for each of them,
from their start to the cursor itself. -/
theorem complete_safe (names : String → List String) (line : List Char) (position : Nat) :
    ∃ cursor text stream,
      IsGreatest {boundary | boundary ∈ boundaries line ∧ boundary ≤ position} cursor ∧
      slice? line 0 cursor = some text ∧
      Stream.ofLine? line position = some stream ∧
      stream.context? = some (Context.ofText text) ∧
      (∀ place word, (tokenize text)[place]? = some word → word.kind = .word →
        stream.isOpen? place = some (decide (word.stop = cursor))) ∧
      complete? names line position = some (complete names line position) ∧
      complete names line position = complete names text cursor ∧
      (complete names line position).1 ∈ boundaries line ∧
      (complete names line position).1 ≤ cursor ∧
      (∃ typed, slice? line (complete names line position).1 cursor = some typed ∧
        (typed = [] ∨ ∃ front word, lexemes text = front ++ [word] ∧ word.kind = .word ∧
          word.start = (complete names line position).1 ∧ word.stop = cursor ∧
          word.source = typed)) ∧
      menu? names line position = some (menu names line position) ∧
      List.Forall₂ (fun offer entry =>
          entry.start = (complete names line position).1 ∧ entry.stop = position ∧
          entry.description = offer.description ∧
          (entry.value = offer.text ∨ entry.value = " " ++ offer.text))
        (complete names line position).2 (menu names line position) := by
  obtain ⟨back, hback⟩ := upTo_prefix line position
  have hgreatest := isGreatest_byteLength_upTo line position
  have htext := slice?_upTo line position
  have hsame : complete names line position =
      complete names (upTo line position) (byteLength (upTo line position)) := by
    rw [complete, complete, upTo_byteLength]
  obtain ⟨hmem, typed, htyped, hword⟩ := exists_typed (upTo line position)
  rw [← slice?_append_back _ back, ← hback] at htyped
  have hmem := mem_boundaries_append hmem back
  rw [← hback] at hmem
  refine ⟨_, _, _, hgreatest, htext, ofLine?_eq line position, Stream.context?_ofText _,
    fun place word => isOpen?_eq, complete?_eq names line position, hsame, hmem,
    replacedFrom_le _, ⟨typed, htyped, hword⟩, menu?_eq names line position, ?_⟩
  rw [menu]
  refine List.forall₂_map_right_iff.mpr (List.forall₂_same.mpr fun offer _ => ⟨rfl, rfl, rfl, ?_⟩)
  dsimp only
  split
  · exact .inr rfl
  · exact .inl rfl

end Line

end DocShell.Completion
