import DocShell.Completion.Context
import DocShell.Proofs.Lossless
import DocShell.Proofs.Replacement

namespace DocShell.Query

open DocShell.Text.Blank
open DocShell.Text.Bytes

theorem isBlank_of_isSeparator {c : Char} (h : isSeparator c = true) : isBlank c = true := by
  rcases eq_of_isSeparator h with rfl | rfl | rfl | rfl <;> decide

theorem isBlank_of_isWordChar {c : Char} (h : isWordChar c = true) : isBlank c = false := by
  have hcode : 45 ≤ c.toNat ∧ c.toNat < 123 := by
    simp only [isWordChar, isWordStart, Bool.or_eq_true, beq_iff_eq] at h
    rcases h with ((((halpha | rfl) | rfl) | rfl) | rfl) | hdigit
    · have hrange := isAlpha_iff.mp halpha
      omega
    · decide
    · decide
    · decide
    · decide
    · have hrange : '0'.toNat ≤ c.toNat ∧ c.toNat ≤ '9'.toNat := by
        simpa [Char.isDigit, UInt32.le_iff_toNat_le] using hdigit
      simp only [Char.reduceToNat] at hrange
      omega
  have hall : ∀ code : Fin 123, 45 ≤ code.val →
      blankRanges.any (fun range => range.1 ≤ code.val && code.val ≤ range.2) = false := by
    decide
  exact hall ⟨c.toNat, hcode.2⟩ hcode.1

theorem stopOf_concat (position : Nat) (front : List Lexeme) (last : Lexeme) :
    stopOf position (front ++ [last]) = last.stop := by
  induction front generalizing position with
  | nil => rfl
  | cons lexeme front ih => exact ih lexeme.stop

theorem exists_append_gap (text : List Char) : ∃ before gap, text = before ++ gap ∧
    byteLength before = stopOf 0 (lexemes text) ∧ ∀ c ∈ gap, isSeparator c = true := by
  have hcovers : Covers 0 text (lexemes text ++ ⟨.endOfInput, [], byteLength text⟩ :: []) :=
    covers_tokenize text
  obtain ⟨before, gap, after, htext, hbefore, hgap, hstart⟩ := hcovers.split
  rw [Nat.zero_add] at hbefore
  have hlength := congrArg byteLength htext
  rw [← hbefore] at hstart
  simp only [byteLength_append, byteLength_nil] at hlength hstart
  have hafter : after = [] := byteLength_eq_zero_iff.mp (by omega)
  exact ⟨before, gap, by simpa [hafter] using htext, hbefore, hgap⟩

/-- A word at the end of a text is being typed exactly if no blank ends the text. A blank that is no
separator would be a lexeme behind the word. -/
theorem stop_eq_iff_not_endsBlank {text : List Char} {front : List Lexeme} {word : Lexeme}
    (h : lexemes text = front ++ [word]) (hword : word.kind = .word) :
    word.stop = byteLength text ↔ endsBlank text = false := by
  have hmem : word ∈ lexemes text := by simp [h]
  constructor
  · intro hstop
    obtain ⟨hne, before, htext, -⟩ := exists_append_source hmem hstop
    have htoken : ⟨.word, word.literal⟩ ∈ tokensFrom true text :=
      List.mem_map.mpr ⟨word, hmem, by rw [Lexeme.token, hword]⟩
    have hchars := (isField_of_mem_tokensFrom htoken).chars
    rw [Lexeme.literal_of_word hword] at hchars
    obtain ⟨last, hlast⟩ := List.getLast?_isSome.mpr hne |> Option.isSome_iff_exists.mp
    rw [endsBlank, htext, List.getLast?_append, hlast]
    exact isBlank_of_isWordChar (hchars last (List.mem_of_getLast? hlast))
  · intro hblank
    obtain ⟨before, gap, htext, hbefore, hgap⟩ := exists_append_gap text
    rw [h, stopOf_concat] at hbefore
    cases hlast : gap.getLast? with
    | none =>
        rw [List.getLast?_eq_none_iff] at hlast
        rw [← hbefore, htext, hlast, List.append_nil]
    | some last =>
        rw [endsBlank, htext, List.getLast?_append, hlast] at hblank
        have hlast := isBlank_of_isSeparator (hgap last (List.mem_of_getLast? hlast))
        simp [hlast] at hblank

end DocShell.Query

namespace DocShell.Completion

open DocShell.Query
open DocShell.Text.Blank
open DocShell.Text.Bytes

/-- The lexemes in front of a cursor, the end among them, and the text that they are read from. -/
structure Stream where
  found : List Lexeme
  text : List Char
  cursor : Nat

namespace Stream

/-- The lexeme at a place. Behind the last one there is that one again. -/
def get? (stream : Stream) (place : Nat) : Option Lexeme :=
  stream.found[min place (stream.found.length - 1)]?

/-- Whether the lexeme at a place is a word that is being typed: there is only the end behind it,
and no blank in front of the cursor. -/
def isOpen? (stream : Stream) (place : Nat) : Option Bool := do
  let lexeme ← stream.get? place
  return lexeme.kind == .word && !endsBlank stream.text && place + 2 == stream.found.length

def isUnterminated? (stream : Stream) (lexeme : Lexeme) : Option Bool := do
  if lexeme.kind ≠ .string then return false
  match ← slice? stream.text lexeme.start lexeme.stop with
  | quote :: rest => return rest.getLast? != some quote
  | [] => return true

/-- The position from which a completion replaces the text. -/
def replacedFrom? (stream : Stream) : Option Nat := do
  let last := stream.found.length - 2
  if 2 ≤ stream.found.length then
    if ← stream.isOpen? last then return (← stream.found[last]?).start
  return stream.cursor

def ofText (text : List Char) : Stream := ⟨tokenize text, text, byteLength text⟩

theorem length_found_ofText (text : List Char) :
    (ofText text).found.length = (lexemes text).length + 1 := by
  simp [ofText, tokenize]

variable {text : List Char} {place : Nat}

theorem get?_ofText (h : place ≤ (lexemes text).length) : (ofText text).get? place =
    some (((lexemes text).drop place).headD ⟨.endOfInput, [], byteLength text⟩) := by
  have hplace : min place ((ofText text).found.length - 1) = place := by
    rw [length_found_ofText]
    omega
  rw [get?, hplace, ofText, tokenize, ← List.head?_drop, List.drop_append_of_le_length h]
  cases (lexemes text).drop place <;> rfl

theorem isOpen?_ofText (h : place ≤ (lexemes text).length) : (ofText text).isOpen? place =
    some (Context.openWord? (byteLength text) ((lexemes text).drop place)).isSome := by
  have hlength := (lexemes text).length_drop (i := place)
  rw [isOpen?, get?_ofText h, length_found_ofText]
  show some (_ && !endsBlank text && _) = _
  rcases hahead : (lexemes text).drop place with _ | ⟨lexeme, _ | ⟨next, rest⟩⟩
  · rfl
  · rw [hahead, List.length_singleton] at hlength
    have hlast : lexemes text = (lexemes text).take place ++ [lexeme] := by
      rw [← hahead, List.take_append_drop]
    have hplace : place + 2 = (lexemes text).length + 1 := by omega
    by_cases hword : lexeme.kind = .word
    · have hopen := stop_eq_iff_not_endsBlank hlast hword
      cases hblank : endsBlank text <;> simp [Context.openWord?, hword, hplace, hopen, hblank]
    · simp [Context.openWord?, hword]
  · rw [hahead, List.length_cons, List.length_cons] at hlength
    have hplace : (place + 2 == (lexemes text).length + 1) = false := by
      rw [beq_eq_false_iff_ne]
      omega
    rw [hplace, Bool.and_false]
    rfl

theorem isUnterminated?_ofText {lexeme : Lexeme} (h : lexeme ∈ lexemes text) :
    (ofText text).isUnterminated? lexeme = some lexeme.isUnterminated := by
  rw [isUnterminated?, ofText]
  by_cases hstring : lexeme.kind = .string
  · rw [if_neg (not_not_intro hstring), Lexeme.isUnterminated, hstring,
      (standsIn_of_mem h).slice_eq]
    cases lexeme.source <;> rfl
  · rw [if_pos hstring, Lexeme.isUnterminated]
    simp [hstring]

theorem replacedFrom?_ofText : (ofText text).replacedFrom? = some (replacedFrom text) := by
  rw [replacedFrom?, replacedFrom, length_found_ofText]
  rcases List.eq_nil_or_concat (lexemes text) with hnil | ⟨front, last, hlast⟩
  · rw [hnil]
    rfl
  · rw [List.concat_eq_append] at hlast
    have hplace : (lexemes text).length + 1 - 2 = front.length := by simp [hlast]
    have hopen : (ofText text).isOpen? front.length = _ := isOpen?_ofText (by simp [hlast])
    have hfound : (ofText text).found[front.length]? = some last := by
      simp [ofText, tokenize, hlast]
    rw [if_pos (by simp [hlast]), hplace, hopen, hfound, hlast, List.drop_left,
      List.getLast?_concat]
    dsimp only [Context.openWord?]
    split <;> rfl

end Stream

end DocShell.Completion
