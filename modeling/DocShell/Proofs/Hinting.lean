import DocShell.Editor.Hint
import DocShell.Proofs.Cursor

namespace DocShell.Completion

open DocShell.Text.Bytes

/-- The line with the value of an entry in place of what the entry replaces. The space behind an
entry that was chosen is not part of it. -/
def MenuEntry.applied? (entry : MenuEntry) (line : List Char) : Option (List Char) := do
  let (front, _) ← splitAt? line entry.start
  let (_, back) ← splitAt? line entry.stop
  return front ++ entry.value.toList ++ back

/-- The only completion at the end of a line goes on from the characters that were typed, and makes
the line a longer one. -/
def Completes (names : String → List String) (line longer : List Char) : Prop :=
  ∃ front typed offer, line = front ++ typed ∧ typed ≠ [] ∧
    complete names line (byteLength line) = (byteLength front, [offer]) ∧
    longer = front ++ offer.text.toList

variable {names : String → List String} {line longer : List Char}

theorem exists_append_typed (names : String → List String) (line : List Char) :
    ∃ front typed, line = front ++ typed ∧
      (complete names line (byteLength line)).1 = byteLength front := by
  have hstart : (complete names line (byteLength line)).1 = replacedFrom line := by
    rw [complete, upTo_byteLength]
  obtain ⟨hlength, typed, htyped⟩ := exists_upTo_append (exists_typed line).1
  exact ⟨upTo line (replacedFrom line), typed, htyped, hstart.trans hlength.symm⟩

theorem Completes.exists_entry (h : Completes names line longer) :
    ∃ entry, menu names line (byteLength line) = [entry] ∧ entry.applied? line = some longer := by
  obtain ⟨front, typed, offer, rfl, htyped, hcomplete, rfl⟩ := h
  have hpos : byteLength typed ≠ 0 := mt byteLength_eq_zero_iff.mp htyped
  have hstart : byteLength front ≠ byteLength (front ++ typed) := by
    rw [byteLength_append]
    omega
  refine ⟨⟨offer.text, offer.description, byteLength front, byteLength (front ++ typed)⟩, ?_, ?_⟩
  · rw [menu, hcomplete]
    simp only [beq_eq_false_iff_ne.mpr hstart, Bool.false_and, Bool.false_eq_true, if_false,
      List.map_cons, List.map_nil]
  · rw [MenuEntry.applied?, splitAt?_append, splitAt?_byteLength]
    show some (front ++ offer.text.toList ++ []) = _
    rw [List.append_nil]

end DocShell.Completion

namespace DocShell.Editor

open DocShell.Completion
open DocShell.Text.Blank
open DocShell.Text.Bytes

namespace History

/-- The entry begins with the text, and none of those submitted after it does. -/
def IsLatest (history : History) (text : List Char) (entry : String) : Prop :=
  ∃ newer older, history.lines = newer ++ entry :: older ∧ text <+: entry.toList ∧
    ∀ line ∈ newer, ¬text <+: line.toList

theorem IsLatest.begins {history : History} {text : List Char} {entry : String}
    (h : history.IsLatest text entry) : text <+: entry.toList := by
  obtain ⟨-, -, -, hbegins, -⟩ := h
  exact hbegins

theorem latest?_eq_some_iff {history : History} {text : List Char} {entry : String} :
    history.latest? text = some entry ↔ history.IsLatest text entry := by
  rw [latest?, List.find?_eq_some_iff_append, IsLatest]
  constructor
  · rintro ⟨hbegins, newer, older, hlines, hnewer⟩
    refine ⟨newer, older, hlines, List.isPrefixOf_iff_prefix.mp hbegins, fun line hline => ?_⟩
    have hnot := hnewer line hline
    rwa [Bool.not_eq_true', ← Bool.not_eq_true, List.isPrefixOf_iff_prefix] at hnot
  · rintro ⟨newer, older, hlines, hbegins, hnewer⟩
    refine ⟨List.isPrefixOf_iff_prefix.mpr hbegins, newer, older, hlines, fun line hline => ?_⟩
    rw [Bool.not_eq_true', ← Bool.not_eq_true, List.isPrefixOf_iff_prefix]
    exact hnewer line hline

end History

namespace Hint

variable {names : String → List String} {history : History} {text line rest hint : List Char}
  {position : Nat}

/-- What follows `text` in a longer line that begins with it, where the line is cut behind as many
bytes as `text` has. -/
def cutRest? (text line : List Char) : Option (Option (List Char)) :=
  if byteLength text < byteLength line ∧ text <+: line then
    (splitAt? line (byteLength text)).map fun parts => some parts.2
  else some none

def cutCompletion? (names : String → List String) (line : List Char) :
    Option (Option (List Char)) :=
  let (start, offers) := complete names line (byteLength line)
  match offers with
  | [offer] => do
      let (_, typed) ← splitAt? line start
      if typed.isEmpty then some none else cutRest? typed offer.text.toList
  | _ => some none

/-- The hint at a position of a line, where lines and suggestions are cut at byte positions that
come from other texts. There is no result if a cut fails. -/
def cutLine? (names : String → List String) (history : History) (line : List Char)
    (position : Nat) : Option (List Char) := do
  if position ≠ byteLength line ∨ isAllBlank line then return []
  let fromHistory ← match history.latest? line with
    | some entry => cutRest? line entry.toList
    | none => some none
  match fromHistory with
  | some hint => return hint
  | none => return (← cutCompletion? names line).getD []

theorem cutRest?_eq (text line : List Char) : cutRest? text line = some (rest? text line) := by
  rw [cutRest?]
  split
  · rename_i hlonger
    obtain ⟨hlt, rest, rfl⟩ := hlonger
    have hrest : rest ≠ [] := by
      rintro rfl
      rw [List.append_nil] at hlt
      exact Nat.lt_irrefl _ hlt
    rw [splitAt?_append, rest?_eq_some_iff.mpr ⟨rfl, hrest⟩]
    rfl
  · rename_i hshort
    rw [eq_comm, Option.some.injEq, Option.eq_none_iff_forall_ne_some]
    intro rest hsome
    obtain ⟨rfl, hrest⟩ := rest?_eq_some_iff.mp hsome
    have hpos : byteLength rest ≠ 0 := mt byteLength_eq_zero_iff.mp hrest
    refine hshort ⟨?_, List.prefix_append text rest⟩
    rw [byteLength_append]
    omega

theorem cutCompletion?_eq (names : String → List String) (line : List Char) :
    cutCompletion? names line = some (ofCompletion? names line) := by
  obtain ⟨front, typed, hline, hstart⟩ := exists_append_typed names line
  rw [cutCompletion?, ofCompletion?]
  generalize complete names line (byteLength line) = completion at hstart
  obtain ⟨start, offers⟩ := completion
  obtain rfl : start = byteLength front := hstart
  have hcut := splitAt?_append front typed
  rw [← hline] at hcut
  rcases offers with _ | ⟨offer, _ | ⟨other, offers⟩⟩
  · rfl
  · simp only [hcut]
    show (if typed.isEmpty then some none else cutRest? typed offer.text.toList) = _
    rw [cutRest?_eq]
    split <;> rfl
  · rfl

theorem cutLine?_eq (names : String → List String) (history : History) (line : List Char)
    (position : Nat) :
    cutLine? names history line position = some (ofLine names history line position) := by
  rw [cutLine?, ofLine]
  split
  · rfl
  · rw [ofHistory?, cutCompletion?_eq]
    cases history.latest? line with
    | none => rfl
    | some entry =>
        dsimp only
        rw [cutRest?_eq]
        cases hrest : rest? line entry.toList with
        | none => simp [hrest]
        | some hint => simp [hrest]

theorem ofHistory?_eq_some_iff : ofHistory? history line = some hint ↔
    hint ≠ [] ∧ ∃ entry, history.IsLatest line entry ∧ line ++ hint = entry.toList := by
  rw [ofHistory?, Option.bind_eq_bind, Option.bind_eq_some_iff]
  constructor
  · rintro ⟨entry, hlatest, hrest⟩
    obtain ⟨hline, hhint⟩ := rest?_eq_some_iff.mp hrest
    exact ⟨hhint, entry, History.latest?_eq_some_iff.mp hlatest, hline⟩
  · rintro ⟨hhint, entry, hlatest, hline⟩
    exact ⟨entry, History.latest?_eq_some_iff.mpr hlatest, rest?_eq_some_iff.mpr ⟨hline, hhint⟩⟩

theorem ofHistory?_eq_none_iff : ofHistory? history line = none ↔
    ∀ entry, history.IsLatest line entry → line = entry.toList := by
  rw [Option.eq_none_iff_forall_ne_some]
  constructor
  · intro hnone entry hlatest
    obtain ⟨rest, hrest⟩ := hlatest.begins
    rcases eq_or_ne rest [] with rfl | hne
    · rwa [List.append_nil] at hrest
    · exact absurd (ofHistory?_eq_some_iff.mpr ⟨hne, entry, hlatest, hrest⟩) (hnone rest)
  · intro hsame hint hsome
    obtain ⟨hhint, entry, hlatest, hline⟩ := ofHistory?_eq_some_iff.mp hsome
    rw [← hsame entry hlatest] at hline
    exact hhint (List.append_right_eq_self.mp hline)

theorem ofCompletion?_eq_some_iff : ofCompletion? names line = some hint ↔
    hint ≠ [] ∧ Completes names line (line ++ hint) := by
  constructor
  · intro hsome
    obtain ⟨front, typed, hline, hstart⟩ := exists_append_typed names line
    rw [ofCompletion?] at hsome
    cases hcomplete : complete names line (byteLength line) with
    | mk start offers =>
        rw [hcomplete] at hsome hstart
        obtain rfl : start = byteLength front := hstart
        have hcut := splitAt?_append front typed
        rw [← hline] at hcut
        rcases offers with _ | ⟨offer, _ | ⟨other, offers⟩⟩
        · cases hsome
        · simp only [hcut] at hsome
          split at hsome
          · cases hsome
          · rename_i htyped
            obtain ⟨htext, hhint⟩ := rest?_eq_some_iff.mp hsome
            refine ⟨hhint, front, typed, offer, hline, fun hnil => htyped ?_, hcomplete, ?_⟩
            · rw [hnil, List.isEmpty_nil]
            · rw [hline, List.append_assoc, htext]
        · cases hsome
  · rintro ⟨hhint, front, typed, offer, rfl, htyped, hcomplete, hlonger⟩
    have htext : typed ++ hint = offer.text.toList := by
      rwa [List.append_assoc, List.append_cancel_left_eq] at hlonger
    rw [ofCompletion?, hcomplete]
    simp only [splitAt?_append, List.isEmpty_iff, htyped, if_false]
    exact rest?_eq_some_iff.mpr ⟨htext, hhint⟩

/-- There is a hint exactly at the end of a line that is not blank and that one of the two sources
makes longer, the history if it can. -/
theorem ofLine_eq_iff (hhint : hint ≠ []) : ofLine names history line position = hint ↔
    position = byteLength line ∧ isAllBlank line = false ∧
      ((∃ entry, history.IsLatest line entry ∧ line ++ hint = entry.toList) ∨
        (∀ entry, history.IsLatest line entry → line = entry.toList) ∧
          Completes names line (line ++ hint)) := by
  rw [ofLine]
  split
  · rename_i hunhinted
    refine iff_of_false (Ne.symm hhint) ?_
    rintro ⟨hend, hblank, -⟩
    rcases hunhinted with hinside | hall
    · exact hinside hend
    · rw [hblank] at hall
      cases hall
  · rename_i hhinted
    obtain ⟨hend, hblank⟩ := not_or.mp hhinted
    rw [and_iff_right (not_not.mp hend), and_iff_right (Bool.eq_false_iff.mpr hblank)]
    have hgiven (hint? : Option (List Char)) : hint?.getD [] = hint ↔ hint? = some hint := by
      cases hint? with
      | none => exact iff_of_false (Ne.symm hhint) (by simp)
      | some other => simp
    rw [hgiven, Option.or_eq_some_iff, ofHistory?_eq_some_iff, ofHistory?_eq_none_iff,
      ofCompletion?_eq_some_iff, and_iff_right hhint, and_iff_right hhint]

end Hint

def HintCall.hint (call : HintCall) : List Char :=
  Hint.ofLine call.names call.history call.line call.position

namespace Hinter

variable {hinter : Hinter}

theorem handle_eq (hinter : Hinter) (call : HintCall) :
    hinter.handle call = (if call.ansi then Hint.styled call.hint else call.hint, ⟨call.hint⟩) := by
  rw [handle, HintCall.hint, Hint.ofLine]
  split
  · simp [Hint.styled]
  · dsimp only
    cases (Hint.ofHistory? call.history call.line).or (Hint.ofCompletion? call.names call.line) with
    | none => simp [Hint.styled]
    | some hint => rfl

/-- A run leaves the hint of its last call behind. -/
theorem after_concat (hinter : Hinter) (calls : List HintCall) (call : HintCall) :
    hinter.after (calls ++ [call]) = ⟨call.hint⟩ := by
  rw [after, List.foldl_concat, handle_eq]

theorem nextToken_prefix (hinter : Hinter) : hinter.nextToken <+: hinter.completeHint :=
  ⟨_, firstPiece_append_drop hinter.current⟩

theorem nextToken_ne_nil (h : hinter.completeHint ≠ []) : hinter.nextToken ≠ [] := by
  rw [completeHint] at h
  rw [nextToken, Hint.firstWord]
  cases hcurrent : hinter.current with
  | nil => exact absurd hcurrent h
  | cons c hint =>
      rw [firstPiece]
      split <;> exact List.cons_ne_nil _ _

/-- After any calls a hinter keeps the hint that the last of them gave, as it is written, and no cut
on the way to it fails. There is one exactly at the end of a line that is not blank. It completes
the line to the latest submitted line that begins with it or, if this is none or the line itself, to
what the only entry of the menu makes of it. -/
theorem hint_never_stale (calls : List HintCall) (call : HintCall) :
    ∃ shown hinter,
      (Hinter.new.after calls).handle call = (shown, hinter) ∧
      hinter = Hinter.new.after (calls ++ [call]) ∧
      ((Hinter.new.after calls).handle { call with ansi := false }).1 = hinter.completeHint ∧
      shown = (if call.ansi then Hint.styled hinter.completeHint else hinter.completeHint) ∧
      Hint.cutLine? call.names call.history call.line call.position =
        some hinter.completeHint ∧
      hinter.nextToken <+: hinter.completeHint ∧
      (hinter.completeHint ≠ [] → hinter.nextToken ≠ []) ∧
      ∀ hint, hint ≠ [] → (hinter.completeHint = hint ↔
        call.position = byteLength call.line ∧ isAllBlank call.line = false ∧
          ((∃ entry, call.history.IsLatest call.line entry ∧
              call.line ++ hint = entry.toList) ∨
            (∀ entry, call.history.IsLatest call.line entry → call.line = entry.toList) ∧
              Completes call.names call.line (call.line ++ hint) ∧
              ∃ entry, menu call.names call.line (byteLength call.line) = [entry] ∧
                entry.applied? call.line = some (call.line ++ hint))) := by
  have hhandle := handle_eq (Hinter.new.after calls) call
  have hafter := after_concat Hinter.new calls call
  have hplain := handle_eq (Hinter.new.after calls) { call with ansi := false }
  have hcut := Hint.cutLine?_eq call.names call.history call.line call.position
  refine ⟨_, _, hhandle, hafter.symm, congrArg Prod.fst hplain, rfl, hcut, nextToken_prefix _,
    nextToken_ne_nil, fun hint hhint => (Hint.ofLine_eq_iff hhint).trans ?_⟩
  have hmenu : Completes call.names call.line (call.line ++ hint) →
      ∃ entry, menu call.names call.line (byteLength call.line) = [entry] ∧
        entry.applied? call.line = some (call.line ++ hint) := Completes.exists_entry
  rw [and_iff_left_of_imp hmenu]

/-- The line was submitted as it is, so its hint is a word of the grammar. Inside the line there is
none any more. -/
example :
    let history := History.ofLines 100 ["COUNT users WHERE a == 1", "COUNT users W"]
    let call (position : Nat) : HintCall :=
      ⟨fun _ => [], history, "COUNT users W".toList, position, true⟩
    (Hinter.new.after [call 13]).nextToken = "HERE".toList ∧
      (Hinter.new.after [call 13, call 2]).completeHint = [] := by
  decide +kernel

end Hinter

end DocShell.Editor
