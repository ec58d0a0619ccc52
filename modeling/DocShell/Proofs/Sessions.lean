import DocShell.Proofs.Joining
import DocShell.Proofs.Recognition
import DocShell.Shell.Program
import Mathlib.Data.List.TakeWhile

/-!
A terminal hands over every line as it was entered; of an input from elsewhere the blanks around
each line are cut off first.
Main statement: the two loops answer every line alike, and leave the pager as the last line that
switches it says.
-/

namespace DocShell.Query

open DocShell.Text.Blank
open DocShell.Text.Bytes

/-- The blanks at both ends of a text separate lexemes: those that do not are absent there. -/
structure EndsPlainly (cs : List Char) : Prop where
  front : ∀ c ∈ cs.takeWhile isBlank, isSeparator c = true
  back : ∀ c ∈ cs.reverse.takeWhile isBlank, isSeparator c = true

theorem EndsPlainly.exists_trim {cs : List Char} (h : EndsPlainly cs) : ∃ front back,
    cs = front ++ (trim cs ++ back) ∧ (∀ c ∈ front, isSeparator c = true) ∧
      ∀ c ∈ back, isSeparator c = true := by
  let rest := cs.dropWhile isBlank
  have hcs : cs.takeWhile isBlank ++ rest = cs := List.takeWhile_append_dropWhile
  have hrest : trim cs ++ (rest.reverse.takeWhile isBlank).reverse = rest := by
    show (rest.reverse.dropWhile isBlank).reverse ++ _ = rest
    rw [← List.reverse_append, List.takeWhile_append_dropWhile, List.reverse_reverse]
  refine ⟨_, _, (congrArg (cs.takeWhile isBlank ++ ·) hrest ▸ hcs).symm, h.front, ?_⟩
  intro c hc
  refine h.back c ?_
  have hreverse : cs.reverse = rest.reverse ++ (cs.takeWhile isBlank).reverse := by
    rw [← List.reverse_append, hcs]
  -- What is cut off at the end may be all that is left, and then further blanks stand in front.
  rw [hreverse, List.takeWhile_append]
  have hmem := List.mem_reverse.mp hc
  split
  · exact List.mem_append_left _ (List.takeWhile_subset _ hmem)
  · exact hmem

theorem EndsPlainly.forall_of_isAllBlank {cs : List Char} (h : EndsPlainly cs)
    (hblank : isAllBlank cs = true) : ∀ c ∈ cs, isSeparator c = true := by
  have hall : cs.takeWhile isBlank = cs :=
    List.takeWhile_eq_self_iff.mpr (List.all_eq_true.mp hblank)
  rw [← hall]
  exact h.front

theorem tokensFrom_trim {cs : List Char} (h : EndsPlainly cs) (hterminated : Terminated cs) :
    tokensFrom true (trim cs) = tokensFrom true cs := by
  obtain ⟨front, back, hcs, hfront, hback⟩ := h.exists_trim
  have hgap := lexemesFrom_gap hfront true 0 (trim cs ++ back)
  rw [← hcs] at hgap
  have hwhole : ∀ lexeme ∈ lexemesFrom true 0 cs, lexeme.isUnterminated = false := hterminated
  rw [hgap] at hwhole
  rw [lexemesFrom_append_gap hback hwhole] at hgap
  calc tokensFrom true (trim cs)
      = (lexemesFrom true (0 + byteLength front) (trim cs)).map Lexeme.token :=
        (map_token_lexemesFrom ..).symm
    _ = tokensFrom true cs := by rw [← hgap, tokensFrom]

theorem parse_trim {line : String} (h : EndsPlainly line.toList)
    (hterminated : Terminated line.toList) :
    parse (String.ofList (trim line.toList)) = parse line := by
  refine parse_congr ?_
  rw [String.toList_ofList]
  exact tokensFrom_trim h hterminated

/-- What a line switches the pager to, if it is read as the command for that. -/
def pagerSetting? (line : String) : Option Bool :=
  match parse line with
  | .ok (.pager enabled) => some enabled
  | _ => none

theorem pagerSetting?_of_separators {line : String} (h : ∀ c ∈ line.toList, isSeparator c = true) :
    pagerSetting? line = none := by
  unfold pagerSetting?
  cases hparse : parse line with
  | error cause => rfl
  | ok operation =>
      have hphrase := parse_eq_ok_iff_tokensFrom.mp hparse
      rw [tokensFrom_separators h] at hphrase
      cases hphrase

end DocShell.Query

namespace DocShell.Shell

open DocShell.Query
open DocShell.Text.Blank

namespace Running

/-- A line is carried out as its operation says, and in nothing else the text matters. -/
theorem submit_congr (running : Running) {text text' : String} (h : parse text = parse text') :
    running.submit text = running.submit text' := by
  unfold submit note Session.run
  rw [h]

theorem submit_snd (running : Running) (text : String) : (running.submit text).2 =
    { running with
      session.pager := (pagerSetting? text).getD running.session.pager } := by
  unfold submit Session.run pagerSetting?
  cases parse text with
  | error cause => rfl
  | ok operation =>
      cases operation with
      | listCollections document =>
          simp only [Session.execute]
          cases running.store.list document <;> rfl
      | _ => rfl

/-- The loop over an input from elsewhere: every line has a turn. -/
def lineTurn (running : Running) (line : String) : Option (List Event × Running) :=
  some (running.line line)

/-- What a loop puts out for each line, with its state behind it. A line without a turn ends the
loop. -/
def trace (turn : Running → String → Option (List Event × Running)) :
    Running → List String → List (List Event × Running)
  | _, [] => []
  | running, line :: lines =>
      match turn running line with
      | none => []
      | some (events, next) => (events, next) :: trace turn next lines

def stateAfter (running : Running) (steps : List (List Event × Running)) : Running :=
  (steps.getLast?.map Prod.snd).getD running

/-- The state in which a run begins. -/
def ofDisplay (pager : Pager) (limit : Level) (store : Store) (project : String)
    (display : DisplayConfig) : Running :=
  ⟨pager, limit, store, Session.ofConfig project display⟩

section Line

variable {line : String} (hplain : EndsPlainly line.toList) (hterminated : Terminated line.toList)

include hplain hterminated

theorem line_eq_entry (running : Running) : running.line line = running.entry line := by
  unfold Running.line Running.entry
  rw [running.submit_congr (parse_trim hplain hterminated)]

theorem turn?_eq_lineTurn (hexit : isExit line = false) (running : Running) :
    running.turn? line = running.lineTurn line := by
  rw [turn?, hexit, if_neg Bool.false_ne_true, lineTurn, line_eq_entry hplain hterminated]

/-- The pager behind a line is what the line sets it to, or else what it was. -/
theorem line_pager (running : Running) : (running.line line).2.session.pager =
    (pagerSetting? line).getD running.session.pager := by
  rw [line_eq_entry hplain hterminated, entry]
  split
  · rename_i hblank
    rw [pagerSetting?_of_separators (hplain.forall_of_isAllBlank hblank)]
    rfl
  · rw [submit_snd]

end Line

section Trace

variable {turn turn' : Running → String → Option (List Event × Running)}

theorem trace_congr {lines : List String}
    (h : ∀ running, ∀ line ∈ lines, turn running line = turn' running line) (running : Running) :
    trace turn running lines = trace turn' running lines := by
  induction lines generalizing running with
  | nil => rfl
  | cons line lines ih =>
      have hrest := ih fun running line hmem => h running line (List.mem_cons_of_mem _ hmem)
      simp only [trace, h running line (List.mem_cons_self ..)]
      cases turn' running line with
      | none => rfl
      | some step => exact congrArg _ (hrest step.2)

theorem stateAfter_cons (running : Running) (step : List Event × Running)
    (steps : List (List Event × Running)) :
    stateAfter running (step :: steps) = stateAfter step.2 steps := by
  rw [stateAfter, stateAfter, List.getLast?_cons]
  cases steps.getLast? <;> rfl

/-- The lines of a text are carried out one by one. -/
theorem lines_eq (running : Running) (input : String) :
    let lines := (Text.Segments.splitOn '\n' input.toList).map String.ofList
    let steps := trace lineTurn running lines
    running.lines input = (steps.flatMap Prod.fst, stateAfter running steps) := by
  intro lines steps
  have hfold : ∀ (lines : List String) (running : Running) (events : List Event),
      lines.foldl (fun (state : List Event × Running) line =>
          (state.1 ++ (state.2.line line).1, (state.2.line line).2)) (events, running) =
        (events ++ (trace lineTurn running lines).flatMap Prod.fst,
          stateAfter running (trace lineTurn running lines)) := by
    intro lines
    induction lines with
    | nil => simp [trace, stateAfter]
    | cons line lines ih =>
        intro running events
        rw [List.foldl_cons, ih]
        simp only [trace, lineTurn, stateAfter_cons, List.flatMap_cons, List.append_assoc]
  exact (hfold lines running []).trans (by rw [List.nil_append])

theorem stateAfter_pager {lines : List String}
    (hplain : ∀ line ∈ lines, EndsPlainly line.toList)
    (hterminated : ∀ line ∈ lines, Terminated line.toList) (running : Running) :
    (stateAfter running (trace lineTurn running lines)).session.pager =
      ((lines.filterMap pagerSetting?).getLast?).getD running.session.pager := by
  induction lines generalizing running with
  | nil => rfl
  | cons line lines ih =>
      obtain ⟨hline, hlines⟩ := List.forall_mem_cons.mp hplain
      obtain ⟨hline', hlines'⟩ := List.forall_mem_cons.mp hterminated
      simp only [trace, lineTurn, stateAfter_cons]
      rw [ih hlines hlines', line_pager hline hline', List.filterMap_cons]
      cases pagerSetting? line with
      | none => rfl
      | some enabled =>
          rw [List.getLast?_cons]
          rfl

end Trace

/-- Whole sessions at a terminal and from elsewhere: the same output for every line, be it printed
or handed to the pager, and the same state behind it. What the pager makes of a text is left open
and has no part in that. In the end the pager is as the last line that switches it says, and as it
was configured if no line does. -/
theorem sessions_agree (pager : Pager) (limit : Level) (store : Store) (project : String)
    (display : DisplayConfig) {lines : List String} (hexit : ∀ line ∈ lines, isExit line = false)
    (hplain : ∀ line ∈ lines, EndsPlainly line.toList)
    (hterminated : ∀ line ∈ lines, Terminated line.toList) :
    let start := ofDisplay pager limit store project display
    trace turn? start lines = trace lineTurn start lines ∧
      (stateAfter start (trace turn? start lines)).session.pager =
        ((lines.filterMap pagerSetting?).getLast?).getD display.pager ∧
      (stateAfter start (trace lineTurn start lines)).session.pager =
        ((lines.filterMap pagerSetting?).getLast?).getD display.pager := by
  intro start
  have hsame : trace turn? start lines = trace lineTurn start lines :=
    trace_congr (fun running line hmem =>
      turn?_eq_lineTurn (hplain line hmem) (hterminated line hmem) (hexit line hmem) running) start
  have hpager := stateAfter_pager hplain hterminated start
  rw [hsame]
  exact ⟨rfl, hpager, hpager⟩

/-- A line that is refused and a listing that fails leave the pager on. -/
theorem sessions_agree_failures :
    let start := ofDisplay ⟨"cat", []⟩ .warn ⟨[]⟩ "" ⟨.json, false, false, false⟩
    let lines := ["\t\\pager on\r", " \n", "\\d a/b", "\\pager maybe", "QUERY 'users' "]
    trace turn? start lines = trace lineTurn start lines ∧
      (stateAfter start (trace turn? start lines)).session.pager = true := by
  intro start lines
  have hplain : ∀ line ∈ lines, EndsPlainly line.toList := by
    have hall : ∀ line ∈ lines,
        (line.toList.takeWhile isBlank).all isSeparator = true ∧
          (line.toList.reverse.takeWhile isBlank).all isSeparator = true := by decide +kernel
    exact fun line hmem =>
      ⟨List.all_eq_true.mp (hall line hmem).1, List.all_eq_true.mp (hall line hmem).2⟩
  have hterminated : ∀ line ∈ lines, Terminated line.toList := by
    unfold Terminated
    decide +kernel
  have hagree := sessions_agree ⟨"cat", []⟩ .warn ⟨[]⟩ "" ⟨.json, false, false, false⟩
    (by decide : ∀ line ∈ lines, isExit line = false) hplain hterminated
  have hsettings : lines.filterMap pagerSetting? = [true] := by decide +kernel
  rw [hsettings] at hagree
  exact ⟨hagree.1, hagree.2.1⟩

end Running

end DocShell.Shell
