import DocShell.Shell.Pager
import DocShell.Shell.Session
import DocShell.Shell.Setup

/-!
A run of the program, from the words of the command line to its exit code. The reading of files and
what a pager makes of a text are left to the caller.
-/

namespace DocShell.Shell

open DocShell.Query
open DocShell.Text.Blank
open DocShell.Text.Segments

/-- What a run asks for. A text for the pager is handed over and nothing else said of it. -/
inductive Event where
  | print (text : String)
  | page (pager : Pager) (text : String)
  | report (text : String)
  | log (level : Level) (text : String)
deriving DecidableEq, Repr

structure Output where
  stdout : String
  stderr : String
deriving DecidableEq, Repr

inductive WriteError where
  | brokenPipe
  | other (reason : String)
deriving DecidableEq, Repr

def WriteError.reason? : WriteError → Option String
  -- The user may quit the pager before it has read everything.
  | brokenPipe => none
  | other reason => some reason

/-- What becomes of a text that is written to a pager. Of one that was started, `shown` is what it
puts out itself; `written` and `awaited` are the faults of writing to it and of waiting for its
end. -/
inductive Paging where
  | unstarted (reason : String)
  | started (shown : Output) (written : Option WriteError) (awaited : Option String)
deriving DecidableEq, Repr

namespace Output

def empty : Output := ⟨"", ""⟩

def append (first second : Output) : Output :=
  ⟨first.stdout ++ second.stdout, first.stderr ++ second.stderr⟩

/-- A line of the log. The level takes five columns. -/
def logLine (level : Level) (text : String) : String :=
  let name := level.name.map Char.toUpper
  String.ofList (List.replicate (5 - name.length) ' ') ++ name ++ " " ++ text ++ "\n"

def ofLog (limit level : Level) (text : String) : Output :=
  if limit.logs level then ⟨"", logLine level text⟩ else empty

/-- A pager that does not start leaves the text to the standard output; one that was started owns
it. -/
def ofPaging (limit : Level) (pager : Pager) (text : String) : Paging → Output
  | .unstarted reason =>
      (ofLog limit .warn ("pager failed to start, writing to stdout " ++
        s!"pager={pager.program} error={reason}")).append ⟨text ++ "\n", ""⟩
  | .started shown written awaited =>
      match awaited.or (written.bind WriteError.reason?) with
      | some reason => shown.append ⟨"", s!"error: I/O error: {reason}\n"⟩
      | none => shown

section

variable {m : Type → Type} [Monad m] (feed : Pager → String → m Paging) (limit : Level)

def ofEvent : Event → m Output
  | .print text => return ⟨text ++ "\n", ""⟩
  | .page pager text => return ofPaging limit pager text (← feed pager (text ++ "\n"))
  | .report text => return ⟨"", text ++ "\n"⟩
  | .log level text => return ofLog limit level text

/-- What comes of the events one after the other. What a pager makes of the text that is written to
it is up to `feed`. -/
def ofEvents (events : List Event) : m Output :=
  events.foldlM (fun output event => return output.append (← ofEvent feed limit event)) empty

end

end Output

/-- The part of a run that reads lines. -/
structure Running where
  pager : Pager
  limit : Level
  store : Store
  session : Session

namespace Running

def note (text : String) : Event :=
  match parse text with
  | .error cause => .log .debug s!"parse failed error={cause.message}"
  | .ok operation => .log .debug s!"executing operation=\"{operation.name}\""

def submit (running : Running) (text : String) : List Event × Running :=
  let (result, session) := running.session.run running.store text
  let shown :=
    match result with
    | .error cause => [.report s!"error: {cause.message}"]
    | .ok output => if session.pager then [.page running.pager output] else [.print output]
  (note text :: shown, { running with session })

/-- Carry out a line of an input that is no terminal, the blanks around it aside. -/
def line (running : Running) (line : String) : List Event × Running :=
  if isAllBlank line.toList then ([], running)
  else running.submit (String.ofList (trim line.toList))

/-- Carry out what was entered at a terminal, just as it was. -/
def entry (running : Running) (input : String) : List Event × Running :=
  if isAllBlank input.toList then ([], running) else running.submit input

/-- The turn of an input at a terminal. An input that asks to leave the shell has none. -/
def turn? (running : Running) (input : String) : Option (List Event × Running) :=
  if isExit input then none else some (running.entry input)

def lines (running : Running) (input : String) : List Event × Running :=
  ((splitOn '\n' input.toList).map String.ofList).foldl
    (fun (events, running) line =>
      let (more, running) := running.line line
      (events ++ more, running))
    ([], running)

end Running

inductive Start where
  | finished (code : Nat) (output : Output)
  | running (output : Output) (setup : Setup) (running : Running)

namespace Start

def failed (warning : String) (cause : StartError) : Start :=
  finished 1 ⟨"", warning ++ s!"Error: {cause.message}\n"⟩

def usage : String :=
  s!"Usage: {programName} [OPTIONS] [COMMAND]\n\n" ++
    "Commands: version, completion <SHELL>, config [--show] [--validate], help\n" ++
    "Options: --project-id <ID>, -c/--config <FILE>, --data <FILE>, --format <FORMAT>,\n" ++
    "  --no-color, --pager, -q/--quiet, -v/--verbose, --vv, -h/--help, -V/--version\n"

def ofStop : Stop → Start
  | .help => finished 0 ⟨usage, ""⟩
  | .version => finished 0 ⟨s!"{programName} {programVersion}\n", ""⟩
  | .usage _ => finished 2 ⟨"", usage⟩

/-- Begin a run: read the settings, and then carry out the command or open the store. -/
def ofWords {m : Type → Type} [Monad m] (readFile : String → m FileText) (home : String)
    (pager : Option String) (words : List String) : m Start := do
  match Arguments.ofWords words with
  | .error stop => return ofStop stop
  | .ok arguments =>
      let file ← readFile (arguments.configPath home)
      match Setup.load home arguments file with
      | .error cause => return failed "" cause
      | .ok setup =>
          match arguments.command with
          | some command => return finished 0 ⟨setup.report home file command, setup.warning⟩
          | none =>
              let limit := setup.config.logging.level
              let data ←
                match setup.config.store.dataFile with
                | none => pure none
                | some path => (fun text => some (path, text)) <$> readFile path
              let notes :=
                match data with
                | none => []
                | some (path, .error _) => [s!"loading data file path={path}"]
                | some (path, .ok text) =>
                    s!"loading data file path={path}" ::
                      if (Json.ofText? text).isSome then [s!"loaded JSON store path={path}"]
                      else []
              let output := notes.foldl (fun output note => output.append (.ofLog limit .debug note))
                ⟨"", setup.warning⟩
              match Setup.openStore data with
              | .error cause => return failed output.stderr cause
              | .ok store =>
                  let session := Session.ofConfig arguments.projectId setup.config.display
                  return running output setup
                    { pager := .ofSetting pager, limit, store, session }

end Start

/-- A whole run on an input that is no terminal: its exit code and what it puts out. -/
def run {m : Type → Type} [Monad m] (readFile : String → m FileText)
    (feed : Pager → String → m Paging) (home : String) (pager : Option String)
    (words : List String) (input : String) : m (Nat × Output) := do
  match ← Start.ofWords readFile home pager words with
  | .finished code output => return (code, output)
  | .running output _ running =>
      let answers ← Output.ofEvents feed running.limit (running.lines input).1
      return (0, output.append answers)

end DocShell.Shell
