import DocShell.Editor.Balance
import DocShell.Editor.Prompt
import DocShell.Shell.Program

namespace DocShell.Main

open DocShell.Editor
open DocShell.Shell

def write (output : Output) : IO Unit := do
  let stdout ← IO.getStdout
  stdout.putStr output.stdout
  stdout.flush
  let stderr ← IO.getStderr
  stderr.putStr output.stderr
  stderr.flush

def readText (path : String) : IO FileText := do
  try
    return .ok (← IO.FS.readFile path)
  catch
    | .noFileOrDirectory .. => return .error .notFound
    | .inappropriateType _ code _ =>
        return .error (if code = 20 then .notDirectory else .isDirectory)
    | _ => return .error .notText

/-- No program is started from here, and so every text is left to the standard output. -/
def feed (_ : Pager) (_ : String) : IO Paging :=
  return .unstarted "Operation not supported (os error 95)"

partial def serveLines (input : IO.FS.Stream) (running : Running) : IO Unit := do
  let line ← input.getLine
  if line.isEmpty then return
  let (events, running) := running.line line
  write (← Output.ofEvents feed running.limit events)
  serveLines input running

/-- The further lines of an input that is still open. -/
partial def readEntry (input : IO.FS.Stream) (entered : String) : IO String := do
  if isComplete entered.toList then return entered
  write ⟨Prompt.continuation, ""⟩
  let line ← input.getLine
  if line.isEmpty then return entered
  readEntry input (entered ++ line)

partial def serveEntries (input : IO.FS.Stream) (running : Running) : IO Unit := do
  write ⟨Prompt.left running.session.project, ""⟩
  let line ← input.getLine
  if line.isEmpty then return
  let entered ← readEntry input line
  match running.turn? entered with
  | none => return
  | some (events, running) =>
      write (← Output.ofEvents feed running.limit events)
      serveEntries input running

def start (words : List String) : IO UInt32 := do
  let home := (← IO.getEnv "HOME").getD "."
  let pager ← IO.getEnv "PAGER"
  match ← Start.ofWords readText home pager words with
  | .finished code output =>
      write output
      return code.toUInt32
  | .running output setup running =>
      write output
      let input ← IO.getStdin
      if ← input.isTty then
        write ⟨setup.arguments.banner, ""⟩
        serveEntries input running
        write ⟨"Goodbye!\n", ""⟩
      else
        serveLines input running
      return 0

end DocShell.Main

def main (words : List String) : IO UInt32 := DocShell.Main.start words
