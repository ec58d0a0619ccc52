import DocShell.Json.Reader
import DocShell.Query.Parser
import DocShell.Query.Plan
import DocShell.Shell.Config
import DocShell.Store
import DocShell.Text.Blank

namespace DocShell.Shell

open DocShell.Query
open DocShell.Text.Ascii
open DocShell.Text.Blank
open DocShell.Text.Segments

inductive Result where
  | plan (operation : Operation)
  | names (names : List String)
  | message (text : String)
deriving DecidableEq, Repr

inductive Failure where
  | parse (cause : ParseError)
  | store (cause : StoreError)
deriving DecidableEq, Repr

def Failure.message : Failure → String
  | parse cause => cause.message
  | store cause => cause.message

/-- Text of a JSON value in a format. In colors, which a text that goes elsewhere than to a terminal
lacks, the members of objects come in the order of their names. -/
def jsonText (format : Format) (color : Bool) (value : Json) : String :=
  match format with
  | .json => value.text .compact
  | .jsonPretty =>
      let plain := value.text .pretty
      if color then
        match Json.ofText? plain with
        | some sorted => sorted.text .pretty
        | none => plain
      else plain

def Result.text (format : Format) (color : Bool) : Result → String
  | .plan operation => jsonText format color operation.plan
  | .names list => String.ofList (joinWith '\n' (list.map String.toList))
  | .message text => text

structure Session where
  project : String
  format : Format
  color : Bool
  pager : Bool
deriving DecidableEq, Repr

namespace Session

def ofConfig (project : String) (display : DisplayConfig) : Session :=
  ⟨project, display.format, display.colorOutput, display.pager⟩

def execute (session : Session) (store : Store) (operation : Operation) :
    Except StoreError Result × Session :=
  match operation with
  | .pager enabled =>
      let state := if enabled then "on" else "off"
      (.ok (.message s!"Pager is {state}"), { session with pager := enabled })
  | .listCollections document => ((store.list document).map Result.names, session)
  | operation => (.ok (.plan operation), session)

def run (session : Session) (store : Store) (line : String) :
    Except Failure String × Session :=
  match parse line with
  | .error cause => (.error (.parse cause), session)
  | .ok operation =>
      let (result, session) := session.execute store operation
      match result with
      | .error cause => (.error (.store cause), session)
      | .ok result => (.ok (result.text session.format session.color), session)

end Session

def isExit (line : String) : Bool :=
  let word := lower (trim line.toList)
  word == "exit".toList || word == "quit".toList

end DocShell.Shell
