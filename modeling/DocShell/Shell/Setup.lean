import DocShell.Shell.Arguments
import DocShell.Shell.ConfigText
import DocShell.Store

namespace DocShell.Shell

inductive FileError where
  | notFound
  | notDirectory
  | isDirectory
  | notText
deriving DecidableEq, Repr

namespace FileError

def reason : FileError → String
  | notFound => "No such file or directory (os error 2)"
  | notDirectory => "Not a directory (os error 20)"
  | isDirectory => "Is a directory (os error 21)"
  | notText => "stream did not contain valid UTF-8"

def isAbsent : FileError → Bool
  | notFound | notDirectory => true
  | _ => false

end FileError

abbrev FileText := Except FileError String

inductive StartError where
  | config (cause : ConfigError)
  | file (cause : FileError)
  | store (cause : StoreError)
deriving DecidableEq, Repr

def StartError.message : StartError → String
  | config cause => cause.message
  | file cause => s!"I/O error: {cause.reason}"
  | store cause => cause.message

def programName : String := "fscli"

def programVersion : String := "0.1.0"

namespace Arguments

def configPath (arguments : Arguments) (home : String) : String :=
  arguments.configFile.getD (Config.defaultPath home)

/-- The settings with those of the command line over them. The most verbose of the flags decides
what is logged. -/
def override (arguments : Arguments) (config : Config) : Config where
  display := { config.display with
    format := arguments.format.getD config.display.format
    colorOutput := config.display.colorOutput && !arguments.has .noColor
    pager := config.display.pager || arguments.has .pager }
  history := config.history
  logging := { config.logging with
    level :=
      if arguments.has .veryVerbose then .trace
      else if arguments.has .verbose then .debug
      else if arguments.has .quiet then .error
      else config.logging.level }
  store := { dataFile := arguments.dataFile.or config.store.dataFile }

def projectId (arguments : Arguments) : String := arguments.project.getD "local"

def banner (arguments : Arguments) : String :=
  if arguments.has .quiet then ""
  else
    s!"{programName} {programVersion} (project: {arguments.projectId})\n" ++
      "Type exit or press Ctrl-D to leave.\n"

end Arguments

structure Setup where
  arguments : Arguments
  config : Config
  /-- What was wrong with the settings of the file, of which none counts then. -/
  rejected : Option ConfigError
deriving DecidableEq, Repr

namespace Setup

/-- The settings of a file, which need not exist. -/
def fileConfig (home : String) (file : FileText) : Except StartError Config :=
  match file with
  | .ok text =>
      match Config.ofToml (.default home) text with
      | .ok config => .ok config
      | .error cause => .error (.config cause)
  | .error cause => if cause.isAbsent then .ok (.default home) else .error (.file cause)

def load (home : String) (arguments : Arguments) (file : FileText) : Except StartError Setup := do
  let config ← fileConfig home file
  match config.validate with
  | .ok () => return ⟨arguments, arguments.override config, none⟩
  | .error cause => return ⟨arguments, arguments.override (.default home), some cause⟩

def warning (setup : Setup) : String :=
  match setup.rejected with
  | none => ""
  | some cause =>
      s!"Warning: Configuration validation failed: {cause.message}\n" ++
        "Using default configuration instead.\n"

def validation (home path : String) (file : FileText) : String :=
  let verdict :=
    match file, fileConfig home file with
    | .error cause, .ok _ =>
        if cause.isAbsent then "Configuration file does not exist" else "Configuration is valid"
    | _, .error cause => s!"Failed to load configuration: {cause.message}"
    | .ok _, .ok config =>
        match config.validate with
        | .ok () => "Configuration is valid"
        | .error cause => s!"Configuration validation failed: {cause.message}"
  s!"Validating configuration file: {path}\n{verdict}\n"

def listing (setup : Setup) (path : String) : String :=
  s!"Configuration file: {path}\n\n{setup.config.toToml}\n"

def report (setup : Setup) (home : String) (file : FileText) : Subcommand → String
  | .version => s!"{programName} version {programVersion}\nRust version: 1.91\n"
  | .completion _ => ""
  | .config shows validates =>
      let path := setup.arguments.configPath home
      (if validates then validation home path file else "") ++
        (if shows then setup.listing path else "")

def openStore (file : Option (String × FileText)) : Except StartError Store :=
  match file with
  | none => .ok .empty
  | some (path, .error cause) => .error (.store (.loadFailed path cause.reason))
  | some (path, .ok text) =>
      match Store.ofText path text with
      | .ok store => .ok store
      | .error cause => .error (.store cause)

end Setup

end DocShell.Shell
