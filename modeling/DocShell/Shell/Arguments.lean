import DocShell.Shell.Config

namespace DocShell.Shell

inductive UsageError where
  | invalidValue
  | unknownArgument
  | argumentConflict
  | tooManyValues
  | invalidSubcommand
  | missingArgument
deriving DecidableEq, Repr

/-- What there is instead of settings: a request for help or for the version, or an error. -/
inductive Stop where
  | help
  | version
  | usage (cause : UsageError)
deriving DecidableEq, Repr

inductive Setting where
  | project
  | config
  | data
  | format
deriving DecidableEq, Repr

inductive Flag where
  | noColor
  | pager
  | quiet
  | verbose
  | veryVerbose
deriving DecidableEq, Repr

/-- What a word that begins with a hyphen can name. -/
inductive Parameter where
  | setting (setting : Setting)
  | flag (flag : Flag)
  | help
  | version
deriving DecidableEq, Repr

namespace Parameter

def ofLong? : String → Option Parameter
  | "project-id" => some (setting .project)
  | "config" => some (setting .config)
  | "data" => some (setting .data)
  | "format" => some (setting .format)
  | "no-color" => some (flag .noColor)
  | "pager" => some (flag .pager)
  | "quiet" => some (flag .quiet)
  | "verbose" => some (flag .verbose)
  | "vv" => some (flag .veryVerbose)
  | "help" => some help
  | "version" => some version
  | _ => none

def ofShort? : Char → Option Parameter
  | 'c' => some (setting .config)
  | 'q' => some (flag .quiet)
  | 'v' => some (flag .verbose)
  | 'h' => some help
  | 'V' => some version
  | _ => none

end Parameter

inductive Subcommand where
  | version
  | completion (shell : String)
  | config (shows validates : Bool)
deriving DecidableEq, Repr

structure Arguments where
  project : Option String
  configFile : Option String
  dataFile : Option String
  format : Option Format
  flags : List Flag
  command : Option Subcommand
deriving DecidableEq, Repr

namespace Arguments

def empty : Arguments := ⟨none, none, none, none, [], none⟩

def has (arguments : Arguments) (flag : Flag) : Bool := arguments.flags.contains flag

def isGiven (arguments : Arguments) : Setting → Bool
  | .project => arguments.project.isSome
  | .config => arguments.configFile.isSome
  | .data => arguments.dataFile.isSome
  | .format => arguments.format.isSome

/-- Give a setting its value. The name of a file is not empty. -/
def set (arguments : Arguments) (setting : Setting) (value : String) : Except Stop Arguments :=
  if arguments.isGiven setting then .error (.usage .argumentConflict)
  else
    match setting with
    | .project => .ok { arguments with project := some value }
    | .config =>
        if value = "" then .error (.usage .invalidValue)
        else .ok { arguments with configFile := some value }
    | .data =>
        if value = "" then .error (.usage .invalidValue)
        else .ok { arguments with dataFile := some value }
    | .format =>
        match Format.ofName? value with
        | some format => .ok { arguments with format := some format }
        | none => .error (.usage .invalidValue)

def raise (arguments : Arguments) (flag : Flag) : Except Stop Arguments :=
  if arguments.has flag then .error (.usage .argumentConflict)
  else .ok { arguments with flags := flag :: arguments.flags }

end Arguments

/-- A setting that has been named and has no effect yet: its value is in the next word, or has been
read from a word of its own. -/
inductive Pending where
  | none
  | awaiting (setting : Setting)
  | filled (setting : Setting) (value : String)
deriving DecidableEq, Repr

def Pending.settle (arguments : Arguments) : Pending → Except Stop Arguments
  | none => .ok arguments
  | awaiting _ => .error (.usage .invalidValue)
  | filled setting value => arguments.set setting value

/-- A word of two hyphens and more, cut at its first `=`. -/
def splitLong? (word : List Char) : Option (String × Option String) :=
  match word with
  | '-' :: '-' :: rest =>
      let name := String.ofList (rest.takeWhile (· != '='))
      match rest.dropWhile (· != '=') with
      | [] => some (name, none)
      | _ :: value => some (name, some (String.ofList value))
  | _ => none

def shortLetters? (word : List Char) : Option (List Char) :=
  match word with
  | '-' :: '-' :: _ => none
  | ['-'] => none
  | '-' :: letters => some letters
  | _ => none

/-- What a command takes: the names of its flags, and the values of its only argument if it has
one. -/
structure SubcommandShape where
  flags : List String
  values : Option (List String)

namespace SubcommandShape

def check (shape : SubcommandShape) (value : Option String) : Except Stop Unit :=
  match value with
  | none => .ok ()
  | some value =>
      if (shape.values.getD []).contains value then .ok () else .error (.usage .invalidValue)

/-- The end of the words: the argument has to be there. -/
def finish (shape : SubcommandShape) (flags : List String) (value : Option String) :
    Except Stop (List String × Option String) := do
  shape.check value
  if shape.values.isSome && value.isNone then throw (.usage .missingArgument)
  return (flags, value)

/-- The words of a command: the flags that are raised, and the value of its argument. After two
hyphens alone, no word is a flag. -/
def read (shape : SubcommandShape) (trailing : Bool) (flags : List String) (value : Option String) :
    List String → Except Stop (List String × Option String)
  | [] => shape.finish flags value
  | word :: rest =>
      let argument : Except Stop (List String × Option String) :=
        if shape.values.isSome && value.isNone then
          read shape trailing flags (some word) rest
        else .error (.usage .unknownArgument)
      if trailing then argument
      else if word = "--" then read shape true flags value rest
      else
        match splitLong? word.toList, shortLetters? word.toList with
        | some (name, attached), _ =>
            if name != "help" && !shape.flags.contains name then .error (.usage .unknownArgument)
            else if attached.isSome then .error (.usage .tooManyValues)
            else do
              shape.check value
              if name = "help" then throw .help
              if flags.contains name then throw (.usage .argumentConflict)
              read shape false (name :: flags) value rest
        | none, some letters =>
            if letters.head? = some 'h' then do
              shape.check value
              throw .help
            else .error (.usage .unknownArgument)
        | none, none => argument

end SubcommandShape

namespace Subcommand

def shells : List String := ["bash", "elvish", "fish", "powershell", "zsh"]

def ofWords? (name : String) (words : List String) : Option (Except Stop Subcommand) :=
  match name with
  | "version" => some do
      let _ ← SubcommandShape.read ⟨[], none⟩ false [] none words
      return version
  | "completion" => some do
      let (_, shell) ← SubcommandShape.read ⟨[], some shells⟩ false [] none words
      return completion (shell.getD "")
  | "config" => some do
      let (flags, _) ← SubcommandShape.read ⟨["show", "validate"], none⟩ false [] none words
      return config (flags.contains "show") (flags.contains "validate")
  | "help" =>
      match words with
      | [] | ["version"] | ["completion"] | ["config"] | ["help"] => some (.error .help)
      | _ => some (.error (.usage .invalidSubcommand))
  | _ => none

end Subcommand

namespace Arguments

def apply (arguments : Arguments) (pending : Pending) (parameter : Parameter) :
    Except Stop (Arguments × Pending) := do
  let arguments ← pending.settle arguments
  match parameter with
  | .setting setting => return (arguments, .awaiting setting)
  | .flag flag => return (← arguments.raise flag, .none)
  | .help => throw .help
  | .version => throw .version

def attach (arguments : Arguments) (pending : Pending) (setting : Setting) (value : String) :
    Except Stop (Arguments × Pending) := do
  let arguments ← pending.settle arguments
  return (← arguments.set setting value, .none)

/-- The letters of a word with a single hyphen: flags, and at the end perhaps a setting, the rest
being its value. -/
def readShort (arguments : Arguments) (pending : Pending) :
    List Char → Except Stop (Arguments × Pending)
  | [] => .ok (arguments, pending)
  | letter :: rest =>
      match Parameter.ofShort? letter, rest with
      | some (.setting setting), '=' :: value =>
          arguments.attach pending setting (String.ofList value)
      | some (.setting setting), value@(_ :: _) =>
          arguments.attach pending setting (String.ofList value)
      | some parameter, rest => do
          let (arguments, pending) ← arguments.apply pending parameter
          readShort arguments pending rest
      | none, _ => .error (.usage .unknownArgument)

def readLong (arguments : Arguments) (pending : Pending) (name : String)
    (attached : Option String) : Except Stop (Arguments × Pending) :=
  match Parameter.ofLong? name, attached with
  | some (.setting setting), some value => arguments.attach pending setting value
  | some _, some _ => .error (.usage .tooManyValues)
  | some parameter, none => arguments.apply pending parameter
  | none, _ => .error (.usage .unknownArgument)

/-- The words up to the end, or up to the name of a command. Of the errors in the words of a command
and in a value before its name, the first is the one that counts. -/
def read (arguments : Arguments) (pending : Pending) : List String → Except Stop Arguments
  | [] => pending.settle arguments
  | word :: rest =>
      let isAwaiting :=
        match pending with
        | .awaiting _ => true
        | _ => false
      match if isAwaiting then none else Subcommand.ofWords? word rest with
      | some command => do
          let command ← command
          return { ← pending.settle arguments with command := some command }
      | none =>
          if word = "--" then
            match rest with
            | [] => pending.settle arguments
            | word :: _ =>
                if (Subcommand.ofWords? word []).isSome then .error (.usage .unknownArgument)
                else .error (.usage .invalidSubcommand)
          else
            match splitLong? word.toList, shortLetters? word.toList, pending with
            | some (name, attached), _, pending => do
                let (arguments, pending) ← arguments.readLong pending name attached
                read arguments pending rest
            | none, some letters, pending => do
                let (arguments, pending) ← arguments.readShort pending letters
                read arguments pending rest
            | none, none, .awaiting setting => read arguments (.filled setting word) rest
            | none, none, _ => .error (.usage .invalidSubcommand)

def ofWords (words : List String) : Except Stop Arguments := read empty .none words

end Arguments

end DocShell.Shell
