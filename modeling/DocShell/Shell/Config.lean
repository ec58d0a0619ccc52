namespace DocShell.Shell

inductive Format where
  | json
  | jsonPretty
deriving DecidableEq, Repr

namespace Format

def name : Format → String
  | json => "json"
  | jsonPretty => "json-pretty"

def all : List Format := [json, jsonPretty]

def ofName? (name : String) : Option Format := all.find? fun format => format.name == name

theorem ofName?_name (format : Format) : ofName? format.name = some format := by
  cases format <;> decide

end Format

/-- The least severe messages that are logged. -/
inductive Level where
  | error
  | warn
  | info
  | debug
  | trace
deriving DecidableEq, Repr

namespace Level

def name : Level → String
  | error => "error"
  | warn => "warn"
  | info => "info"
  | debug => "debug"
  | trace => "trace"

def all : List Level := [error, warn, info, debug, trace]

def ofName? (name : String) : Option Level := all.find? fun level => level.name == name

theorem ofName?_name (level : Level) : ofName? level.name = some level := by
  cases level <;> decide

def rank : Level → Nat
  | error => 0
  | warn => 1
  | info => 2
  | debug => 3
  | trace => 4

def logs (limit level : Level) : Bool := level.rank ≤ limit.rank

end Level

structure DisplayConfig where
  format : Format
  colorOutput : Bool
  syntaxHighlighting : Bool
  /-- Whether output goes through the pager from the start. -/
  pager : Bool
deriving DecidableEq, Repr

structure HistoryConfig where
  maxSize : Nat
  filePath : String
  persist : Bool
deriving DecidableEq, Repr

structure LoggingConfig where
  level : Level
  timestamps : Bool
deriving DecidableEq, Repr

structure StoreConfig where
  dataFile : Option String
deriving DecidableEq, Repr

structure Config where
  display : DisplayConfig
  history : HistoryConfig
  logging : LoggingConfig
  store : StoreConfig
deriving DecidableEq, Repr

inductive ConfigError where
  | invalidFormat
  | emptyHistory
deriving DecidableEq, Repr

def ConfigError.message : ConfigError → String
  | invalidFormat => "Configuration error: Invalid config format"
  | emptyHistory => "Configuration error: Invalid value '0' for field 'history.max_size'"

namespace Config

def homeFile (home name : String) : String :=
  if home = "" ∨ home.toList.getLast? = some '/' then home ++ name else home ++ "/" ++ name

def defaultPath (home : String) : String := homeFile (homeFile home ".fscli") "config.toml"

def default (home : String) : Config where
  display := ⟨.jsonPretty, true, true, false⟩
  history := ⟨1000, homeFile home ".fscli_history", true⟩
  logging := ⟨.warn, false⟩
  store := ⟨none⟩

def validate (config : Config) : Except ConfigError Unit :=
  if config.history.maxSize = 0 then .error .emptyHistory else .ok ()

end Config

end DocShell.Shell
