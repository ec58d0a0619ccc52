import DocShell.Shell.Config
import DocShell.Toml.Printer
import DocShell.Toml.Reader

namespace DocShell.Shell

open DocShell.Number
open DocShell.Toml

def boolText (value : Bool) : List Char := if value then "true".toList else "false".toList

def entryLine (key : String) (value : List Char) : List Char :=
  key.toList ++ " = ".toList ++ value ++ ['\n']

def DisplayConfig.lines (display : DisplayConfig) : List Char :=
  "[display]\n".toList ++
    entryLine "format" (quote display.format.name) ++
    entryLine "color_output" (boolText display.colorOutput) ++
    entryLine "syntax_highlighting" (boolText display.syntaxHighlighting) ++
    entryLine "pager" (boolText display.pager)

def HistoryConfig.lines (history : HistoryConfig) : List Char :=
  "[history]\n".toList ++
    entryLine "max_size" (Decimal.digits history.maxSize) ++
    entryLine "file_path" (quote history.filePath) ++
    entryLine "persist" (boolText history.persist)

def LoggingConfig.lines (logging : LoggingConfig) : List Char :=
  "[logging]\n".toList ++
    entryLine "level" (quote logging.level.name) ++
    entryLine "timestamps" (boolText logging.timestamps)

def StoreConfig.lines (store : StoreConfig) : List Char :=
  "[store]\n".toList ++
    match store.dataFile with
    | some path => entryLine "data_file" (quote path)
    | none => []

def Config.toToml (config : Config) : String :=
  String.ofList (config.display.lines ++ '\n' :: config.history.lines ++ '\n' ::
    config.logging.lines ++ '\n' :: config.store.lines)

/-- The setting with a key in a group, which is a table, or else an array that has the settings in
their order. A point in time is a group without settings. -/
def setting? (group : Value) (index : Nat) (key : String) : Option (Option Value) :=
  match group with
  | .table entries => some (entries.lookup key)
  | .array items => some items[index]?
  | .datetime _ => some none
  | _ => none

/-- Whether the entries of a group that are none of its settings can be read. -/
def restReadable (keys : List String) : Value → Bool
  | .table entries => entries.all fun entry => keys.contains entry.1 || entry.2.isReadable
  | _ => true

def settingOr {α : Type} (decode : Value → Option α) (fallback : α) (group : Value) (index : Nat)
    (key : String) : Option α := do
  match ← setting? group index key with
  | none => some fallback
  | some value => decode value

def asBool? : Value → Option Bool
  | .boolean value => some value
  | _ => none

def asText? : Value → Option String
  | .string value => some value
  | _ => none

def asSize? : Value → Option Nat
  | .integer value => if 0 ≤ value ∧ value < UInt64.size then some value.toNat else none
  | _ => none

/-- A name from a list: a string, or the key of a table that has nothing else and nothing in it. -/
def asName? : Value → Option String
  | .string name => some name
  | .table [(name, .table [])] => some name
  | .table [(name, .array [])] => some name
  | _ => none

def DisplayConfig.ofValue? (fallback : DisplayConfig) (group : Value) : Option DisplayConfig := do
  guard (restReadable ["format", "color_output", "syntax_highlighting", "pager"] group)
  return {
    format := ← settingOr (fun value => asName? value >>= Format.ofName?) fallback.format group 0
      "format"
    colorOutput := ← settingOr asBool? fallback.colorOutput group 1 "color_output"
    syntaxHighlighting :=
      ← settingOr asBool? fallback.syntaxHighlighting group 2 "syntax_highlighting"
    pager := ← settingOr asBool? fallback.pager group 3 "pager" }

def HistoryConfig.ofValue? (fallback : HistoryConfig) (group : Value) : Option HistoryConfig := do
  guard (restReadable ["max_size", "file_path", "persist"] group)
  return {
    maxSize := ← settingOr asSize? fallback.maxSize group 0 "max_size"
    filePath := ← settingOr asText? fallback.filePath group 1 "file_path"
    persist := ← settingOr asBool? fallback.persist group 2 "persist" }

def LoggingConfig.ofValue? (fallback : LoggingConfig) (group : Value) : Option LoggingConfig := do
  guard (restReadable ["level", "timestamps"] group)
  return {
    level := ← settingOr (fun value => asName? value >>= Level.ofName?) fallback.level group 0
      "level"
    timestamps := ← settingOr asBool? fallback.timestamps group 1 "timestamps" }

def StoreConfig.ofValue? (fallback : StoreConfig) (group : Value) : Option StoreConfig := do
  guard (restReadable ["data_file"] group)
  return {
    dataFile := ← settingOr (fun value => (asText? value).map some) fallback.dataFile group 0
      "data_file" }

def Config.ofValue? (fallback : Config) (document : Value) : Option Config := do
  guard (restReadable ["display", "history", "logging", "store"] document)
  return {
    display := ← settingOr fallback.display.ofValue? fallback.display document 0 "display"
    history := ← settingOr fallback.history.ofValue? fallback.history document 1 "history"
    logging := ← settingOr fallback.logging.ofValue? fallback.logging document 2 "logging"
    store := ← settingOr fallback.store.ofValue? fallback.store document 3 "store" }

def Config.ofToml (fallback : Config) (text : String) : Except ConfigError Config :=
  match (ofText? text).bind fun entries => Config.ofValue? fallback (.table entries) with
  | some config => .ok config
  | none => .error .invalidFormat

end DocShell.Shell
