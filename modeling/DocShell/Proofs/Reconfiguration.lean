import DocShell.Proofs.TableText
import DocShell.Shell.Setup

namespace DocShell.Shell

open DocShell.Number
open DocShell.Toml

section Writing

def DisplayConfig.table (display : DisplayConfig) : Table where
  name := "display"
  lines :=
    [.ofText "format" (by decide) display.format.name,
      .ofBool "color_output" (by decide) display.colorOutput,
      .ofBool "syntax_highlighting" (by decide) display.syntaxHighlighting,
      .ofBool "pager" (by decide) display.pager]
  bare := by decide
  nodup := by
    have hkeys : ["format", "color_output", "syntax_highlighting", "pager"].Nodup := by decide
    exact hkeys

theorem lt_of_lt_size {n : Nat} (h : n < UInt64.size) : n < 0x100000000000000000000000000000000 :=
  Nat.lt_trans h (by decide)

def HistoryConfig.table (history : HistoryConfig) (h : history.maxSize < UInt64.size) : Table where
  name := "history"
  lines :=
    [.ofNat "max_size" (by decide) history.maxSize (lt_of_lt_size h),
      .ofText "file_path" (by decide) history.filePath,
      .ofBool "persist" (by decide) history.persist]
  bare := by decide
  nodup := by
    have hkeys : ["max_size", "file_path", "persist"].Nodup := by decide
    exact hkeys

def LoggingConfig.table (logging : LoggingConfig) : Table where
  name := "logging"
  lines :=
    [.ofText "level" (by decide) logging.level.name,
      .ofBool "timestamps" (by decide) logging.timestamps]
  bare := by decide
  nodup := by
    have hkeys : ["level", "timestamps"].Nodup := by decide
    exact hkeys

def StoreConfig.table (store : StoreConfig) : Table where
  name := "store"
  lines := store.dataFile.toList.map (Line.ofText "data_file" (by decide))
  bare := by decide
  nodup := by
    rw [List.map_map]
    cases store.dataFile with
    | none => exact List.nodup_nil
    | some path => exact List.pairwise_singleton _ _

theorem DisplayConfig.text_table (display : DisplayConfig) :
    display.table.text = display.lines := by
  have hheader : "[display]\n".toList = '[' :: ("display".toList ++ [']', '\n']) := rfl
  rw [@Table.text_eq display.table _ hheader]
  -- no equation is generated for the lines, which begin with a literal that would be evaluated
  delta DisplayConfig.table DisplayConfig.lines
  simp only [List.flatMap_cons, List.flatMap_nil, Line.text_ofText, Line.text_ofBool,
    List.append_assoc, List.append_nil]

theorem HistoryConfig.text_table (history : HistoryConfig) (h : history.maxSize < UInt64.size) :
    (history.table h).text = history.lines := by
  have hheader : "[history]\n".toList = '[' :: ("history".toList ++ [']', '\n']) := rfl
  rw [@Table.text_eq (history.table h) _ hheader]
  delta HistoryConfig.table HistoryConfig.lines
  simp only [List.flatMap_cons, List.flatMap_nil, Line.text_ofText, Line.text_ofBool,
    Line.text_ofNat, List.append_assoc, List.append_nil]

theorem LoggingConfig.text_table (logging : LoggingConfig) :
    logging.table.text = logging.lines := by
  have hheader : "[logging]\n".toList = '[' :: ("logging".toList ++ [']', '\n']) := rfl
  rw [@Table.text_eq logging.table _ hheader]
  delta LoggingConfig.table LoggingConfig.lines
  simp only [List.flatMap_cons, List.flatMap_nil, Line.text_ofText, Line.text_ofBool,
    List.append_assoc, List.append_nil]

theorem StoreConfig.text_table (store : StoreConfig) : store.table.text = store.lines := by
  have hheader : "[store]\n".toList = '[' :: ("store".toList ++ [']', '\n']) := rfl
  rw [@Table.text_eq store.table _ hheader]
  delta StoreConfig.table StoreConfig.lines
  obtain ⟨dataFile⟩ := store
  cases dataFile with
  | none => rfl
  | some path =>
      simp only [Option.toList_some, List.map_cons, List.map_nil, List.flatMap_cons,
        List.flatMap_nil, Line.text_ofText, List.append_nil]

def Config.tables (config : Config) (h : config.history.maxSize < UInt64.size) : List Table :=
  [config.display.table, config.history.table h, config.logging.table, config.store.table]

theorem Config.toToml_eq (config : Config) (h : config.history.maxSize < UInt64.size) :
    config.toToml = String.ofList (tableText (config.tables h)) := by
  simp only [tableText, Config.tables, List.flatMap_cons, List.flatMap_nil, List.append_nil,
    List.cons_append, List.drop_succ_cons, List.drop_zero, DisplayConfig.text_table,
    HistoryConfig.text_table, LoggingConfig.text_table, StoreConfig.text_table, Config.toToml,
    List.append_assoc]

end Writing

section Reading

theorem settingOr_table {α : Type} {decode : Value → Option α} {entries : List (String × Value)}
    {index : Nat} {key : String} {value : Value} {fallback found : α}
    (hlookup : entries.lookup key = some value) (hdecode : decode value = some found) :
    settingOr decode fallback (.table entries) index key = some found := by
  rw [settingOr, setting?, hlookup]
  exact hdecode

theorem DisplayConfig.ofValue?_table (fallback display : DisplayConfig) :
    fallback.ofValue? (.table display.table.entries) = some display := by
  have hformat : settingOr (fun value => asName? value >>= Format.ofName?) fallback.format
      (.table display.table.entries) 0 "format" = some display.format :=
    settingOr_table rfl (Format.ofName?_name display.format)
  have hcolor : settingOr asBool? fallback.colorOutput (.table display.table.entries) 1
      "color_output" = some display.colorOutput := settingOr_table rfl rfl
  have hsyntax : settingOr asBool? fallback.syntaxHighlighting (.table display.table.entries) 2
      "syntax_highlighting" = some display.syntaxHighlighting := settingOr_table rfl rfl
  have hpager : settingOr asBool? fallback.pager (.table display.table.entries) 3 "pager" =
      some display.pager := settingOr_table rfl rfl
  rw [DisplayConfig.ofValue?, hformat, hcolor, hsyntax, hpager]
  rfl

theorem HistoryConfig.ofValue?_table (fallback history : HistoryConfig)
    (h : history.maxSize < UInt64.size) :
    fallback.ofValue? (.table (history.table h).entries) = some history := by
  have hsize : asSize? (.integer history.maxSize) = some history.maxSize := by
    rw [asSize?, if_pos ⟨Int.natCast_nonneg _, Int.ofNat_lt.mpr h⟩, Int.toNat_natCast]
  have hmax : settingOr asSize? fallback.maxSize (.table (history.table h).entries) 0 "max_size" =
      some history.maxSize := settingOr_table rfl hsize
  have hpath : settingOr asText? fallback.filePath (.table (history.table h).entries) 1
      "file_path" = some history.filePath := settingOr_table rfl rfl
  have hpersist : settingOr asBool? fallback.persist (.table (history.table h).entries) 2
      "persist" = some history.persist := settingOr_table rfl rfl
  rw [HistoryConfig.ofValue?, hmax, hpath, hpersist]
  rfl

theorem LoggingConfig.ofValue?_table (fallback logging : LoggingConfig) :
    fallback.ofValue? (.table logging.table.entries) = some logging := by
  have hlevel : settingOr (fun value => asName? value >>= Level.ofName?) fallback.level
      (.table logging.table.entries) 0 "level" = some logging.level :=
    settingOr_table rfl (Level.ofName?_name logging.level)
  have htimestamps : settingOr asBool? fallback.timestamps (.table logging.table.entries) 1
      "timestamps" = some logging.timestamps := settingOr_table rfl rfl
  rw [LoggingConfig.ofValue?, hlevel, htimestamps]
  rfl

theorem StoreConfig.ofValue?_table (store : StoreConfig) :
    StoreConfig.ofValue? ⟨none⟩ (.table store.table.entries) = some store := by
  obtain ⟨dataFile⟩ := store
  cases dataFile with
  | none => rfl
  | some path => rfl

def Config.groups (config : Config) (h : config.history.maxSize < UInt64.size) :
    List (String × Value) :=
  (config.tables h).map fun table => (table.name, .table table.entries)

theorem Config.ofValue?_groups (home : String) (config : Config)
    (h : config.history.maxSize < UInt64.size) :
    Config.ofValue? (.default home) (.table (config.groups h)) = some config := by
  have hdisplay : settingOr (default home).display.ofValue? (default home).display
      (.table (config.groups h)) 0 "display" = some config.display :=
    settingOr_table rfl (DisplayConfig.ofValue?_table _ _)
  have hhistory : settingOr (default home).history.ofValue? (default home).history
      (.table (config.groups h)) 1 "history" = some config.history :=
    settingOr_table rfl (HistoryConfig.ofValue?_table _ _ h)
  have hlogging : settingOr (default home).logging.ofValue? (default home).logging
      (.table (config.groups h)) 2 "logging" = some config.logging :=
    settingOr_table rfl (LoggingConfig.ofValue?_table _ _)
  have hstore : settingOr (default home).store.ofValue? (default home).store
      (.table (config.groups h)) 3 "store" = some config.store :=
    settingOr_table rfl (StoreConfig.ofValue?_table _)
  rw [Config.ofValue?, hdisplay, hhistory, hlogging, hstore]
  rfl

/-- The text of settings is read as the settings. No default has a file with data, which a text
could leave out but not take away. -/
theorem Config.ofToml_toToml (home : String) {config : Config}
    (h : config.history.maxSize < UInt64.size) :
    Config.ofToml (.default home) config.toToml = .ok config := by
  have hnames : ((config.tables h).map Table.name).Nodup := by
    have hlist : ["display", "history", "logging", "store"].Nodup := by decide
    exact hlist
  have htext : ofText? (String.ofList (tableText (config.tables h))) = some (config.groups h) :=
    ofText?_tableText hnames
  rw [Config.ofToml, Config.toToml_eq config h, htext, Option.bind_some,
    Config.ofValue?_groups home config h]

theorem settingOr_eq_some {α : Type} {decode : Value → Option α} {fallback found : α}
    {group : Value} {index : Nat} {key : String}
    (h : settingOr decode fallback group index key = some found) :
    found = fallback ∨ ∃ value, decode value = some found := by
  obtain ⟨value?, -, h⟩ := Option.bind_eq_some_iff.mp h
  cases value? with
  | none => exact .inl (Option.some.inj h).symm
  | some value => exact .inr ⟨value, h⟩

theorem HistoryConfig.maxSize_lt {fallback history : HistoryConfig} {group : Value}
    (hfallback : fallback.maxSize < UInt64.size) (h : fallback.ofValue? group = some history) :
    history.maxSize < UInt64.size := by
  obtain ⟨-, -, h⟩ := Option.bind_eq_some_iff.mp h
  obtain ⟨maxSize, hsize, h⟩ := Option.bind_eq_some_iff.mp h
  obtain ⟨filePath, -, h⟩ := Option.bind_eq_some_iff.mp h
  obtain ⟨persist, -, h⟩ := Option.bind_eq_some_iff.mp h
  cases h
  rcases settingOr_eq_some hsize with rfl | ⟨value, hvalue⟩
  · exact hfallback
  · unfold asSize? at hvalue
    split at hvalue
    · split at hvalue
      · rename_i hrange
        cases hvalue
        exact (Int.toNat_lt hrange.1).mpr hrange.2
      · cases hvalue
    · cases hvalue

theorem Config.maxSize_lt {fallback config : Config} {text : String}
    (hfallback : fallback.history.maxSize < UInt64.size)
    (h : Config.ofToml fallback text = .ok config) : config.history.maxSize < UInt64.size := by
  unfold Config.ofToml at h
  split at h
  · rename_i found hfound
    cases h
    obtain ⟨entries, -, h⟩ := Option.bind_eq_some_iff.mp hfound
    obtain ⟨-, -, h⟩ := Option.bind_eq_some_iff.mp h
    obtain ⟨display, -, h⟩ := Option.bind_eq_some_iff.mp h
    obtain ⟨history, hhistory, h⟩ := Option.bind_eq_some_iff.mp h
    obtain ⟨logging, -, h⟩ := Option.bind_eq_some_iff.mp h
    obtain ⟨store, -, h⟩ := Option.bind_eq_some_iff.mp h
    cases h
    rcases settingOr_eq_some hhistory with rfl | ⟨group, hgroup⟩
    · exact hfallback
    · exact HistoryConfig.maxSize_lt hfallback hgroup
  · cases h

end Reading

/-- The command line has its way at once. -/
theorem Arguments.override_override (arguments : Arguments) (config : Config) :
    arguments.override (arguments.override config) = arguments.override config := by
  have hformat : ∀ format : Format, arguments.format.getD (arguments.format.getD format) =
      arguments.format.getD format := by
    cases arguments.format <;> exact fun _ => rfl
  have hdata : ∀ path : Option String, arguments.dataFile.or (arguments.dataFile.or path) =
      arguments.dataFile.or path := by
    cases arguments.dataFile <;> exact fun _ => rfl
  simp only [Arguments.override, hformat, hdata, Bool.and_assoc, Bool.and_self, Bool.or_assoc,
    Bool.or_self]
  congr 2
  split
  · rfl
  split
  · rfl
  split <;> rfl

namespace Setup

theorem maxSize_lt_of_fileConfig {home : String} {file : FileText} {config : Config}
    (h : fileConfig home file = .ok config) : config.history.maxSize < UInt64.size := by
  have hdefault : (Config.default home).history.maxSize < UInt64.size := by
    have hsize : 1000 < UInt64.size := by decide
    exact hsize
  unfold fileConfig at h
  split at h
  · split at h
    · rename_i text _ hread
      cases h
      exact Config.maxSize_lt hdefault hread
    · cases h
  · split at h
    · cases h
      exact hdefault
    · cases h

theorem load_of_valid {home : String} {file : FileText} {config : Config}
    (h : fileConfig home file = .ok config) (hvalid : config.validate = .ok ())
    (arguments : Arguments) :
    load home arguments file = .ok ⟨arguments, arguments.override config, none⟩ := by
  simp only [load, h, hvalid, bind, Except.bind, pure, Except.pure]

theorem load_of_invalid {home : String} {file : FileText} {config : Config} {cause : ConfigError}
    (h : fileConfig home file = .ok config) (hinvalid : config.validate = .error cause)
    (arguments : Arguments) :
    load home arguments file =
      .ok ⟨arguments, arguments.override (.default home), some cause⟩ := by
  simp only [load, h, hinvalid, bind, Except.bind, pure, Except.pure]

/-- A run starts with the settings of the file, or else the default ones, under those of the command
line. -/
theorem exists_load_eq {home : String} {file : FileText} {config : Config}
    (h : fileConfig home file = .ok config) (arguments : Arguments) :
    ∃ base rejected, base.validate = .ok () ∧ base.history.maxSize < UInt64.size ∧
      load home arguments file = .ok ⟨arguments, arguments.override base, rejected⟩ := by
  cases hvalid : config.validate with
  | ok _ =>
      have hsize := maxSize_lt_of_fileConfig h
      exact ⟨config, none, hvalid, hsize, load_of_valid h hvalid arguments⟩
  | error cause =>
      have hdefault : fileConfig home (.error .notFound) = .ok (.default home) := rfl
      exact ⟨.default home, some cause, rfl, maxSize_lt_of_fileConfig hdefault,
        load_of_invalid h hvalid arguments⟩

/-- Settings that are written down and loaded by the same command line are what they were. -/
theorem load_toToml (home : String) (arguments : Arguments) {base : Config}
    (hvalid : base.validate = .ok ()) (hsize : base.history.maxSize < UInt64.size) :
    load home arguments (.ok (arguments.override base).toToml) =
      .ok ⟨arguments, arguments.override base, none⟩ := by
  have hread : Config.ofToml (.default home) (arguments.override base).toToml =
      .ok (arguments.override base) := Config.ofToml_toToml home hsize
  have hfile : fileConfig home (.ok (arguments.override base).toToml) =
      .ok (arguments.override base) := by
    rw [fileConfig, hread]
  rw [load_of_valid hfile hvalid arguments, Arguments.override_override]

/-- The settings that a run starts with, be they from a file that can be read or the default ones,
are valid, are read from their text, and come out of it again under the same command line. -/
theorem settings_stable (home : String) (arguments : Arguments) {file : FileText}
    (h : (∃ text config, file = .ok text ∧ Config.ofToml (.default home) text = .ok config) ∨
      ∃ cause, file = .error cause ∧ cause.isAbsent = true) :
    ∃ setup, load home arguments file = .ok setup ∧ setup.config.validate = .ok () ∧
      (∀ other, Config.ofToml (.default other) setup.config.toToml = .ok setup.config) ∧
      ∀ other, load other arguments (.ok setup.config.toToml) =
        .ok ⟨arguments, setup.config, none⟩ := by
  have hfile : ∃ config, fileConfig home file = .ok config := by
    rcases h with ⟨text, config, rfl, hread⟩ | ⟨cause, rfl, habsent⟩
    · exact ⟨config, by rw [fileConfig, hread]⟩
    · exact ⟨.default home, by rw [fileConfig, if_pos habsent]⟩
  obtain ⟨config, hconfig⟩ := hfile
  obtain ⟨base, rejected, hvalid, hsize, hload⟩ := exists_load_eq hconfig arguments
  refine ⟨_, hload, hvalid, ?_, ?_⟩
  · intro other
    exact Config.ofToml_toToml other hsize
  · intro other
    exact load_toToml other arguments hvalid hsize

/-- The path takes an escape, both quotes and a line break, and the file with data a tab. -/
theorem settings_stable_quoted :
    Config.ofToml (.default "/home")
        "[history]\nmax_size = 7\nfile_path = \"a\\\"b\\\\\\u0007\\n'''\"\n" =
      .ok { Config.default "/home" with history := ⟨7, "a\"b\\\x07\n'''", true⟩ } ∧
      ∃ setup, load "/home" ⟨none, none, some "it's \"data\"\t.json", none, [.verbose], none⟩
          (.ok "[history]\nmax_size = 7\nfile_path = \"a\\\"b\\\\\\u0007\\n'''\"\n") = .ok setup ∧
        setup.config.validate = .ok () ∧
        (∀ other, Config.ofToml (.default other) setup.config.toToml = .ok setup.config) ∧
        ∀ other, load other ⟨none, none, some "it's \"data\"\t.json", none, [.verbose], none⟩
            (.ok setup.config.toToml) =
          .ok ⟨⟨none, none, some "it's \"data\"\t.json", none, [.verbose], none⟩, setup.config,
            none⟩ := by
  have hread : Config.ofToml (.default "/home")
      "[history]\nmax_size = 7\nfile_path = \"a\\\"b\\\\\\u0007\\n'''\"\n" =
        .ok { Config.default "/home" with history := ⟨7, "a\"b\\\x07\n'''", true⟩ } := by
    decide +kernel
  exact ⟨hread, settings_stable "/home" _ (.inl ⟨_, _, rfl, hread⟩)⟩

end Setup

end DocShell.Shell
