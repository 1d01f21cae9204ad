import ClassAudit.Json.Basic
/-!
# Options

What a user may set, with the defaults and the presets. Options are read from settings, which are
pairs of a name and a value; each option has two names, and may be set once by either of them.
-/

namespace ClassAudit

/-- The options of an audit. -/
structure Options where
  /-- The globs of the style sheets to read. -/
  cssFiles : List Text := Text.table ["**/*.css"]
  /-- The globs of the files to leave out. -/
  excludePatterns : List Text := Text.table ["**/node_modules/**"]
  /-- The directory that the globs start from. -/
  baseDir : Option Text := none
  /-- The patterns of class names that are never reported. -/
  ignorePatterns : List Text := []
  /-- Whether the classes of the utility framework are known. -/
  ignoreTailwind : Bool := true
  /-- Whether they are known only in a project that uses the framework. -/
  requireTailwindConfig : Bool := false
  /-- Whether computed class names are accepted. -/
  allowDynamicClasses : Bool := true
  debug : Bool := false
  deriving DecidableEq

/-- A named set of options. -/
inductive Preset where
  | recommended
  | strict
  | framework
  deriving DecidableEq

/-- The options of a preset. -/
def Preset.options : Preset → Options
  | recommended => {}
  | strict => { allowDynamicClasses := false, requireTailwindConfig := true }
  | framework => { ignoreTailwind := true }

/-- The value of a setting. -/
inductive SettingValue where
  | text (value : Text)
  | texts (values : List Text)
  | flag (value : Bool)
  /-- No value. -/
  | none
  /-- A value that no option takes. -/
  | other
  deriving DecidableEq

namespace SettingValue

/-- The value of a setting that takes a list of texts. -/
def texts? : SettingValue → Option (List Text)
  | texts values => some values
  | _ => Option.none

/-- The value of a setting that takes a truth value. -/
def flag? : SettingValue → Option Bool
  | flag value => some value
  | _ => Option.none

/-- The value of a setting that takes a text or nothing. -/
def optionalText? : SettingValue → Option (Option Text)
  | text value => some (some value)
  | none => some Option.none
  | _ => Option.none

/-- A JSON value as the value of a setting. -/
def ofJson : Json → SettingValue
  | .null => none
  | .bool value => flag value
  | .string (some value) => text value
  | .array items => ((items.mapM Json.text?).map texts).getD other
  | _ => other

end SettingValue

/-- The things that can be set. -/
inductive OptionName where
  | cssFiles
  | excludePatterns
  | baseDir
  | ignorePatterns
  | ignoreTailwind
  | requireTailwindConfig
  | allowDynamicClasses
  | debug
  deriving DecidableEq

namespace OptionName

/-- The option that a name stands for. -/
def ofText? (name : Text) : Option OptionName :=
  match String.ofList name with
  | "css_files" | "cssFiles" => some cssFiles
  | "exclude_patterns" | "excludePatterns" => some excludePatterns
  | "base_dir" | "baseDir" => some baseDir
  | "ignore_patterns" | "ignorePatterns" => some ignorePatterns
  | "ignore_tailwind" | "ignoreTailwind" => some ignoreTailwind
  | "require_tailwind_config" | "requireTailwindConfig" => some requireTailwindConfig
  | "allow_dynamic_classes" | "allowDynamicClasses" => some allowDynamicClasses
  | "debug" => some debug
  | _ => none

end OptionName

namespace Options

/-- The options with one of them set. -/
def set? (options : Options) (name : OptionName) (value : SettingValue) : Option Options :=
  match name with
  | .cssFiles => value.texts?.map fun globs => { options with cssFiles := globs }
  | .excludePatterns => value.texts?.map fun globs => { options with excludePatterns := globs }
  | .baseDir => value.optionalText?.map fun dir => { options with baseDir := dir }
  | .ignorePatterns => value.texts?.map fun patterns => { options with ignorePatterns := patterns }
  | .ignoreTailwind => value.flag?.map fun flag => { options with ignoreTailwind := flag }
  | .requireTailwindConfig =>
    value.flag?.map fun flag => { options with requireTailwindConfig := flag }
  | .allowDynamicClasses => value.flag?.map fun flag => { options with allowDynamicClasses := flag }
  | .debug => value.flag?.map fun flag => { options with debug := flag }

/-- Applies settings, of which each names an option that none before it has named. -/
def applyAll? (options : Options) (seen : List OptionName) :
    List (Text × SettingValue) → Option Options
  | [] => some options
  | (name, value) :: rest => do
    let option ← OptionName.ofText? name
    if seen.contains option then none
    else applyAll? (← options.set? option value) (option :: seen) rest

/-- The defaults with settings applied. -/
def ofSettings? (settings : List (Text × SettingValue)) : Option Options :=
  applyAll? {} [] settings

/-- The options that a JSON object sets. -/
def ofJson? (value : Json) : Option Options := do
  let settings ← (← value.entries?).mapM fun entry => do
    return (← entry.1, SettingValue.ofJson entry.2)
  ofSettings? settings

end Options

end ClassAudit
