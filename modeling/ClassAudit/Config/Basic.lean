import ClassAudit.Config.IgnorePattern
import ClassAudit.Config.Options
import ClassAudit.Config.Path
/-!
# Configurations

Options bound to a project: the base directory is resolved and may not leave the project, and the
ignore patterns are read.
-/

namespace ClassAudit

/-- A configuration of an audit. -/
structure Config where
  projectRoot : Path
  /-- The directory that the globs start from. -/
  baseDir : Path
  cssFiles : List Text
  excludePatterns : List Text
  ignorePatterns : List IgnorePattern
  ignoreTailwind : Bool
  requireTailwindConfig : Bool
  allowDynamicClasses : Bool
  debug : Bool

/-- Why options fit no project. -/
inductive ConfigError where
  | nullByte
  /-- The base directory leaves the project. -/
  | outsideProject (baseDir : Path)
  deriving DecidableEq

/-- The wording of a configuration error. -/
def ConfigError.message : ConfigError → String
  | nullByte => "Security Error: baseDir must not contain null bytes"
  | outsideProject _ => "Security Error: baseDir must be within project directory"

namespace Config

/-- Resolves a base directory in a project without looking at any file. -/
def locateBase (root : Path) (baseDir : Option Text) : Except ConfigError Path :=
  match baseDir with
  | none => .ok root
  | some text =>
    if text.contains '\x00' then .error .nullByte
    else
      let resolved := (root.join (.ofText text)).normalize
      if resolved.isWithin root then .ok resolved else .error (.outsideProject resolved)

/-- Binds options to a project, whose root is seen from the working directory. The ignore patterns
are read by a library of regular expressions. -/
def ofOptions (read? : PatternReader) (workingDir : Path) (options : Options) (root : Path) :
    Except ConfigError Config := do
  let projectRoot := Path.resolveRoot workingDir root
  let baseDir ← locateBase projectRoot options.baseDir
  return {
    projectRoot
    baseDir
    cssFiles := options.cssFiles
    excludePatterns := options.excludePatterns
    ignorePatterns := IgnorePattern.compileAll read? options.ignorePatterns
    ignoreTailwind := options.ignoreTailwind
    requireTailwindConfig := options.requireTailwindConfig
    allowDynamicClasses := options.allowDynamicClasses
    debug := options.debug }

/-- Whether a class name matches an ignore pattern. -/
def isIgnored (config : Config) (name : Text) : Bool :=
  config.ignorePatterns.any fun pattern => pattern.isMatch name

end Config

end ClassAudit
