/-
# `Settings.Effective` — the settings of a run

Settings come from four places.  The settings file comes first, then the single
settings in order, then the flags.  The dialect is guessed from the source's
extension only if none of them names one.

The file is read by a YAML library, which is left open (`Yaml.Library`); the command
itself runs with `Yaml.Library.plain`.
-/
import DefUse.Settings.Arguments
import DefUse.Settings.File
import DefUse.Settings.Override
import DefUse.Settings.Path

namespace DefUse

/-- What reading a file gives. -/
inductive FileState where
  | text (content : String)
  | directory
  | missing
  /-- Something on the way to it is a file. -/
  | notDirectory
  /-- It is longer than a path can be, or a part of it longer than a name can be. -/
  | tooLong
  /-- It has a character that no path can have. -/
  | noPath
  /-- It cannot be read, for a reason given by the system. -/
  | unreadable (cause : String)
deriving DecidableEq, Inhabited

/-- The text of a file, or why there is none. -/
def FileState.content : FileState → Except String String
  | text content => .ok content
  | directory => .error "Is a directory (os error 21)"
  | missing => .error "No such file or directory (os error 2)"
  | notDirectory => .error "Not a directory (os error 20)"
  | tooLong => .error "File name too long (os error 36)"
  | noPath => .error "file name contained an unexpected NUL byte"
  | unreadable cause => .error cause

/-- Is there anything at the path? -/
def FileState.isThere : FileState → Bool
  | missing | notDirectory | tooLong | noPath => false
  | _ => true

/-- Why there are no settings. -/
inductive SettingsFault where
  | unreadable (path cause : String)
  | file (path : String) (fault : FileFault)
  | override (fault : OverrideFault)
deriving DecidableEq, Inhabited

def SettingsFault.message : SettingsFault → String
  | unreadable path _ => "Failed to read config " ++ path
  | file path .unreadable => "Failed to parse YAML " ++ path
  | file path .misshapen => "Invalid config structure in " ++ path
  | override fault => fault.message

/-- What is behind the fault, if there is more to say. -/
def SettingsFault.cause? : SettingsFault → Option String
  | unreadable _ cause => some cause
  | file _ _ => none
  | override fault => fault.cause?

namespace Arguments

/-- The settings of the file and whether it names a dialect; without a file all
settings have their defaults. -/
def loadConfig (arguments : Arguments) (library : Yaml.Library) (file : FileState) :
    Except SettingsFault (Config × Bool) :=
  if file.isThere then
    match file.content with
    | .error cause => .error (.unreadable arguments.config cause)
    | .ok text =>
      match library.load text with
      | .ok loaded => .ok loaded
      | .error fault => .error (.file arguments.config fault)
  else .ok ({}, false)

/-- The settings with those that flags decide. -/
def applyFlags (arguments : Arguments) (config : Config) : Config :=
  let passes := if arguments.has .noSimplify then Simplification.none else config.simplify
  { dialect := arguments.dialect.getD config.dialect
    simplify :=
      { passes with
        mergeChains := arguments.has .mergeChains || passes.mergeChains
        split := arguments.has .split || passes.split }
    maxVisits := config.maxVisits
    dependsEdges := config.dependsEdges && !arguments.has .noDepends }

/-- The settings of a run, given a library and what the settings file holds. -/
def effectiveConfigBy (arguments : Arguments) (library : Yaml.Library) (file : FileState) :
    Except SettingsFault Config :=
  match arguments.loadConfig library file with
  | .error fault => .error fault
  | .ok (loaded, fileSetsDialect) =>
    match loaded.override false arguments.sets with
    | (_, .error fault) => .error (.override fault)
    | (overridden, .ok setsDialect) =>
      let config := arguments.applyFlags overridden
      if arguments.dialect.isNone && !fileSetsDialect && !setsDialect then
        .ok { config with dialect := (Path.dialect? arguments.path).getD config.dialect }
      else .ok config

/-- The settings of a run of the command. -/
def effectiveConfig (arguments : Arguments) (file : FileState) : Except SettingsFault Config :=
  arguments.effectiveConfigBy .plain file

end Arguments

end DefUse
