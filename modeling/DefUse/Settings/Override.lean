/-
# `Settings.Override` — single settings given as `key=value`
-/
import DefUse.Analysis
import DefUse.Text.Blank
import DefUse.Text.Lowercase
import DefUse.Text.Unsigned

namespace DefUse

/-- A value for one setting. -/
inductive Setting where
  | maxVisits (value : Nat)
  | dependsEdges (on : Bool)
  | dialect (value : Dialect)
  | emptyJumps (on : Bool)
  | trueBranches (on : Bool)
  | mergeChains (on : Bool)
  | split (on : Bool)
deriving DecidableEq, Inhabited

/-- Why a text is no setting. -/
inductive OverrideFault where
  | noEquals (text : String)
  | unknownKey (key : String)
  | unknownDialect (name : String)
  | badNumber (value : String) (fault : Text.NumberFault)
deriving DecidableEq, Inhabited

def OverrideFault.message : OverrideFault → String
  | noEquals text => "override `" ++ text ++ "` is not of the form key=value"
  | unknownKey key => "unknown config key `" ++ key ++ "`"
  | unknownDialect name => "unknown dialect `" ++ name ++ "`"
  | badNumber value _ => "max_visits must be a number, got `" ++ value ++ "`"

/-- What is behind the fault, if there is more to say. -/
def OverrideFault.cause? : OverrideFault → Option String
  | badNumber _ fault => some fault.message
  | _ => none

namespace Setting

/-- A switch is on for three words, and off for any other text. -/
def isOn (value : String) : Bool :=
  value = "true" || value = "1" || value = "yes"

/-- The dialect with a name or a short name in any letters. -/
def dialectOf (value : String) : Except OverrideFault Dialect :=
  match Text.lowercase value with
  | "typescript" | "ts" => .ok .typescript
  | "javascript" | "js" => .ok .javascript
  | name => .error (.unknownDialect name)

/-- The setting of a key and a value. -/
def ofPair (key value : String) : Except OverrideFault Setting :=
  match key with
  | "max_visits" =>
    match Text.readUnsigned value with
    | .ok number => .ok (.maxVisits number)
    | .error fault => .error (.badNumber value fault)
  | "depends_edges" => .ok (.dependsEdges (isOn value))
  | "dialect" => (dialectOf value).map .dialect
  | "simplify.eliminate_empty_jumps" => .ok (.emptyJumps (isOn value))
  | "simplify.eliminate_true_branches" => .ok (.trueBranches (isOn value))
  | "simplify.merge_jump_chains" => .ok (.mergeChains (isOn value))
  | "simplify.split" => .ok (.split (isOn value))
  | key => .error (.unknownKey key)

/-- Cuts a text at the first equals sign; both parts lose the white space at their
ends. -/
def cut? (text : String) : Option (String × String) :=
  let chars := text.toList
  match chars.dropWhile (· ≠ '=') with
  | [] => none
  | _ :: value =>
    some (Text.trim (String.ofList (chars.takeWhile (· ≠ '='))),
      Text.trim (String.ofList value))

/-- Reads a setting. -/
def parse (text : String) : Except OverrideFault Setting :=
  match cut? text with
  | some (key, value) => ofPair key value
  | none => .error (.noEquals text)

/-- Changes the one setting. -/
def apply : Setting → Config → Config
  | maxVisits value, config => { config with maxVisits := value }
  | dependsEdges on, config => { config with dependsEdges := on }
  | dialect value, config => { config with dialect := value }
  | emptyJumps on, config =>
    { config with simplify := { config.simplify with emptyJumps := on } }
  | trueBranches on, config =>
    { config with simplify := { config.simplify with trueBranches := on } }
  | mergeChains on, config =>
    { config with simplify := { config.simplify with mergeChains := on } }
  | split on, config => { config with simplify := { config.simplify with split := on } }

/-- Is it a setting of the dialect? -/
def setsDialect : Setting → Bool
  | dialect _ => true
  | _ => false

end Setting

/-- Applies settings in order up to the first that is none.  The settings before it
stay applied.  The result says whether the dialect was set. -/
def Config.override (config : Config) (setsDialect : Bool) :
    List String → Config × Except OverrideFault Bool
  | [] => (config, .ok setsDialect)
  | text :: rest =>
    match Setting.parse text with
    | .ok setting => (setting.apply config).override (setsDialect || setting.setsDialect) rest
    | .error fault => (config, .error fault)

end DefUse
