/-
# `Command` — the whole command

Given the command line, the two files it names and the trees that a parser makes
of the source, this is what the command prints and how it ends.  Reading the files
and parsing the source are left to the caller.
-/
import DefUse.Dependency.Listing
import DefUse.Diagram.Mermaid
import DefUse.Diagram.Record
import DefUse.Settings.Effective
import DefUse.Text.Lines

namespace DefUse

/-- What a run of the command leaves behind. -/
structure Outcome where
  exit : Nat
  stdout : String
  stderr : String
deriving DecidableEq, Inhabited

namespace Outcome

/-- A run that ends well. -/
def success (stdout stderr : String) : Outcome :=
  ⟨0, stdout, stderr⟩

/-- A run that fails, with a message and what is behind it. -/
def failure (message : String) (cause : Option String) : Outcome :=
  let behind := match cause with
    | none => ""
    | some cause => "\nCaused by:\n    " ++ cause ++ "\n"
  ⟨1, "", "Error: " ++ message ++ "\n" ++ behind⟩

end Outcome

/-- A run without settings.  A fault in the settings file is told in one line. -/
def SettingsFault.outcome (fault : SettingsFault) : Outcome :=
  match fault with
  | .file .. => .failure (Text.firstLine fault.message) none
  | _ => .failure fault.message fault.cause?

/-- The text output: the graph, then the dependencies in one of their forms. -/
def Program.report (program : Program) (analysis : Analysis) (dependencies : String) : String :=
  let listing := if dependencies = "" then "  none\n" else dependencies
  "Control flow:\n" ++ program.graphText analysis.graph ++ "\nData dependencies:\n" ++ listing

/-- The warning about a result that was cut short. -/
def Analysis.warning (config : Config) (analysis : Analysis) : String :=
  if analysis.dependencies.truncated then
    "warning: fixpoint stopped after " ++ toString config.maxVisits ++
      " visits; dependencies may be incomplete\n"
  else ""

/-- What is printed about an analysis. -/
def Program.present (program : Program) (config : Config) (analysis : Analysis) :
    Format → Outcome
  | .text =>
    .success (program.report analysis (program.nestedText analysis.dependencies))
      (analysis.warning config)
  | .flat =>
    .success (program.report analysis (program.flatText analysis.dependencies))
      (analysis.warning config)
  | .json => .success ((analysis.diagram program config).toJson.pretty ++ "\n") ""
  | .mermaid => .success ((analysis.diagram program config).mermaid ++ "\n") ""

/-- Runs the command with accepted arguments.  `tree` gives the tree of the source in
a dialect. -/
def Arguments.run (arguments : Arguments) (configFile sourceFile : FileState)
    (tree : Dialect → Option Tree.Node) : Outcome :=
  match arguments.effectiveConfig configFile with
  | .error fault => fault.outcome
  | .ok config =>
    match sourceFile.content with
    | .error cause => .failure ("Failed to read " ++ arguments.path) cause
    | .ok source =>
      match Program.parse source config.dialect (tree config.dialect) with
      | .error fault => .failure ("Failed to parse " ++ arguments.path) fault.message
      | .ok program =>
        let analysis :=
          if arguments.has .lexical then program.analyzeLexical config
          else program.analyze config
        match analysis with
        | .error fault =>
          .failure ("Analysis of " ++ arguments.path ++ " failed") fault.message
        | .ok analysis => program.present config analysis arguments.format

end DefUse
