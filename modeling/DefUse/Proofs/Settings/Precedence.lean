/-
# `Proofs.Settings.Precedence` — which source decides a setting

Settings come from a file, from single settings and from flags; the extension of the
source says something about the dialect.  One rule holds for all of them
(`Arguments.Settled`): a flag decides before the last single setting for the key, which
decides before the file, and what none of them decides has its default.  For the dialect,
the extension stands between the file and the default (`Arguments.Suggests`).

Given a file that loads, the settings are found by this rule, or there is a single
setting that is none; then the first of them is the fault
(`Arguments.effectiveConfigBy_precedence`).  The rule leaves no choice (`Settled.unique`), so
the settings that follow it are these and no others.

Of the library that loads the file, one thing has to be known: where no dialect is named,
the settings that it returns have the default (`Yaml.Library.FillsIn`).
-/
import DefUse.Proofs.Settings.Override
import DefUse.Proofs.Settings.Path
import DefUse.Settings.Effective

namespace DefUse

open Setting

/-! ## The file -/

namespace Settings

theorem eq_filterMap_of_mapM {α β : Type} {f : α → Option β} {list : List α} {result : List β}
    (h : list.mapM f = some result) : result = list.filterMap f := by
  induction list generalizing result with
  | nil =>
      cases h
      rfl
  | cons first rest ih =>
      rw [List.mapM_cons] at h
      obtain ⟨value, hvalue, hrest⟩ := Option.bind_eq_some_iff.mp h
      obtain ⟨values, hvalues, hresult⟩ := Option.bind_eq_some_iff.mp hrest
      cases hresult
      rw [List.filterMap_cons_some hvalue, ← ih hvalues]

/-- Where the dialect is no key, no entry is read for it. -/
theorem filter_dialect_of_not_hasKey {node : Yaml.Node} {entries : Entries}
    (hentries : meantEntries? node = some entries) (h : hasKey "dialect" node = false) :
    entries.filter (fun entry => entry.1 = "dialect") = [] := by
  rw [List.filter_eq_nil_iff]
  cases node with
  | scalar plain text =>
      rw [meantEntries?] at hentries
      split at hentries <;> cases hentries
      nofun
  | mapping pairs =>
      rw [meantEntries?] at hentries
      rw [hasKey, ← eq_filterMap_of_mapM hentries, List.any_eq_false] at h
      exact h
  | _ => cases hentries

theorem dialect_of_config? {config : Config} {number : Yaml.Node → Option Nat}
    {inner : Yaml.Node → Option Entries} {entries : Entries}
    (hconfig : config? number inner entries = some config)
    (h : entries.filter (fun entry => entry.1 = "dialect") = []) :
    config.dialect = ({} : Config).dialect := by
  obtain ⟨dialect, hdialect, hrest⟩ := Option.bind_eq_some_iff.mp hconfig
  rw [Entries.read?, h] at hdialect
  cases hdialect
  obtain ⟨simplify, -, hrest⟩ := Option.bind_eq_some_iff.mp hrest
  obtain ⟨maxVisits, -, hrest⟩ := Option.bind_eq_some_iff.mp hrest
  obtain ⟨dependsEdges, -, hresult⟩ := Option.bind_eq_some_iff.mp hrest
  cases hresult
  rfl

end Settings

namespace Yaml.Library

/-- The settings that a library loads from a file, and whether the file names a dialect.  If there
is no file, all settings have their defaults. -/
inductive Loads (library : Library) : FileState → Config → Bool → Prop
  | text {text : String} {value : library.Value} {config : Config} :
      library.value? text = some value → library.config? value = some config →
      Loads library (.text text) config (library.hasKey "dialect" value)
  | nothing {file : FileState} : file ∈ [.missing, .notDirectory, .tooLong, .noPath] →
      Loads library file {} false

/-- What the file leaves out has its default: if the dialect is no key of it, the settings in it
have the default dialect. -/
def FillsIn (library : Library) (file : FileState) : Prop :=
  ∀ text value config, file = .text text → library.value? text = some value →
    library.config? value = some config → library.hasKey "dialect" value = false →
    config.dialect = ({} : Config).dialect

variable {library : Library} {file : FileState} {loaded : Config} {named : Bool}

theorem fillsIn_plain (file : FileState) : plain.FillsIn file := by
  intro text node config _ _ hconfig hkey
  obtain ⟨entries, hentries, hconfig⟩ := Option.bind_eq_some_iff.mp hconfig
  exact Settings.dialect_of_config? hconfig (Settings.filter_dialect_of_not_hasKey hentries hkey)

theorem Loads.dialect_of_not_named (h : library.Loads file loaded false)
    (hfills : library.FillsIn file) : loaded.dialect = ({} : Config).dialect := by
  generalize hnamed : false = named at h
  cases h with
  | text hvalue hconfig => exact hfills _ _ _ rfl hvalue hconfig hnamed.symm
  | nothing _ => rfl

theorem load_eq_ok_iff {text : String} : library.load text = .ok (loaded, named) ↔ ∃ value,
    library.value? text = some value ∧ library.config? value = some loaded ∧
      library.hasKey "dialect" value = named := by
  rw [load]
  split
  · simp_all
  · split <;> simp_all

/-- The command gets from a file what is loaded from it. -/
theorem loadConfig_eq_ok_iff {arguments : Arguments} :
    arguments.loadConfig library file = .ok (loaded, named) ↔ library.Loads file loaded named := by
  constructor
  · intro h
    cases file with
    | text text =>
        simp only [Arguments.loadConfig, FileState.isThere, FileState.content, if_true] at h
        split at h
        · rename_i hload
          cases h
          obtain ⟨value, hvalue, hconfig, rfl⟩ := load_eq_ok_iff.mp hload
          exact .text hvalue hconfig
        · cases h
    | directory => cases h
    | unreadable cause => cases h
    | _ =>
        cases h
        exact .nothing (by simp)
  · intro h
    cases h with
    | text hvalue hconfig =>
        have hload := load_eq_ok_iff.mpr ⟨_, hvalue, hconfig, rfl⟩
        simp [Arguments.loadConfig, FileState.isThere, FileState.content, hload]
    | nothing hfile =>
        simp only [List.mem_cons, List.not_mem_nil, or_false] at hfile
        rcases hfile with rfl | rfl | rfl | rfl <;> rfl

end Yaml.Library

/-! ## The rule -/

/-- A switch: its key, its place in the settings, the flag that clears it, and the flag that sets it
after all, if there is one. -/
structure Switch where
  key : String
  part : Config → Bool
  clearedBy : Flag
  setBy : Option Flag := none

/-- All switches. -/
def Switch.all : List Switch :=
  [{ key := "depends_edges", part := (·.dependsEdges), clearedBy := .noDepends },
    { key := "simplify.eliminate_empty_jumps", part := (·.simplify.emptyJumps)
      clearedBy := .noSimplify },
    { key := "simplify.eliminate_true_branches", part := (·.simplify.trueBranches)
      clearedBy := .noSimplify },
    { key := "simplify.merge_jump_chains", part := (·.simplify.mergeChains)
      clearedBy := .noSimplify, setBy := some .mergeChains },
    { key := "simplify.split", part := (·.simplify.split)
      clearedBy := .noSimplify, setBy := some .split }]

/-- What the flags make of a switch. -/
def Switch.flagged (switch : Switch) (arguments : Arguments) (on : Bool) : Bool :=
  if switch.setBy.any arguments.has then true
  else if arguments.has switch.clearedBy then false
  else on

namespace Arguments

/-- The dialect that the source is taken for where none is named: what its extension means, and the
default if it means nothing. -/
inductive Suggests (path : String) : Dialect → Prop
  | extension {dialect : Dialect} : Path.Means path dialect → Suggests path dialect
  | default : (∀ dialect, ¬ Path.Means path dialect) → Suggests path ({} : Config).dialect

/-- The settings by their sources, given those of the file and whether it names a dialect. -/
structure Settled (arguments : Arguments) (loaded : Config) (named : Bool) (config : Config) :
    Prop where
  maxVisits : Decides arguments.sets "max_visits" Text.IsUnsigned loaded.maxVisits config.maxVisits
  switches : ∀ switch ∈ Switch.all, ∃ on,
    Decides arguments.sets switch.key Switches (switch.part loaded) on ∧
      switch.part config = switch.flagged arguments on
  dialect : ∃ base overridden,
    (if named then base = loaded.dialect else Suggests arguments.path base) ∧
      Decides arguments.sets "dialect" IsDialect base overridden ∧
      config.dialect = arguments.dialect.getD overridden

variable {switch : Switch} {arguments : Arguments} {file : FileState} {library : Yaml.Library}
  {path : String} {dialect dialect' : Dialect} {loaded after config config' : Config}
  {named set : Bool}

theorem suggests_getD (path : String) :
    Suggests path ((Path.dialect? path).getD ({} : Config).dialect) := by
  cases hmeans : Path.dialect? path with
  | none => exact .default (Path.dialect?_eq_none_iff.mp hmeans)
  | some dialect => exact .extension (Path.dialect?_eq_some_iff.mp hmeans)

theorem Suggests.unique (h : Suggests path dialect) (h' : Suggests path dialect') :
    dialect = dialect' := by
  cases h with
  | extension hmeans =>
      cases h' with
      | extension hmeans' => exact hmeans.unique hmeans'
      | default hnone => exact absurd hmeans (hnone _)
  | default hnone =>
      cases h' with
      | extension hmeans' => exact absurd hmeans' (hnone _)
      | default _ => rfl

theorem governs_switch (h : switch ∈ Switch.all) : Governs switch.key Switches switch.part := by
  intro setting config
  simp only [Switch.all, List.mem_cons, List.not_mem_nil, or_false] at h
  rcases h with rfl | rfl | rfl | rfl | rfl <;>
    cases setting <;> simp [Setting.key, HasValue, Setting.apply]

/-- Flags do to a switch what they should, whatever becomes of the dialect. -/
theorem part_applyFlags (h : switch ∈ Switch.all) (arguments : Arguments) (config : Config)
    (dialect : Dialect) :
    switch.part { arguments.applyFlags config with dialect := dialect } =
      switch.flagged arguments (switch.part config) := by
  simp only [Switch.all, List.mem_cons, List.not_mem_nil, or_false] at h
  rcases h with rfl | rfl | rfl | rfl | rfl <;>
    simp only [applyFlags, Switch.flagged, Option.any, Bool.false_eq_true, if_false] <;>
    split_ifs <;> simp_all [Simplification.none]

/-! ## The settings follow it -/

theorem effectiveConfigBy_of_override (hload : library.Loads file loaded named)
    (hrun : loaded.override false arguments.sets = (after, .ok set)) :
    arguments.effectiveConfigBy library file = .ok { arguments.applyFlags after with
      dialect := arguments.dialect.getD (if named || set then after.dialect
        else (Path.dialect? arguments.path).getD after.dialect) } := by
  rw [effectiveConfigBy, Yaml.Library.loadConfig_eq_ok_iff.mpr hload]
  simp only [hrun]
  cases hflag : arguments.dialect <;> cases named <;> cases set <;>
    simp [applyFlags, hflag]

theorem effectiveConfigBy_of_refused {cause : OverrideFault}
    (hload : library.Loads file loaded named)
    (hrun : (loaded.override false arguments.sets).2 = .error cause) :
    arguments.effectiveConfigBy library file = .error (.override cause) := by
  have hresult : loaded.override false arguments.sets =
      ((loaded.override false arguments.sets).1, .error cause) := Prod.ext rfl hrun
  rw [effectiveConfigBy, Yaml.Library.loadConfig_eq_ok_iff.mpr hload]
  simp only
  rw [hresult]

/-- The dialect that is left before flags are looked at. -/
theorem exists_decides_dialect (hload : library.Loads file loaded named)
    (hfills : library.FillsIn file)
    (hrun : loaded.override false arguments.sets = (after, .ok set)) :
    ∃ base, (if named then base = loaded.dialect else Suggests arguments.path base) ∧
      Decides arguments.sets "dialect" IsDialect base
        (if named || set then after.dialect
          else (Path.dialect? arguments.path).getD after.dialect) := by
  have hset := Config.override_setsDialect hrun
  have hdialect := Config.decides_override governs_dialect hrun
  have hbase : ∃ base, if named then base = loaded.dialect else Suggests arguments.path base := by
    cases named with
    | true => exact ⟨loaded.dialect, rfl⟩
    | false => exact ⟨_, suggests_getD arguments.path⟩
  generalize after.dialect = overridden at hdialect ⊢
  cases hdialect with
  | last hlast hmeant =>
      obtain ⟨base, hbase⟩ := hbase
      have htrue : set = true := by
        by_contra hfalse
        exact hlast.not_silent (hset.mp (Bool.eq_false_iff.mpr hfalse)).2
      exact ⟨base, hbase, by simpa [htrue] using Decides.last hlast hmeant⟩
  | none hsilent =>
      cases hset.mpr ⟨rfl, hsilent⟩
      cases named with
      | true => exact ⟨_, rfl, .none hsilent⟩
      | false =>
          rw [hload.dialect_of_not_named hfills]
          exact ⟨_, suggests_getD arguments.path, .none hsilent⟩

theorem exists_settled (hload : library.Loads file loaded named) (hfills : library.FillsIn file)
    (hrun : loaded.override false arguments.sets = (after, .ok set)) :
    ∃ config, arguments.effectiveConfigBy library file = .ok config ∧
      arguments.Settled loaded named config := by
  obtain ⟨base, hbase, hdialect⟩ := exists_decides_dialect hload hfills hrun
  have hvisits := Config.decides_override governs_maxVisits hrun
  refine ⟨_, effectiveConfigBy_of_override hload hrun, hvisits, ?_, base, _, hbase, hdialect, rfl⟩
  intro switch hswitch
  exact ⟨_, Config.decides_override (governs_switch hswitch) hrun, part_applyFlags hswitch _ _ _⟩

theorem effectiveConfigBy_cases (hload : library.Loads file loaded named)
    (hfills : library.FillsIn file) :
    (∃ cause, Config.FirstRefused arguments.sets cause ∧
      arguments.effectiveConfigBy library file = .error (.override cause)) ∨
    (∀ text ∈ arguments.sets, Legible text) ∧
      ∃ config, arguments.effectiveConfigBy library file = .ok config ∧
        arguments.Settled loaded named config := by
  cases hend : (loaded.override false arguments.sets).2 with
  | error cause =>
      exact .inl ⟨cause, Config.override_eq_error_iff.mp hend,
        effectiveConfigBy_of_refused hload hend⟩
  | ok set =>
      have hrun : loaded.override false arguments.sets =
          ((loaded.override false arguments.sets).1, .ok set) := Prod.ext rfl hend
      exact .inr ⟨Config.override_eq_ok_iff.mp ⟨_, _, hrun⟩, exists_settled hload hfills hrun⟩

/-- The rule leaves no choice. -/
theorem Settled.unique (h : arguments.Settled loaded named config)
    (h' : arguments.Settled loaded named config') : config = config' := by
  have hvisits := h.maxVisits.unique h'.maxVisits Text.IsUnsigned.unique
  have hparts : ∀ switch ∈ Switch.all, switch.part config = switch.part config' := by
    intro switch hswitch
    obtain ⟨on, hon, hpart⟩ := h.switches switch hswitch
    obtain ⟨on', hon', hpart'⟩ := h'.switches switch hswitch
    rw [hpart, hpart', hon.unique hon' Switches.unique]
  have hdialect : config.dialect = config'.dialect := by
    obtain ⟨base, overridden, hbase, hdecides, hflag⟩ := h.dialect
    obtain ⟨base', overridden', hbase', hdecides', hflag'⟩ := h'.dialect
    have hsame : base = base' := by
      cases named with
      | true => exact hbase.trans hbase'.symm
      | false => exact Suggests.unique hbase hbase'
    cases hsame
    rw [hflag, hflag', hdecides.unique hdecides' IsDialect.unique]
  simp only [Switch.all, List.forall_mem_cons] at hparts
  obtain ⟨hdepends, hempty, htrue, hmerge, hsplit, -⟩ := hparts
  obtain ⟨_, ⟨_, _, _, _⟩, _, _⟩ := config
  obtain ⟨_, ⟨_, _, _, _⟩, _, _⟩ := config'
  simp_all

/-- The order of two neighbours that are for different keys does not matter, unless both are
refused. -/
theorem effectiveConfigBy_swap {front back : List String}
    {first second key key' value value' : String} (hload : library.Loads file loaded named)
    (hsets : arguments.sets = front ++ first :: second :: back) (hfirst : Gives first key value)
    (hsecond : Gives second key' value') (hne : key ≠ key')
    (hlegible : Legible first ∨ Legible second) :
    Arguments.effectiveConfigBy { arguments with sets := front ++ second :: first :: back }
        library file =
      arguments.effectiveConfigBy library file := by
  rcases Config.override_swap hfirst hsecond hne hlegible front back loaded false with
    heq | ⟨fault, hswapped, hfault⟩
  · rw [effectiveConfigBy, effectiveConfigBy, Yaml.Library.loadConfig_eq_ok_iff.mpr hload,
      Yaml.Library.loadConfig_eq_ok_iff.mpr hload]
    simp only [heq, hsets]
    rfl
  · rw [← hsets] at hfault
    rw [effectiveConfigBy_of_refused hload hfault, effectiveConfigBy_of_refused hload hswapped]

/-- Given a settings file that loads, with the default dialect unless it names one: there are no
settings if some text is refused, for the reason of the first of them; otherwise they are found by
the rule; and two neighbours that are for different keys can be swapped, unless both are refused. -/
theorem effectiveConfigBy_precedence (hload : library.Loads file loaded named)
    (hfills : library.FillsIn file) :
    (∀ fault, arguments.effectiveConfigBy library file = .error fault ↔
      ∃ cause, Config.FirstRefused arguments.sets cause ∧ fault = .override cause) ∧
    (∀ config, arguments.effectiveConfigBy library file = .ok config ↔
      (∀ text ∈ arguments.sets, Legible text) ∧ arguments.Settled loaded named config) ∧
    ∀ front back first second key key' value value',
      arguments.sets = front ++ first :: second :: back → Gives first key value →
      Gives second key' value' → key ≠ key' → Legible first ∨ Legible second →
      Arguments.effectiveConfigBy { arguments with sets := front ++ second :: first :: back }
        library file =
        arguments.effectiveConfigBy library file := by
  refine ⟨?_, ?_, ?_⟩
  · intro fault
    constructor
    · intro h
      rcases effectiveConfigBy_cases hload hfills with
        ⟨cause, hfirst, herror⟩ | ⟨-, config, hok, -⟩
      · exact ⟨cause, hfirst, Except.error.inj (h.symm.trans herror)⟩
      · cases h.symm.trans hok
    · rintro ⟨cause, hfirst, rfl⟩
      exact effectiveConfigBy_of_refused hload (Config.override_eq_error_iff.mpr hfirst)
  · intro config
    rcases effectiveConfigBy_cases hload hfills with
      ⟨cause, ⟨before, text, after, hsets, -, hrefused⟩, herror⟩ | ⟨hlegible, found, hok, hsettled⟩
    · refine iff_of_false (by rw [herror]; nofun) ?_
      rintro ⟨hlegible, -⟩
      exact hlegible text (by simp [hsets]) cause hrefused
    · constructor
      · intro h
        cases h.symm.trans hok
        exact ⟨hlegible, hsettled⟩
      · rintro ⟨-, hsettled'⟩
        rw [hok, hsettled.unique hsettled']
  · intro front back first second key key' value value' hsets hfirst hsecond hne hlegible
    exact effectiveConfigBy_swap hload hsets hfirst hsecond hne hlegible

/-- Two runs.  In the first every source has something to say: the file on the dialect and on the
visits, the single settings on both and twice on the visits, and the flags on what is split and
merged.  In the second nothing but the extension says what the dialect is. -/
theorem effectiveConfigBy_precedence_layers :
    let layered : Arguments :=
      { path := "lib/a.js"
        flags := [.noSimplify, .mergeChains]
        sets := [" max_visits = +7 ", "dialect=TS", "simplify.split=yes", "max_visits=9 ",
          "depends_edges=on"] }
    let file : FileState := .text "dialect: javascript\nmax_visits: 5\n"
    let loaded : Config := { dialect := .javascript, maxVisits := 5 }
    let config : Config :=
      { dialect := .typescript
        simplify := { Simplification.none with mergeChains := true }
        maxVisits := 9
        dependsEdges := false }
    let guessed : Arguments := { path := "lib/a.b.MJS", sets := ["max_visits=7"] }
    let silent : FileState := .text "simplify:\n  split: true\n"
    let loaded' : Config := { simplify := { split := true } }
    let config' : Config :=
      { dialect := .javascript, simplify := { split := true }, maxVisits := 7 }
    (Yaml.Library.plain.Loads file loaded true ∧ Yaml.Library.plain.FillsIn file ∧
      layered.effectiveConfig file = .ok config ∧
      (∀ text ∈ layered.sets, Legible text) ∧ layered.Settled loaded true config) ∧
    (Yaml.Library.plain.Loads silent loaded' false ∧ Yaml.Library.plain.FillsIn silent ∧
      guessed.effectiveConfig silent = .ok config' ∧
      (∀ text ∈ guessed.sets, Legible text) ∧ guessed.Settled loaded' false config') := by
  intro layered file loaded config guessed silent loaded' config'
  have hloads : layered.loadConfig .plain file = .ok (loaded, true) := by decide +kernel
  have hconfig : layered.effectiveConfig file = .ok config := by decide +kernel
  have hloads' : guessed.loadConfig .plain silent = .ok (loaded', false) := by decide +kernel
  have hconfig' : guessed.effectiveConfig silent = .ok config' := by decide +kernel
  have hload := Yaml.Library.loadConfig_eq_ok_iff.mp hloads
  have hload' := Yaml.Library.loadConfig_eq_ok_iff.mp hloads'
  have hfills := Yaml.Library.fillsIn_plain file
  have hfills' := Yaml.Library.fillsIn_plain silent
  exact ⟨⟨hload, hfills, hconfig,
      ((effectiveConfigBy_precedence hload hfills).2.1 config).mp hconfig⟩,
    hload', hfills', hconfig',
      ((effectiveConfigBy_precedence hload' hfills').2.1 config').mp hconfig'⟩

end Arguments

end DefUse
