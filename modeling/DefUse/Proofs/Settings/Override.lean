/-
# `Proofs.Settings.Override` — what single settings do

A text gives a key a value if they stand before and after its first equals sign; white
space around them does not count (`Setting.Gives`).  It can be read if the key is one of
seven and the value is one for it (`Setting.parse_eq_ok_iff`), and refused for one of four
reasons otherwise (`Setting.parse_eq_error_iff`).

Of many texts, the first that is refused decides the fault
(`Config.override_eq_error_iff`).  If all can be read, each part of the settings is what
the last text for its key makes it (`Config.decides_override`); for that it is enough to know
what one text does to the part (`Governs`).  Texts for different keys can be swapped
(`Config.override_swap`).
-/
import Mathlib.Data.List.Induction
import DefUse.Proofs.Text.Blank
import DefUse.Proofs.Text.Cut
import DefUse.Proofs.Text.Lowercase
import DefUse.Proofs.Text.Unsigned
import DefUse.Settings.Override

namespace DefUse

namespace Setting

/-- The text gives the key the value. -/
def Gives (text key value : String) : Prop :=
  ∃ before after : String, text = before ++ "=" ++ after ∧ '=' ∉ before.toList ∧
    Text.Trimmed before key ∧ Text.Trimmed after value

/-- A switch is on for three words. -/
def Switches (value : String) (on : Bool) : Prop :=
  on = true ↔ value = "true" ∨ value = "1" ∨ value = "yes"

/-- The names of a dialect, in small letters. -/
def dialectNames : Dialect → List String
  | .typescript => ["typescript", "ts"]
  | .javascript => ["javascript", "js"]

/-- A dialect may be named in any letters. -/
def IsDialect (value : String) (dialect : Dialect) : Prop :=
  ∃ name ∈ dialectNames dialect, Text.InAnyCase value name

/-- The key of a setting. -/
def key : Setting → String
  | maxVisits _ => "max_visits"
  | dependsEdges _ => "depends_edges"
  | dialect _ => "dialect"
  | emptyJumps _ => "simplify.eliminate_empty_jumps"
  | trueBranches _ => "simplify.eliminate_true_branches"
  | mergeChains _ => "simplify.merge_jump_chains"
  | split _ => "simplify.split"

/-- All keys. -/
def keys : List String :=
  ["max_visits", "depends_edges", "dialect", "simplify.eliminate_empty_jumps",
    "simplify.eliminate_true_branches", "simplify.merge_jump_chains", "simplify.split"]

/-- The value is one for the setting. -/
def HasValue (value : String) : Setting → Prop
  | maxVisits number => Text.IsUnsigned value number
  | dialect named => IsDialect value named
  | dependsEdges on | emptyJumps on | trueBranches on | mergeChains on | split on =>
    Switches value on

/-- Why a text is no setting. -/
inductive Refused (text : String) : OverrideFault → Prop
  | noEquals : '=' ∉ text.toList → Refused text (.noEquals text)
  | unknownKey {key value : String} : Gives text key value → key ∉ keys →
      Refused text (.unknownKey key)
  | unknownDialect {value : String} : Gives text "dialect" value →
      (∀ dialect, ¬ IsDialect value dialect) →
      Refused text (.unknownDialect (Text.lowercase value))
  | badNumber {value : String} {fault : Text.NumberFault} : Gives text "max_visits" value →
      Text.NotUnsigned value fault → Refused text (.badNumber value fault)

/-- The text can be read as a setting. -/
def Legible (text : String) : Prop :=
  ∀ fault, ¬ Refused text fault

variable {text key value : String} {setting : Setting}

/-! ## Keys and values -/

theorem cut?_of_append {before after : List Char}
    (htext : text.toList = before ++ '=' :: after) (hbefore : '=' ∉ before) :
    cut? text =
      some (Text.trim (String.ofList before), Text.trim (String.ofList after)) := by
  rw [cut?, htext, Text.dropWhile_ne_append hbefore, Text.takeWhile_ne_append hbefore]

theorem cut?_eq_none_iff : cut? text = none ↔ '=' ∉ text.toList := by
  rw [← Text.dropWhile_ne_eq_nil_iff, cut?]
  split
  · rename_i h
    exact iff_of_true rfl h
  · rename_i h
    exact iff_of_false nofun (by rw [h]; nofun)

theorem cut?_eq_some_iff : cut? text = some (key, value) ↔ Gives text key value := by
  constructor
  · intro h
    by_cases hequals : '=' ∈ text.toList
    · obtain ⟨before, after, htext, hbefore⟩ := List.eq_append_cons_of_mem hequals
      rw [cut?_of_append htext hbefore] at h
      cases h
      refine ⟨String.ofList before, String.ofList after, ?_, ?_,
        Text.trimmed_trim _, Text.trimmed_trim _⟩
      · apply String.toList_inj.mp
        simpa using htext
      · rwa [String.toList_ofList]
    · rw [cut?_eq_none_iff.mpr hequals] at h
      cases h
  · rintro ⟨before, after, rfl, hbefore, hkey, hvalue⟩
    have htext : (before ++ "=" ++ after).toList = before.toList ++ '=' :: after.toList := by simp
    rw [cut?_of_append htext hbefore, String.ofList_toList, String.ofList_toList,
      Text.trim_eq_iff.mpr hkey, Text.trim_eq_iff.mpr hvalue]

theorem Gives.unique {key' value' : String} (h : Gives text key value)
    (h' : Gives text key' value') : key = key' ∧ value = value' := by
  have hcut := (cut?_eq_some_iff.mpr h).symm.trans (cut?_eq_some_iff.mpr h')
  exact Prod.mk.inj (Option.some.inj hcut)

theorem switches_iff {on : Bool} : Switches value on ↔ isOn value = on := by
  rw [Switches, isOn]
  cases on <;> simp [or_assoc, and_assoc]

theorem Switches.unique {on on' : Bool} (h : Switches value on) (h' : Switches value on') :
    on = on' :=
  (switches_iff.mp h).symm.trans (switches_iff.mp h')

theorem isDialect_iff {named : Dialect} :
    IsDialect value named ↔ Text.lowercase value ∈ dialectNames named := by
  have hplain : ∀ name ∈ dialectNames named, Text.IsPlainWord name := by
    cases named <;> decide
  exact (Text.lowercase_mem_iff hplain).symm

theorem dialectOf_eq_ok_iff {named : Dialect} :
    dialectOf value = .ok named ↔ IsDialect value named := by
  rw [dialectOf, isDialect_iff]
  split <;> cases named <;> simp_all [dialectNames]

theorem IsDialect.unique {named named' : Dialect} (h : IsDialect value named)
    (h' : IsDialect value named') : named = named' :=
  Except.ok.inj ((dialectOf_eq_ok_iff.mpr h).symm.trans (dialectOf_eq_ok_iff.mpr h'))

theorem dialectOf_eq_error_iff {fault : OverrideFault} :
    dialectOf value = .error fault ↔
      (∀ named, ¬ IsDialect value named) ∧ fault = .unknownDialect (Text.lowercase value) := by
  simp only [← dialectOf_eq_ok_iff]
  rw [dialectOf]
  split <;> simp [eq_comm]

theorem ofPair_eq_ok_iff :
    ofPair key value = .ok setting ↔ setting.key = key ∧ setting.HasValue value := by
  constructor
  · intro h
    unfold ofPair at h
    split at h
    · split at h
      · rename_i hnumber
        cases h
        exact ⟨rfl, Text.readUnsigned_eq_ok_iff.mp hnumber⟩
      · cases h
    · cases h
      exact ⟨rfl, switches_iff.mpr rfl⟩
    · cases hnamed : dialectOf value with
      | ok named =>
          rw [hnamed] at h
          cases h
          exact ⟨rfl, dialectOf_eq_ok_iff.mp hnamed⟩
      | error fault =>
          rw [hnamed] at h
          cases h
    · cases h
      exact ⟨rfl, switches_iff.mpr rfl⟩
    · cases h
      exact ⟨rfl, switches_iff.mpr rfl⟩
    · cases h
      exact ⟨rfl, switches_iff.mpr rfl⟩
    · cases h
      exact ⟨rfl, switches_iff.mpr rfl⟩
    · cases h
  · rintro ⟨rfl, hvalue⟩
    cases setting with
    | maxVisits number => simp [ofPair, Setting.key, Text.readUnsigned_eq_ok_iff.mpr hvalue]
    | dialect named =>
        show (dialectOf value).map _ = _
        rw [dialectOf_eq_ok_iff.mpr hvalue]
        rfl
    | _ => exact congrArg _ (congrArg _ (switches_iff.mp hvalue))

theorem ofPair_of_notMem_keys (hkey : key ∉ keys) :
    ofPair key value = .error (.unknownKey key) := by
  rw [ofPair]
  all_goals
    rintro rfl
    simp [keys] at hkey

theorem parse_eq_ok_iff :
    parse text = .ok setting ↔ ∃ value, Gives text setting.key value ∧ setting.HasValue value := by
  rw [parse]
  constructor
  · intro h
    split at h
    · rename_i hcut
      obtain ⟨rfl, hvalue⟩ := ofPair_eq_ok_iff.mp h
      exact ⟨_, cut?_eq_some_iff.mp hcut, hvalue⟩
    · cases h
  · rintro ⟨value, hgives, hvalue⟩
    rw [cut?_eq_some_iff.mpr hgives]
    exact ofPair_eq_ok_iff.mpr ⟨rfl, hvalue⟩

/-- Of the known keys, two can have a value that is none for them. -/
theorem Gives.refused {fault : OverrideFault} (hgives : Gives text key value)
    (h : ofPair key value = .error fault) : Refused text fault := by
  unfold ofPair at h
  split at h
  · split at h
    · cases h
    · rename_i hnumber
      cases h
      exact .badNumber hgives (Text.readUnsigned_eq_error_iff.mp hnumber)
  · cases h
  · cases hdialect : dialectOf value with
    | ok named =>
        rw [hdialect] at h
        cases h
    | error cause =>
        rw [hdialect] at h
        cases h
        obtain ⟨hnone, rfl⟩ := dialectOf_eq_error_iff.mp hdialect
        exact .unknownDialect hgives hnone
  · cases h
  · cases h
  · cases h
  · cases h
  · cases h
    exact .unknownKey hgives (by simp_all [keys])

theorem parse_eq_error_iff {fault : OverrideFault} :
    parse text = .error fault ↔ Refused text fault := by
  rw [parse]
  constructor
  · intro h
    split at h
    · rename_i hcut
      exact (cut?_eq_some_iff.mp hcut).refused h
    · rename_i hcut
      cases h
      exact .noEquals (cut?_eq_none_iff.mp hcut)
  · intro h
    cases h with
    | noEquals hnone => rw [cut?_eq_none_iff.mpr hnone]
    | unknownKey hgives hkey =>
        rw [cut?_eq_some_iff.mpr hgives]
        exact ofPair_of_notMem_keys hkey
    | unknownDialect hgives hnone =>
        rw [cut?_eq_some_iff.mpr hgives]
        show (dialectOf _).map _ = _
        rw [dialectOf_eq_error_iff.mpr ⟨hnone, rfl⟩]
        rfl
    | badNumber hgives hnumber =>
        rw [cut?_eq_some_iff.mpr hgives]
        simp [ofPair, Text.readUnsigned_eq_error_iff.mpr hnumber]

theorem legible_iff : Legible text ↔ ∃ setting, parse text = .ok setting := by
  simp only [Legible, ← parse_eq_error_iff]
  cases parse text <;> simp

/-- A setting changes nothing but what has its key. -/
theorem apply_comm {other : Setting} (h : setting.key ≠ other.key) (config : Config) :
    setting.apply (other.apply config) = other.apply (setting.apply config) := by
  cases setting <;> cases other <;> simp [Setting.key] at h <;> rfl

/-! ## The last text for a key -/

/-- No text is for the key. -/
def Silent (texts : List String) (key : String) : Prop :=
  ∀ text ∈ texts, ∀ value, ¬ Gives text key value

/-- The last text for the key gives it the value. -/
def LastGives (texts : List String) (key value : String) : Prop :=
  ∃ before text after, texts = before ++ text :: after ∧ Gives text key value ∧ Silent after key

/-- What is left of something that the last text for a key decides: what its value means, or what
was there before if no text is for the key. -/
inductive Decides {α : Type} (texts : List String) (key : String) (Means : String → α → Prop)
    (base : α) : α → Prop
  | last {value : String} {result : α} : LastGives texts key value → Means value result →
      Decides texts key Means base result
  | none : Silent texts key → Decides texts key Means base base

variable {α : Type} {texts : List String} {Means : String → α → Prop} {base result : α}

theorem LastGives.not_silent (h : LastGives texts key value) : ¬ Silent texts key := by
  obtain ⟨before, text, after, rfl, hgives, -⟩ := h
  intro hsilent
  exact hsilent text (by simp) value hgives

theorem silent_concat :
    Silent (texts ++ [text]) key ↔ Silent texts key ∧ ∀ value, ¬ Gives text key value := by
  simp [Silent, or_imp, forall_and]

theorem lastGives_concat : LastGives (texts ++ [text]) key value ↔
    Gives text key value ∨ (∀ other, ¬ Gives text key other) ∧ LastGives texts key value := by
  constructor
  · rintro ⟨before, named, after, htexts, hgives, hsilent⟩
    rcases List.eq_nil_or_concat after with rfl | ⟨front, last, rfl⟩
    · obtain ⟨-, rfl⟩ := List.append_inj' htexts rfl |>.imp_right List.singleton_inj.mp
      exact .inl hgives
    · rw [List.concat_eq_append, ← List.cons_append, ← List.append_assoc] at htexts
      obtain ⟨rfl, hlast⟩ := List.append_inj' htexts rfl
      cases hlast
      refine .inr ⟨hsilent text (by simp), before, named, front, rfl, hgives, ?_⟩
      intro other hother
      exact hsilent other (by simp [hother])
  · rintro (hgives | ⟨htext, before, named, after, rfl, hgives, hsilent⟩)
    · exact ⟨texts, text, [], rfl, hgives, nofun⟩
    · exact ⟨before, named, after ++ [text], by simp, hgives, silent_concat.mpr ⟨hsilent, htext⟩⟩

theorem LastGives.unique {other : String} (h : LastGives texts key value)
    (h' : LastGives texts key other) : value = other := by
  induction texts using List.reverseRecOn with
  | nil =>
      obtain ⟨before, text, after, htexts, -⟩ := h
      simp at htexts
  | append_singleton texts text ih =>
      rcases lastGives_concat.mp h with hgives | ⟨hnone, hlast⟩
      · rcases lastGives_concat.mp h' with hgives' | ⟨hnone', -⟩
        · exact (hgives.unique hgives').2
        · exact absurd hgives (hnone' value)
      · rcases lastGives_concat.mp h' with hgives' | ⟨-, hlast'⟩
        · exact absurd hgives' (hnone other)
        · exact ih hlast hlast'

/-- If a value has one meaning, there is one result. -/
theorem Decides.unique {result' : α} (h : Decides texts key Means base result)
    (h' : Decides texts key Means base result')
    (hmeans : ∀ {value meant meant'}, Means value meant → Means value meant' → meant = meant') :
    result = result' := by
  cases h with
  | last hlast hmeant =>
      cases h' with
      | last hlast' hmeant' =>
          cases hlast.unique hlast'
          exact hmeans hmeant hmeant'
      | none hsilent => exact absurd hsilent hlast.not_silent
  | none hsilent =>
      cases h' with
      | last hlast' _ => exact absurd hsilent hlast'.not_silent
      | none _ => rfl

theorem Decides.concat (h : Decides texts key Means base result)
    (htext : ∀ value, ¬ Gives text key value) :
    Decides (texts ++ [text]) key Means base result := by
  cases h with
  | last hlast hmeant => exact .last (lastGives_concat.mpr (.inr ⟨htext, hlast⟩)) hmeant
  | none hsilent => exact .none (silent_concat.mpr ⟨hsilent, htext⟩)

theorem Decides.of_gives (hgives : Gives text key value) (hmeans : Means value result) :
    Decides (texts ++ [text]) key Means base result :=
  .last (lastGives_concat.mpr (.inl hgives)) hmeans

/-! ## Parts of the settings -/

/-- A part of the settings is decided by the texts for a key: one that is for the key makes it what
its value means, and any other leaves it as it is. -/
def Governs (key : String) (Means : String → α → Prop) (part : Config → α) : Prop :=
  ∀ (setting : Setting) config,
    if setting.key = key then
      ∀ value, setting.HasValue value → Means value (part (setting.apply config))
    else part (setting.apply config) = part config

theorem governs_maxVisits : Governs "max_visits" Text.IsUnsigned Config.maxVisits := by
  intro setting config
  cases setting <;> simp [Setting.key, HasValue, apply]

theorem governs_dialect : Governs "dialect" IsDialect Config.dialect := by
  intro setting config
  cases setting <;> simp [Setting.key, HasValue, apply]

theorem setsDialect_iff : setting.setsDialect = true ↔ setting.key = "dialect" := by
  cases setting <;> simp [Setting.key, setsDialect]

end Setting

/-! ## All texts -/

namespace Config

open Setting

variable {config after : Config} {set set' : Bool} {texts : List String} {text : String}
  {fault : OverrideFault}

/-- The first text that is refused, and why. -/
def FirstRefused (texts : List String) (fault : OverrideFault) : Prop :=
  ∃ before text after, texts = before ++ text :: after ∧ (∀ earlier ∈ before, Legible earlier) ∧
    Refused text fault

theorem firstRefused_cons {rest : List String} : FirstRefused (text :: rest) fault ↔
    Refused text fault ∨ Legible text ∧ FirstRefused rest fault := by
  constructor
  · rintro ⟨before, refused, after, htexts, hbefore, hrefused⟩
    cases before with
    | nil =>
        cases htexts
        exact .inl hrefused
    | cons first before =>
        cases htexts
        obtain ⟨hfirst, hbefore⟩ := List.forall_mem_cons.mp hbefore
        exact .inr ⟨hfirst, before, refused, after, rfl, hbefore, hrefused⟩
  · rintro (hrefused | ⟨htext, before, refused, after, rfl, hbefore, hrefused⟩)
    · exact ⟨[], text, rest, rfl, nofun, hrefused⟩
    · have hall := List.forall_mem_cons.mpr ⟨htext, hbefore⟩
      exact ⟨text :: before, refused, after, rfl, hall, hrefused⟩

/-- The first text that is refused decides the fault. -/
theorem override_eq_error_iff :
    (config.override set texts).2 = .error fault ↔ FirstRefused texts fault := by
  induction texts generalizing config set with
  | nil =>
      refine iff_of_false nofun ?_
      rintro ⟨before, text, after, htexts, -⟩
      simp at htexts
  | cons text rest ih =>
      rw [firstRefused_cons, override, ← parse_eq_error_iff, legible_iff]
      cases hparse : parse text with
      | ok setting => simp [ih]
      | error cause => simp

/-- A run ends well if all texts can be read. -/
theorem override_eq_ok_iff : (∃ after set', config.override set texts = (after, .ok set')) ↔
    ∀ text ∈ texts, Legible text := by
  induction texts generalizing config set with
  | nil => simp [override]
  | cons text rest ih =>
      rw [List.forall_mem_cons, legible_iff, override]
      cases hparse : parse text with
      | ok setting => exact ih.trans (by simp)
      | error cause => simp

/-- The last text of a run is read as a setting, which is applied after all others. -/
theorem override_concat {settled : Bool}
    (h : config.override set (texts ++ [text]) = (after, .ok settled)) :
    ∃ middle set' setting, config.override set texts = (middle, .ok set') ∧
      parse text = .ok setting ∧ after = setting.apply middle ∧
      settled = (set' || setting.setsDialect) := by
  induction texts generalizing config set with
  | nil =>
      rw [List.nil_append, override] at h
      split at h
      · rename_i setting hparse
        cases h
        exact ⟨config, set, setting, rfl, hparse, rfl, rfl⟩
      · cases h
  | cons first rest ih =>
      rw [List.cons_append, override] at h
      split at h
      · rename_i setting hparse
        rw [override, hparse]
        exact ih h
      · cases h

/-- Each part of the settings is what the last text for its key makes it. -/
theorem decides_override {α : Type} {key : String} {Means : String → α → Prop}
    {part : Config → α} (h : Governs key Means part) {set' : Bool}
    (hrun : config.override set texts = (after, .ok set')) :
    Decides texts key Means (part config) (part after) := by
  induction texts using List.reverseRecOn generalizing after set' with
  | nil =>
      cases hrun
      exact .none nofun
  | append_singleton texts text ih =>
      obtain ⟨middle, set₁, setting, hmiddle, hparse, rfl, -⟩ := override_concat hrun
      obtain ⟨value, hgives, hvalue⟩ := parse_eq_ok_iff.mp hparse
      have hstep := h setting middle
      split at hstep
      · rename_i hkey
        rw [hkey] at hgives
        exact .of_gives hgives (hstep value hvalue)
      · rename_i hkey
        rw [hstep]
        refine (ih hmiddle).concat ?_
        intro other hother
        exact hkey (hgives.unique hother).1

/-- A run tells whether one of the texts was for the dialect. -/
theorem override_setsDialect {set' : Bool} (hrun : config.override set texts = (after, .ok set')) :
    set' = false ↔ set = false ∧ Silent texts "dialect" := by
  induction texts using List.reverseRecOn generalizing after set' with
  | nil =>
      cases hrun
      simp [Silent]
  | append_singleton texts text ih =>
      obtain ⟨middle, set₁, setting, hmiddle, hparse, rfl, rfl⟩ := override_concat hrun
      obtain ⟨value, hgives, -⟩ := parse_eq_ok_iff.mp hparse
      have hsets : setting.setsDialect = false ↔ ∀ value, ¬ Gives text "dialect" value := by
        rw [← Bool.not_eq_true, setsDialect_iff]
        constructor
        · intro hkey other hother
          exact hkey (hgives.unique hother).1
        · intro hnone hkey
          rw [hkey] at hgives
          exact hnone value hgives
      rw [silent_concat, Bool.or_eq_false_iff, ih hmiddle, hsets, and_assoc]

/-- Two neighbours that are for different keys can be swapped, if not both are refused: the run ends
in the same way, with the same settings if it ends well. -/
theorem override_swap {first second key key' value value' : String} (hfirst : Gives first key value)
    (hsecond : Gives second key' value') (hne : key ≠ key')
    (hlegible : Legible first ∨ Legible second) (front back : List String) (config : Config)
    (set : Bool) :
    config.override set (front ++ second :: first :: back) =
        config.override set (front ++ first :: second :: back) ∨
      ∃ fault, (config.override set (front ++ second :: first :: back)).2 = .error fault ∧
        (config.override set (front ++ first :: second :: back)).2 = .error fault := by
  induction front generalizing config set with
  | nil =>
      simp only [List.nil_append, override]
      rw [legible_iff, legible_iff] at hlegible
      cases hparse : parse first with
      | ok setting =>
          cases hparse' : parse second with
          | ok setting' =>
              obtain ⟨_, hgives, -⟩ := parse_eq_ok_iff.mp hparse
              obtain ⟨_, hgives', -⟩ := parse_eq_ok_iff.mp hparse'
              have hkeys : setting.key ≠ setting'.key := by
                rwa [(hgives.unique hfirst).1, (hgives'.unique hsecond).1]
              left
              simp only [apply_comm hkeys, Bool.or_assoc, Bool.or_comm setting.setsDialect]
          | error fault => exact .inr ⟨fault, rfl, rfl⟩
      | error fault =>
          cases hparse' : parse second with
          | ok setting' => exact .inr ⟨fault, rfl, rfl⟩
          | error fault' => simp [hparse, hparse'] at hlegible
  | cons text rest ih =>
      rw [List.cons_append, List.cons_append, override, override]
      cases hparse : parse text with
      | ok setting => exact ih (setting.apply config) (set || setting.setsDialect)
      | error fault => exact .inl rfl

end Config

end DefUse
