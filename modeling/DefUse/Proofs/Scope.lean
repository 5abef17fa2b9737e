/-
# `Proofs.Scope` — two scopes, frame by frame

Two walks that open and close frames together have scopes of one shape.  `Scope.Related`
compares what their frames say of each name; it is kept by everything that is done to
both, and what holds of the frames then holds of what is in view (`Related.lookup`).

An assignment changes one of the scopes only: the frame that holds the name gets a new
value for it.  If nothing is said of values but that they are there, that makes no
difference (`Related.assign`).  If they are computed from the values of the other scope,
then the new value has to be what is computed from then on, and no other entry may be
concerned, which is so if no value of the other scope is there twice
(`Related.assign_map`).
-/
import Mathlib.Data.List.Forall2
import Mathlib.Data.List.Nodup
import DefUse.Proofs.Names.Binding

namespace DefUse

variable {α β : Type}

namespace Scope

/-- Frame by frame, what the scopes say of each name is related. -/
def Related (R : Option α → Option β → Prop) (scope : Scope α) (other : Scope β) : Prop :=
  List.Forall₂ (fun frame frame' => ∀ name, R (Frame.get? name frame) (Frame.get? name frame'))
    scope.frames other.frames

/-- All values that are bound somewhere, those of the innermost frame first. -/
def values (scope : Scope α) : List α :=
  scope.frames.flatten.map Prod.snd

variable {R : Option α → Option β → Prop} {scope next : Scope α} {other : Scope β}

theorem Related.push (h : Related R scope other) (hnone : R none none) :
    Related R scope.push other.push :=
  .cons (fun _ => hnone) h

theorem Related.pop (h : Related R scope other) : Related R scope.pop other.pop := by
  obtain ⟨inner, outer⟩ := scope
  obtain ⟨inner', outer'⟩ := other
  cases h with
  | cons hinner houter =>
      cases houter with
      | nil => exact .cons hinner .nil
      | cons hframe hrest => exact .cons hframe hrest

theorem Related.bind (h : Related R scope other) {value : α} {value' : β}
    (hvalue : R (some value) (some value')) (name : String) :
    Related R (scope.bind name value) (other.bind name value') := by
  obtain ⟨inner, outer⟩ := scope
  obtain ⟨inner', outer'⟩ := other
  cases h with
  | cons hinner houter =>
      refine .cons (fun key => ?_) houter
      change R (Frame.get? key (Frame.bind name value inner))
        (Frame.get? key (Frame.bind name value' inner'))
      by_cases hkey : key = name
      · subst hkey
        rw [Frame.get?_bind_self, Frame.get?_bind_self]
        exact hvalue
      · rw [Frame.get?_bind_of_ne hkey, Frame.get?_bind_of_ne hkey]
        exact hinner key

/-- What is in view is related, if only the outermost frames may have a name that one of them
binds and the other one does not. -/
theorem Related.lookup (h : Related R scope other) (hnone : R none none)
    (hbound : ∀ frame ∈ other.frames.dropLast, ∀ name value,
      R value (Frame.get? name frame) → value.isSome = (Frame.get? name frame).isSome)
    (name : String) : R (scope.lookup name) (other.lookup name) := by
  rw [Scope.lookup, Scope.lookup]
  revert h hbound
  rw [Related]
  generalize scope.frames = frames, other.frames = frames'
  intro h hbound
  induction h with
  | nil => exact hnone
  | @cons frame frame' rest rest' hframe hrest ih =>
      rw [List.findSome?_cons, List.findSome?_cons]
      cases hrest with
      | nil =>
          have hlast := hframe name
          cases hleft : Frame.get? name frame <;> cases hright : Frame.get? name frame' <;>
            simpa [hleft, hright] using hlast
      | @cons next next' frames frames' hnext hframes =>
          rw [List.dropLast_cons_cons, List.forall_mem_cons] at hbound
          have hsame := hbound.1 name _ (hframe name)
          have hget := hframe name
          cases hleft : Frame.get? name frame with
          | none =>
              rw [hleft] at hsame
              have hright : Frame.get? name frame' = none := by simpa using hsame.symm
              rw [hright]
              exact ih hbound.2
          | some value =>
              rw [hleft] at hsame hget
              obtain ⟨value', hright⟩ := Option.isSome_iff_exists.mp hsame.symm
              rw [hright] at hget ⊢
              exact hget

/-! ## Assignments -/

theorem assignIn?_ne_some_nil (name : String) (value : α) :
    ∀ frames : List (Frame α), assignIn? name value frames ≠ some []
  | [], h => by cases h
  | frame :: rest, h => by
      rw [assignIn?] at h
      split at h
      · cases h
      · obtain ⟨_, -, heq⟩ := Option.map_eq_some_iff.mp h
        cases heq

theorem assign?_eq_some {name : String} {value : α} :
    scope.assign? name value = some next ↔
      assignIn? name value scope.frames = some next.frames := by
  rw [assign?]
  split
  · rename_i frame rest heq
    rw [heq, Option.some_inj, Option.some_inj]
    constructor
    · rintro rfl
      rfl
    · intro h
      obtain ⟨inner, outer⟩ := next
      obtain ⟨rfl, rfl⟩ := List.cons.inj h
      rfl
  · rename_i hnot
    constructor
    · intro h
      cases h
    · intro h
      exact absurd h (hnot _ _)

/-- An assignment fails if the name is not in view. -/
theorem assign?_eq_none {name : String} {value : α} :
    scope.assign? name value = none ↔ scope.lookup name = none := by
  have hlookup : scope.lookup name = none ↔
      ∀ frame ∈ scope.frames, Frame.get? name frame = none := List.findSome?_eq_none_iff
  rw [hlookup, ← assignIn?_eq_none_iff name value]
  cases hassign : scope.assign? name value with
  | some next =>
      rw [assign?_eq_some.mp hassign]
      simp
  | none =>
      cases hin : assignIn? name value scope.frames with
      | none => simp
      | some frames =>
          rw [assign?, hin] at hassign
          cases frames with
          | nil => exact absurd hin (assignIn?_ne_some_nil name value _)
          | cons frame rest => cases hassign

/-- An assignment binds nothing new. -/
theorem Related.assign (hbound : ∀ {a a' : Option α} {b : Option β},
      a'.isSome = a.isSome → R a b → R a' b)
    (h : Related R scope other) {name : String} {value : α}
    (hassign : scope.assign? name value = some next) : Related R next other := by
  rw [assign?_eq_some] at hassign
  revert h hassign
  rw [Related, Related]
  generalize scope.frames = frames, other.frames = frames', next.frames = after
  intro h hassign
  induction h generalizing after with
  | nil => cases hassign
  | @cons frame frame' rest rest' hframe hrest ih =>
      rw [assignIn?] at hassign
      split at hassign
      · rename_i hsome
        cases hassign
        refine .cons (fun key => hbound ?_ (hframe key)) hrest
        by_cases hkey : key = name
        · subst hkey
          rw [Frame.get?_bind_self, hsome]
          rfl
        · rw [Frame.get?_bind_of_ne hkey]
      · obtain ⟨changed, hchanged, rfl⟩ := Option.map_eq_some_iff.mp hassign
        exact .cons hframe (ih changed hchanged)

/-- The values in view are among all values. -/
theorem mem_values_of_findSome? {name : String} {value : α} {frames : List (Frame α)}
    (h : frames.findSome? (Frame.get? name) = some value) :
    value ∈ frames.flatten.map Prod.snd := by
  obtain ⟨frame, hframe, hget⟩ := List.exists_of_findSome?_eq_some h
  exact List.mem_map.mpr ⟨_, List.mem_flatten_of_mem hframe (Binder.mem_of_lookup hget), rfl⟩

/-- Frames that are computed in one way are computed in another one, if both ways agree on the
entries. -/
theorem get?_map_congr {f g : β → α} {frame : Frame α} {frame' : Frame β}
    (hframe : ∀ name, Frame.get? name frame = (Frame.get? name frame').map f)
    (hsame : ∀ entry ∈ frame', g entry.2 = f entry.2) (name : String) :
    Frame.get? name frame = (Frame.get? name frame').map g := by
  rw [hframe]
  cases hget : Frame.get? name frame' with
  | none => rfl
  | some value => rw [Option.map_some, Option.map_some, hsame _ (Binder.mem_of_lookup hget)]

theorem forall₂_map_congr {f g : β → α} {frames : List (Frame α)} {frames' : List (Frame β)}
    (h : List.Forall₂ (fun frame frame' =>
      ∀ name, Frame.get? name frame = (Frame.get? name frame').map f) frames frames')
    (hsame : ∀ value ∈ frames'.flatten.map Prod.snd, g value = f value) :
    List.Forall₂ (fun frame frame' =>
      ∀ name, Frame.get? name frame = (Frame.get? name frame').map g) frames frames' := by
  induction h with
  | nil => exact .nil
  | @cons frame frame' rest rest' hframe hrest ih =>
      rw [List.flatten_cons, List.map_append] at hsame
      refine .cons (get?_map_congr hframe fun entry hentry => ?_)
        (ih fun value hvalue => hsame value (List.mem_append_right _ hvalue))
      exact hsame entry.2 (List.mem_append_left _ (List.mem_map_of_mem hentry))

theorem Related.congr {f g : β → α} (h : Related (fun a b => a = b.map f) scope other)
    (hsame : ∀ value ∈ other.values, g value = f value) :
    Related (fun a b => a = b.map g) scope other :=
  forall₂_map_congr h hsame

/-- An assignment to what is in view changes one entry. -/
theorem Related.assign_map {f g : β → α} (h : Related (fun a b => a = b.map f) scope other)
    (hnodup : other.values.Nodup) {name : String} {target : β}
    (hlookup : other.lookup name = some target)
    (hothers : ∀ value ∈ other.values, value ≠ target → g value = f value)
    (hassign : scope.assign? name (g target) = some next) :
    Related (fun a b => a = b.map g) next other := by
  rw [assign?_eq_some] at hassign
  revert h hnodup hlookup hothers hassign
  rw [Related, Related, values, Scope.lookup]
  generalize scope.frames = frames, other.frames = frames', next.frames = after
  intro h hnodup hlookup hothers hassign
  induction h generalizing after with
  | nil => cases hassign
  | @cons frame frame' rest rest' hframe hrest ih =>
      rw [List.flatten_cons, List.map_append] at hnodup hothers
      obtain ⟨hfirst, hlater, hapart⟩ := List.nodup_append'.mp hnodup
      have hinner : ∀ entry ∈ frame', entry.2 ≠ target → g entry.2 = f entry.2 :=
        fun entry hentry => hothers _ (List.mem_append_left _ (List.mem_map_of_mem hentry))
      have houter : ∀ value ∈ rest'.flatten.map Prod.snd, value ≠ target → g value = f value :=
        fun value hvalue => hothers _ (List.mem_append_right _ hvalue)
      rw [List.findSome?_cons] at hlookup
      rw [assignIn?, hframe name, Option.isSome_map] at hassign
      cases hget : Frame.get? name frame' with
      | some value =>
          rw [hget] at hlookup hassign
          cases hlookup
          cases hassign
          have htarget := List.mem_map_of_mem (f := Prod.snd) (Binder.mem_of_lookup hget)
          refine .cons (fun key => ?_) (forall₂_map_congr hrest fun value hvalue =>
            houter value hvalue fun heq => hapart htarget (heq ▸ hvalue))
          by_cases hkey : key = name
          · subst hkey
            rw [Frame.get?_bind_self, hget]
            rfl
          · rw [Frame.get?_bind_of_ne hkey, hframe]
            cases hother : Frame.get? key frame' with
            | none => rfl
            | some value =>
                rw [Option.map_some, Option.map_some, hinner _ (Binder.mem_of_lookup hother)]
                rintro rfl
                cases List.inj_on_of_nodup_map hfirst (Binder.mem_of_lookup hother)
                  (Binder.mem_of_lookup hget) rfl
                exact hkey rfl
      | none =>
          rw [hget] at hlookup hassign
          obtain ⟨changed, hchanged, rfl⟩ := Option.map_eq_some_iff.mp hassign
          refine .cons (get?_map_congr hframe fun entry hentry => hinner entry hentry ?_)
            (ih changed hlater hlookup houter hchanged)
          rintro rfl
          exact hapart (List.mem_map_of_mem hentry) (mem_values_of_findSome? hlookup)

end Scope

end DefUse
