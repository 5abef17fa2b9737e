/-
# `Proofs.Scope.Balanced` — what a scope leaves behind

A frame is opened, something is done that opens and closes frames in turn, and the frame
is closed again.  Then there are as many frames as before, and a name means what it meant
before, unless it was assigned to past all frames opened in between; then it has the last
value that was assigned to it in that way (`run_balanced`).

Whether an assignment goes out depends on the moment.  It does if no frame that was opened
since the start and is still open holds the name, and a frame from before does
(`Outward`).  So at every moment the frames are cut in two, those opened since and those
from before.  What is done changes the first part, or is an assignment that goes out and
changes the second (`perform_cases`).
-/
import Mathlib.Data.List.Induction
import Mathlib.Data.List.Infix
import DefUse.Proofs.Scope

namespace DefUse.Scope

variable {α : Type}

/-- Something done to a scope. -/
inductive Change (α : Type) where
  | push
  | pop
  | bind (name : String) (value : α)
  | assign (name : String) (value : α)
deriving DecidableEq

/-- Does it open a frame? -/
def Change.opens : Change α → Bool
  | .push => true
  | _ => false

/-- Does it close one? -/
def Change.closes : Change α → Bool
  | .pop => true
  | _ => false

/-- The scope after a change.  An assignment to a name that is not in view changes nothing. -/
def perform (scope : Scope α) : Change α → Scope α
  | .push => scope.push
  | .pop => scope.pop
  | .bind name value => scope.bind name value
  | .assign name value => (scope.assign? name value).getD scope

/-- The scope after some changes. -/
def run (scope : Scope α) (changes : List (Change α)) : Scope α :=
  changes.foldl perform scope

/-- Frames are closed only if they were opened, and all are closed in the end. -/
structure Balanced (changes : List (Change α)) : Prop where
  never : ∀ front, front <+: changes → front.countP Change.closes ≤ front.countP Change.opens
  total : changes.countP Change.closes = changes.countP Change.opens

/-- How many frames are open of those opened since the start, the first one included. -/
def opened (changes : List (Change α)) : Nat :=
  1 + changes.countP Change.opens - changes.countP Change.closes

/-- When a frame was opened and some changes were made, no frame opened since then holds the name,
and a frame from before does. -/
def Outward (scope : Scope α) (changes : List (Change α)) (name : String) : Prop :=
  (∀ frame ∈ (scope.push.run changes).frames.take (opened changes),
    Frame.get? name frame = none) ∧
  ∃ frame ∈ (scope.push.run changes).frames.drop (opened changes),
    (Frame.get? name frame).isSome

/-- The change at some place assigns the value to the name past all frames opened since. -/
def AssignsOut (scope : Scope α) (changes : List (Change α)) (name : String) (place : Nat)
    (value : α) : Prop :=
  changes[place]? = some (.assign name value) ∧ scope.Outward (changes.take place) name

/-- The last change that does so assigns this value. -/
def LastOut (scope : Scope α) (changes : List (Change α)) (name : String) (value : α) : Prop :=
  ∃ place, scope.AssignsOut changes name place value ∧
    ∀ other value', scope.AssignsOut changes name other value' → other ≤ place

variable {scope now : Scope α} {fresh old frames changed : List (Frame α)} {name key : String}
  {value other : α} {place : Nat} {changes : List (Change α)} {change : Change α}

/-! ## Assignments -/

theorem assignIn?_append (name : String) (value : α) (fresh old : List (Frame α)) :
    assignIn? name value (fresh ++ old) =
      ((assignIn? name value fresh).map (· ++ old)).or
        ((assignIn? name value old).map (fresh ++ ·)) := by
  induction fresh with
  | nil => simp [assignIn?]
  | cons frame rest ih =>
      rw [List.cons_append, assignIn?, assignIn?]
      split
      · rfl
      · rw [ih]
        cases assignIn? name value rest <;> simp [Function.comp_def]

theorem length_assignIn? (h : assignIn? name value frames = some changed) :
    changed.length = frames.length := by
  induction frames generalizing changed with
  | nil => cases h
  | cons frame rest ih =>
      rw [assignIn?] at h
      split at h
      · cases h
        rfl
      · obtain ⟨after, hafter, rfl⟩ := Option.map_eq_some_iff.mp h
        simp [ih hafter]

/-- An assignment changes what its own name means, and no other. -/
theorem findSome?_assignIn? (h : assignIn? name value frames = some changed) (key : String) :
    changed.findSome? (Frame.get? key) =
      if key = name then some value else frames.findSome? (Frame.get? key) := by
  induction frames generalizing changed with
  | nil => cases h
  | cons frame rest ih =>
      rw [assignIn?] at h
      split at h
      · cases h
        by_cases hkey : key = name
        · simp [hkey]
        · simp [hkey, List.findSome?_cons, Frame.get?_bind_of_ne hkey]
      · rename_i hfree
        obtain ⟨after, hafter, rfl⟩ := Option.map_eq_some_iff.mp h
        rw [List.findSome?_cons, List.findSome?_cons, ih hafter]
        by_cases hkey : key = name
        · have hnone : Frame.get? name frame = none := by simpa using hfree
          simp [hkey, hnone]
        · simp [hkey]

theorem frames_assign (now : Scope α) (name : String) (value : α) :
    (now.perform (.assign name value)).frames =
      (assignIn? name value now.frames).getD now.frames := by
  rw [perform]
  cases hassign : now.assign? name value with
  | some next => simp [assign?_eq_some.mp hassign]
  | none =>
      have hnone : assignIn? name value now.frames = none := by
        rw [assignIn?_eq_none_iff]
        exact List.findSome?_eq_none_iff.mp (assign?_eq_none.mp hassign)
      simp [hnone]

theorem frames_pop {frame : Frame α} (h : now.frames = frame :: old) (hold : 0 < old.length) :
    now.pop.frames = old := by
  obtain ⟨inner, outer⟩ := now
  cases h
  cases outer with
  | nil => cases hold
  | cons next rest => rfl

/-! ## One change -/

/-- What a change does to frames that are cut in two: it changes the first part, and is no
assignment that goes past it; or it is one, and changes the second part. -/
theorem perform_cases (hframes : now.frames = fresh ++ old)
    (hfresh : [change].countP Change.closes < fresh.length) :
    (∃ fresh', (now.perform change).frames = fresh' ++ old ∧
      fresh'.length + [change].countP Change.closes =
        fresh.length + [change].countP Change.opens ∧
      ∀ name value, change = .assign name value →
        (∀ frame ∈ fresh, Frame.get? name frame = none) →
        ∀ frame ∈ old, Frame.get? name frame = none) ∨
    ∃ name value old', change = .assign name value ∧
      (∀ frame ∈ fresh, Frame.get? name frame = none) ∧
      assignIn? name value old = some old' ∧ (now.perform change).frames = fresh ++ old' := by
  obtain ⟨inner, outer⟩ := now
  change inner :: outer = fresh ++ old at hframes
  cases change with
  | push =>
      refine .inl ⟨[] :: fresh, ?_, rfl, nofun⟩
      show [] :: inner :: outer = _
      rw [hframes]
      rfl
  | pop =>
      match fresh, hfresh with
      | frame :: next :: rest, _ =>
          cases hframes
          exact .inl ⟨next :: rest, rfl, rfl, nofun⟩
  | bind name value =>
      match fresh, hfresh with
      | frame :: rest, _ =>
          cases hframes
          exact .inl ⟨Frame.bind name value inner :: rest, rfl, rfl, nofun⟩
  | assign name value =>
      have hafter : (perform ⟨inner, outer⟩ (.assign name value)).frames =
          (assignIn? name value (fresh ++ old)).getD (fresh ++ old) := by
        rw [frames_assign, ← hframes]
        rfl
      rw [hafter, assignIn?_append]
      cases hin : assignIn? name value fresh with
      | some fresh' =>
          refine .inl ⟨fresh', by simp, length_assignIn? hin, ?_⟩
          intro other value' heq hfree
          cases heq
          rw [(assignIn?_eq_none_iff name value fresh).mpr hfree] at hin
          cases hin
      | none =>
          cases hout : assignIn? name value old with
          | some old' =>
              have hfree := (assignIn?_eq_none_iff name value fresh).mp hin
              exact .inr ⟨name, value, old', rfl, hfree, hout, by simp⟩
          | none =>
              refine .inl ⟨fresh, by simp, rfl, ?_⟩
              intro other value' heq _
              cases heq
              exact (assignIn?_eq_none_iff name value old).mp hout

/-! ## The moments at which assignments go out -/

theorem run_concat (scope : Scope α) (changes : List (Change α)) (change : Change α) :
    scope.run (changes ++ [change]) = (scope.run changes).perform change := by
  simp [run]

/-- If the frames are cut where the first one was opened, then the first part is to be free of the
name, and the second to hold it. -/
theorem outward_iff (hframes : (scope.push.run changes).frames = fresh ++ old)
    (hfresh : fresh.length = opened changes) : scope.Outward changes name ↔
      (∀ frame ∈ fresh, Frame.get? name frame = none) ∧
        ∃ frame ∈ old, (Frame.get? name frame).isSome := by
  rw [Outward, hframes, List.take_left' hfresh, List.drop_left' hfresh]

theorem AssignsOut.lt (h : scope.AssignsOut changes name place value) :
    place < changes.length :=
  (List.getElem?_eq_some_iff.mp h.1).1

theorem assignsOut_concat : scope.AssignsOut (changes ++ [change]) name place value ↔
    scope.AssignsOut changes name place value ∨
      place = changes.length ∧ change = .assign name value ∧ scope.Outward changes name := by
  constructor
  · intro h
    have hle : place ≤ changes.length := by simpa [Nat.lt_succ_iff] using h.lt
    obtain ⟨hchange, hout⟩ := h
    rcases Nat.lt_or_eq_of_le hle with hlt | rfl
    · rw [List.getElem?_append_left hlt] at hchange
      rw [List.take_append_of_le_length hle] at hout
      exact .inl ⟨hchange, hout⟩
    · exact .inr ⟨rfl, by simpa using hchange, by simpa using hout⟩
  · rintro (h | ⟨rfl, rfl, hout⟩)
    · refine ⟨?_, ?_⟩
      · rw [List.getElem?_append_left h.lt]
        exact h.1
      · rw [List.take_append_of_le_length (Nat.le_of_lt h.lt)]
        exact h.2
    · exact ⟨by simp, by simpa using hout⟩

/-- There is only one last assignment. -/
theorem LastOut.unique (h : scope.LastOut changes name value)
    (h' : scope.LastOut changes name other) : value = other := by
  obtain ⟨place, hplace, hlast⟩ := h
  obtain ⟨place', hplace', hlast'⟩ := h'
  cases Nat.le_antisymm (hlast' _ _ hplace) (hlast _ _ hplace')
  cases hplace.1.symm.trans hplace'.1
  rfl

/-- What a name means afterwards: the last value that was assigned to it past all frames opened
since, or what it meant before if there is none. -/
inductive Leaves (scope : Scope α) (changes : List (Change α)) (name : String) : Option α → Prop
  | last {value : α} : scope.LastOut changes name value → Leaves scope changes name (some value)
  | same : (∀ place value, ¬ scope.AssignsOut changes name place value) →
      Leaves scope changes name (scope.lookup name)

theorem Leaves.eq_some {result : Option α} (h : scope.Leaves changes name result)
    (hlast : scope.LastOut changes name value) : result = some value := by
  cases h with
  | last hlast' => rw [hlast.unique hlast']
  | same hnone =>
      obtain ⟨place, hout, -⟩ := hlast
      exact absurd hout (hnone place value)

theorem Leaves.eq_lookup {result : Option α} (h : scope.Leaves changes name result)
    (hnone : ∀ place value, ¬ scope.AssignsOut changes name place value) :
    result = scope.lookup name := by
  cases h with
  | last hlast =>
      obtain ⟨place, hout, -⟩ := hlast
      exact absurd hout (hnone place _)
  | same _ => rfl

/-- A change that does not assign to the name past all frames opened since. -/
theorem Leaves.concat {result : Option α} (h : scope.Leaves changes name result)
    (hnot : ∀ value, change = .assign name value → ¬ scope.Outward changes name) :
    scope.Leaves (changes ++ [change]) name result := by
  have hiff : ∀ place value, scope.AssignsOut (changes ++ [change]) name place value ↔
      scope.AssignsOut changes name place value := by
    intro place value
    rw [assignsOut_concat]
    exact or_iff_left fun h => hnot value h.2.1 h.2.2
  cases h with
  | last hlast => exact .last (by simpa only [LastOut, hiff] using hlast)
  | same hnone => exact .same (by simpa only [hiff] using hnone)

/-- A change that does. -/
theorem lastOut_concat (hout : scope.Outward changes name) :
    scope.LastOut (changes ++ [.assign name value]) name value := by
  refine ⟨changes.length, assignsOut_concat.mpr (.inr ⟨rfl, rfl, hout⟩), ?_⟩
  intro place value' h
  have hlt := h.lt
  rw [List.length_append, List.length_singleton] at hlt
  omega

/-! ## All changes -/

/-- After a frame was opened and some changes were made: the frames opened since, and the frames
from before, which are still as many, and say what is left of their names. -/
structure Parts (scope : Scope α) (changes : List (Change α)) (fresh old : List (Frame α)) :
    Prop where
  frames : (scope.push.run changes).frames = fresh ++ old
  length_fresh : fresh.length = opened changes
  length_old : old.length = scope.frames.length
  leaves : ∀ name, scope.Leaves changes name (old.findSome? (Frame.get? name))
  unbound : ∀ name, scope.lookup name = none → old.findSome? (Frame.get? name) = none

theorem parts_nil (scope : Scope α) : scope.Parts [] [[]] scope.frames where
  frames := rfl
  length_fresh := rfl
  length_old := rfl
  leaves := by
    intro name
    refine .same ?_
    intro place value h
    exact absurd h.lt (Nat.not_lt_zero place)
  unbound := fun _ h => h

/-- One more change, if it does not close the frame that was opened first. -/
theorem Parts.concat (h : scope.Parts changes fresh old)
    (hopen : changes.countP Change.closes ≤ changes.countP Change.opens)
    (hnext : (changes ++ [change]).countP Change.closes ≤
      (changes ++ [change]).countP Change.opens) :
    ∃ fresh' old', scope.Parts (changes ++ [change]) fresh' old' := by
  have hopened : fresh.length = 1 + changes.countP Change.opens - changes.countP Change.closes :=
    h.length_fresh
  have hnow : (scope.push.run (changes ++ [change])).frames =
      ((scope.push.run changes).perform change).frames := by
    rw [run_concat]
  rw [List.countP_append, List.countP_append] at hnext
  have hfresh : [change].countP Change.closes < fresh.length := by
    cases change <;> simp [Change.closes, Change.opens] at hnext ⊢ <;> omega
  rcases perform_cases h.frames hfresh with
    ⟨fresh', hframes, hlength, hinside⟩ | ⟨name, value, old', rfl, hfree, hassign, hframes⟩
  · refine ⟨fresh', old, hnow.trans hframes, ?_, h.length_old, ?_, h.unbound⟩
    · rw [opened, List.countP_append, List.countP_append]
      omega
    · intro name
      refine (h.leaves name).concat ?_
      intro value heq hout
      obtain ⟨hfree, frame, hframe, hheld⟩ := (outward_iff h.frames h.length_fresh).mp hout
      simp [hinside name value heq hfree frame hframe] at hheld
  · have hheld : ∃ frame ∈ old, (Frame.get? name frame).isSome := by
      by_contra hnone
      have : assignIn? name value old = none := by
        rw [assignIn?_eq_none_iff]
        simpa using hnone
      rw [this] at hassign
      cases hassign
    have hout : scope.Outward changes name :=
      (outward_iff h.frames h.length_fresh).mpr ⟨hfree, hheld⟩
    refine ⟨fresh, old', hnow.trans hframes, ?_, ?_, ?_, ?_⟩
    · rw [opened, List.countP_append, List.countP_append]
      simpa [Change.closes, Change.opens] using hopened
    · rw [length_assignIn? hassign, h.length_old]
    · intro key
      rw [findSome?_assignIn? hassign]
      split
      · rename_i hkey
        subst hkey
        exact .last (lastOut_concat hout)
      · rename_i hkey
        refine (h.leaves key).concat ?_
        intro other heq
        cases heq
        exact absurd rfl hkey
    · intro key hkey
      rw [findSome?_assignIn? hassign]
      split
      · rename_i heq
        subst heq
        obtain ⟨frame, hframe, hsome⟩ := hheld
        rw [List.findSome?_eq_none_iff.mp (h.unbound key hkey) frame hframe] at hsome
        cases hsome
      · exact h.unbound key hkey

theorem exists_parts (scope : Scope α) (changes : List (Change α))
    (hnever : ∀ front, front <+: changes →
      front.countP Change.closes ≤ front.countP Change.opens) :
    ∃ fresh old, scope.Parts changes fresh old := by
  induction changes using List.reverseRecOn with
  | nil => exact ⟨_, _, scope.parts_nil⟩
  | append_singleton changes change ih =>
      have hfront : changes <+: changes ++ [change] := List.prefix_append _ _
      obtain ⟨fresh, old, hparts⟩ := ih fun front h => hnever front (h.trans hfront)
      exact hparts.concat (hnever _ hfront) (hnever _ (List.prefix_refl _))

/-- A frame is opened, frames are opened and closed in turn, and the frame is closed.  Then there
are as many frames as before.  A name has the last value that was assigned to it past all frames
opened since, and means what it did before if there is none; and if it meant nothing, it means
nothing. -/
theorem run_balanced (scope : Scope α) (h : Balanced changes) :
    (scope.run (.push :: changes ++ [.pop])).frames.length = scope.frames.length ∧
      ∀ name,
        (∀ value, scope.LastOut changes name value →
          (scope.run (.push :: changes ++ [.pop])).lookup name = some value) ∧
        ((∀ place value, ¬ scope.AssignsOut changes name place value) →
          (scope.run (.push :: changes ++ [.pop])).lookup name = scope.lookup name) ∧
        (scope.lookup name = none →
          (scope.run (.push :: changes ++ [.pop])).lookup name = none) := by
  obtain ⟨fresh, old, hparts⟩ := exists_parts scope changes h.never
  have hfresh : fresh.length = 1 := by
    have hlength := hparts.length_fresh
    rw [opened, h.total] at hlength
    omega
  have hframes : (scope.run (.push :: changes ++ [.pop])).frames = old := by
    obtain ⟨frame, rfl⟩ := List.length_eq_one_iff.mp hfresh
    show (scope.push.run (changes ++ [.pop])).frames = old
    rw [run_concat]
    exact frames_pop hparts.frames (by rw [hparts.length_old]; simp [frames])
  have hlookup : ∀ name, (scope.run (.push :: changes ++ [.pop])).lookup name =
      old.findSome? (Frame.get? name) := by
    intro name
    rw [Scope.lookup, hframes]
  refine ⟨by rw [hframes, hparts.length_old], ?_⟩
  intro name
  rw [hlookup]
  refine ⟨?_, ?_, hparts.unbound name⟩
  · intro value hlast
    exact (hparts.leaves name).eq_some hlast
  · intro hnone
    exact (hparts.leaves name).eq_lookup hnone

/-- The variable is hidden and assigned to inside, then outside, and then hidden again. -/
theorem run_balanced_hidden :
    let scope : Scope Nat := empty.bind "x" 0
    let changes : List (Change Nat) :=
      [.push, .bind "x" 1, .assign "x" 2, .pop, .assign "x" 3, .bind "x" 4, .assign "x" 5,
        .assign "y" 6]
    Balanced changes ∧ scope.LastOut changes "x" 3 ∧
      (scope.run (.push :: changes ++ [.pop])).lookup "x" = some 3 ∧
      (scope.run (.push :: changes ++ [.pop])).lookup "y" = none := by
  intro scope changes
  have hbalanced : Balanced changes := by
    refine ⟨?_, by decide⟩
    intro front hfront
    have hall : ∀ front ∈ changes.inits,
        front.countP Change.closes ≤ front.countP Change.opens := by decide
    exact hall front ((List.mem_inits front changes).mpr hfront)
  have hlast : scope.LastOut changes "x" 3 := by
    refine ⟨4, ⟨rfl, ?_⟩, ?_⟩
    · unfold Outward
      decide
    · intro place value h
      have hlt : place < 8 := h.lt
      obtain ⟨hchange, hout⟩ := h
      by_contra hlater
      have hplace : place = 5 ∨ place = 6 ∨ place = 7 := by omega
      rcases hplace with rfl | rfl | rfl
      · cases hchange
      · have hinside : ¬ scope.Outward (changes.take 6) "x" := by
          unfold Outward
          decide
        exact hinside hout
      · simp [changes] at hchange
  have hrun := (run_balanced scope hbalanced).2
  exact ⟨hbalanced, hlast, (hrun "x").1 3 hlast, (hrun "y").2.2 rfl⟩

end DefUse.Scope
