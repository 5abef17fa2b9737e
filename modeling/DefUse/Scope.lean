/-
# `Scope` — nested frames of bindings

A scope is an innermost frame and the frames around it.  A binding goes into
the innermost frame and hides those of the same name further out.  An assignment
changes the innermost binding of its name, wherever that is, and fails if there
is none.  The outermost frame is never closed.
-/

namespace DefUse

/-- The bindings of one frame, the latest first. -/
abbrev Frame (α : Type) := List (String × α)

/-- Nested frames of bindings. -/
structure Scope (α : Type) where
  /-- The innermost frame. -/
  inner : Frame α
  /-- The frames around it, from the inside out. -/
  outer : List (Frame α)
deriving DecidableEq, Inhabited

namespace Frame

variable {α : Type}

/-- The value of a name. -/
def get? (name : String) (frame : Frame α) : Option α :=
  frame.lookup name

/-- Binds a name, over any binding it has in the frame. -/
def bind (name : String) (value : α) (frame : Frame α) : Frame α :=
  (name, value) :: frame

@[simp] theorem get?_bind_self (name : String) (value : α) (frame : Frame α) :
    get? name (bind name value frame) = some value := by
  simp [get?, bind]

theorem get?_bind_of_ne {name other : String} (h : other ≠ name) (value : α)
    (frame : Frame α) : get? other (bind name value frame) = get? other frame := by
  have hne : (other == name) = false := by simpa using h
  simp [get?, bind, List.lookup_cons, hne]

end Frame

namespace Scope

variable {α : Type}

/-- One frame without bindings. -/
def empty : Scope α :=
  ⟨[], []⟩

/-- All frames, from the inside out. -/
def frames (scope : Scope α) : List (Frame α) :=
  scope.inner :: scope.outer

/-- Opens a frame. -/
def push (scope : Scope α) : Scope α :=
  ⟨[], scope.inner :: scope.outer⟩

/-- Closes the innermost frame, unless it is the only one. -/
def pop (scope : Scope α) : Scope α :=
  match scope.outer with
  | [] => scope
  | frame :: rest => ⟨frame, rest⟩

/-- Binds a name in the innermost frame. -/
def bind (name : String) (value : α) (scope : Scope α) : Scope α :=
  { scope with inner := Frame.bind name value scope.inner }

/-- The innermost binding of a name. -/
def lookup (name : String) (scope : Scope α) : Option α :=
  scope.frames.findSome? (Frame.get? name)

/-- Rebinds a name in the first of several frames that holds it. -/
def assignIn? (name : String) (value : α) : List (Frame α) → Option (List (Frame α))
  | [] => none
  | frame :: rest =>
    if (Frame.get? name frame).isSome then some (Frame.bind name value frame :: rest)
    else (assignIn? name value rest).map (frame :: ·)

/-- Rebinds a name in the innermost frame that holds it; fails if none does. -/
def assign? (name : String) (value : α) (scope : Scope α) : Option (Scope α) :=
  match assignIn? name value scope.frames with
  | some (frame :: rest) => some ⟨frame, rest⟩
  | _ => none

/-! ## What each operation does to look-ups -/

@[simp] theorem pop_push (scope : Scope α) : scope.push.pop = scope := rfl

@[simp] theorem lookup_push (name : String) (scope : Scope α) :
    scope.push.lookup name = scope.lookup name := rfl

@[simp] theorem lookup_bind_self (name : String) (value : α) (scope : Scope α) :
    (scope.bind name value).lookup name = some value := by
  simp [lookup, frames, bind]

theorem lookup_bind_of_ne {name other : String} (h : other ≠ name) (value : α)
    (scope : Scope α) : (scope.bind name value).lookup other = scope.lookup other := by
  simp [lookup, frames, bind, List.findSome?_cons, Frame.get?_bind_of_ne h]

theorem assignIn?_eq_none_iff (name : String) (value : α) (frames : List (Frame α)) :
    assignIn? name value frames = none ↔ ∀ frame ∈ frames, Frame.get? name frame = none := by
  induction frames with
  | nil => simp [assignIn?]
  | cons frame rest ih =>
    by_cases h : (Frame.get? name frame).isSome
    · have hne : Frame.get? name frame ≠ none := Option.isSome_iff_ne_none.mp h
      simp [assignIn?, h, hne]
    · have hn : Frame.get? name frame = none := by simpa using h
      simp [assignIn?, hn, ih]

end Scope

end DefUse
