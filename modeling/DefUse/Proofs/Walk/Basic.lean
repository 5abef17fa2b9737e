/-
# `Proofs.Walk.Basic` — walking a graph, and what can be seen of it

A graph says what a program does only once somebody says how it is walked.  A
walk runs the statements of a block one after the other and leaves the block by
its exit.  The outcome of a condition is not known here: an *oracle* answers it,
from the condition and all that has happened before, so that a theorem about all
oracles is one about all states of memory.

What is seen are *events*: a statement is run, a condition is tested with an
outcome, the run ends with a value or without.  Going from block to block is not
seen.  A branch may be *hidden*: its condition is not asked for, control goes to
its true side, and nothing is seen of it.

The sequence of events of a walk may be finite or infinite.  Either way it is
known by its finite beginnings, and `Graph.Shows` says which lists are such
beginnings.  The end of a run is an event, so a walk that ends, one that goes on
without any event and one that shows events for ever differ in what they show.
-/
import DefUse.Proofs.Graph.Code

namespace DefUse

open DefUse.Tree

/-- What can be seen of a run. -/
inductive RunEvent where
  /-- A simple statement is run. -/
  | ran (statement : Node)
  /-- A condition is tested. -/
  | tested (condition : Node) (outcome : Bool)
  /-- The run ends, with a value or without. -/
  | finished (value : Option Node)

/-- Answers a condition, given all that was seen before. -/
abbrev Oracle := List RunEvent → Node → Bool

/-- The expression that has to be tested, if the condition is not hidden. -/
def Condition.question? (hidden : Condition → Bool) : Condition → Option Node
  | always => none
  | test node => if hidden (test node) then none else some node

/-- A walk at some point: what is left of the block, and all that was seen. -/
structure Walk where
  /-- Nothing is left once the run has ended. -/
  rest : Option Code
  events : List RunEvent

namespace Walk

section Steps

variable (graph : Graph) (hidden : Condition → Bool) (oracle : Oracle)

/-- Runs one statement, or leaves the block. -/
def step : Walk → Walk
  | ⟨none, events⟩ => ⟨none, events⟩
  | ⟨some ⟨statement :: statements, exit⟩, events⟩ =>
    ⟨some ⟨statements, exit⟩, events ++ [.ran statement]⟩
  | ⟨some ⟨[], .ret value⟩, events⟩ => ⟨none, events ++ [.finished value]⟩
  | ⟨some ⟨[], .jump next⟩, events⟩ => ⟨graph.code? next, events⟩
  | ⟨some ⟨[], .branch condition onTrue onFalse⟩, events⟩ =>
    match condition.question? hidden with
    | none => ⟨graph.code? onTrue, events⟩
    | some node =>
      let outcome := oracle events node
      ⟨graph.code? (if outcome then onTrue else onFalse), events ++ [.tested node outcome]⟩
  | ⟨some ⟨[], .unset⟩, events⟩ => ⟨none, events⟩

/-- Takes a number of steps. -/
def steps : Nat → Walk → Walk
  | 0, walk => walk
  | n + 1, walk => steps n (step graph hidden oracle walk)

end Steps

variable {graph : Graph} {hidden : Condition → Bool} {oracle : Oracle}

theorem steps_add (n m : Nat) (walk : Walk) :
    steps graph hidden oracle (n + m) walk =
      steps graph hidden oracle m (steps graph hidden oracle n walk) := by
  induction n generalizing walk with
  | zero => rw [Nat.zero_add]; rfl
  | succ n ih => rw [Nat.add_right_comm]; exact ih _

@[simp] theorem steps_over (n : Nat) (events : List RunEvent) :
    steps graph hidden oracle n ⟨none, events⟩ = ⟨none, events⟩ := by
  induction n with
  | zero => rfl
  | succ n ih => exact ih

/-- A step forgets nothing that was seen. -/
theorem events_step (walk : Walk) : walk.events <+: (step graph hidden oracle walk).events := by
  obtain ⟨rest, events⟩ := walk
  match rest with
  | none => exact List.prefix_rfl
  | some ⟨_ :: _, _⟩ => exact List.prefix_append _ _
  | some ⟨[], .ret _⟩ => exact List.prefix_append _ _
  | some ⟨[], .jump _⟩ => exact List.prefix_rfl
  | some ⟨[], .unset⟩ => exact List.prefix_rfl
  | some ⟨[], .branch condition _ _⟩ =>
      rw [step]
      split
      · exact List.prefix_rfl
      · exact List.prefix_append _ _

theorem events_steps (n : Nat) (walk : Walk) :
    walk.events <+: (steps graph hidden oracle n walk).events := by
  induction n generalizing walk with
  | zero => exact List.prefix_rfl
  | succ n ih => exact (events_step walk).trans (ih _)

theorem prefix_steps (n : Nat) (rest : Option Code) (seen : List RunEvent) :
    seen <+: (steps graph hidden oracle n ⟨rest, seen⟩).events :=
  events_steps n ⟨rest, seen⟩

/-- More steps show more. -/
theorem events_steps_le {n m : Nat} (h : n ≤ m) (walk : Walk) :
    (steps graph hidden oracle n walk).events <+: (steps graph hidden oracle m walk).events := by
  obtain ⟨k, rfl⟩ := Nat.exists_eq_add_of_le h
  rw [steps_add]
  exact events_steps k _

/-- A walk that has ended has shown all there is. -/
theorem events_prefix_stop {n m : Nat} {start stop : Walk}
    (hstop : steps graph hidden oracle m start = stop) (h : stop.rest = none ∨ n ≤ m) :
    (steps graph hidden oracle n start).events <+: stop.events := by
  subst hstop
  rcases Nat.le_total n m with hle | hle
  · exact events_steps_le hle start
  · rcases h with hover | hle'
    · obtain ⟨k, rfl⟩ := Nat.exists_eq_add_of_le hle
      rw [steps_add]
      generalize steps graph hidden oracle m start = stop at hover
      obtain ⟨rest, events⟩ := stop
      cases hover
      simp
    · exact events_steps_le hle' start

end Walk

namespace Graph

/-- The walk from the entry after a number of steps. -/
def walk (graph : Graph) (hidden : Condition → Bool) (oracle : Oracle) (n : Nat) : Walk :=
  Walk.steps graph hidden oracle n ⟨graph.code? graph.entry, []⟩

/-- The events are the beginning of what a walk from the entry shows. -/
def Shows (graph : Graph) (hidden : Condition → Bool) (oracle : Oracle)
    (events : List RunEvent) : Prop :=
  ∃ n, events <+: (graph.walk hidden oracle n).events

end Graph

end DefUse
