/-
# `Proofs.Walk.Trace` — the lists of events that a graph allows

A walk follows one oracle.  A *trace* follows any answer: it is a list of events
that can be seen from some code on, whatever is answered to the conditions in it.
Both views meet in `shows_iff`: what the walk of an oracle shows are the traces
that obey the oracle.  So graphs with the same traces have the same walks under
every oracle, and oracles need not be mentioned when graphs are compared.

How a branch counts is a parameter, its *outlook*: control goes to the true side
unseen, or to either side unseen, or to the side of a test that is seen.

Two graphs are compared block by block.  If the codes that they have at a block are
as good as each other in both of them, they have the same traces
(`traces_of_alike`).  If they differ only in blocks that cannot be reached, they
have the same traces, too (`traces_of_agree`).
-/
import DefUse.Proofs.Walk.Basic
import DefUse.Proofs.Graph.WellFormed

namespace DefUse

open DefUse.Tree

/-- How a branch counts. -/
inductive Outlook where
  /-- Control goes to the true side, unseen. -/
  | taken
  /-- Control goes to either side, unseen. -/
  | either
  /-- A test is seen, and control goes to the side of its outcome. -/
  | asked (node : Node)

/-- An outlook on every branch. -/
abbrev View := Condition → Outlook

/-- What a walk sees of a branch. -/
def Condition.outlook (hidden : Condition → Bool) : View := fun condition =>
  match condition.question? hidden with
  | none => .taken
  | some node => .asked node

/-- Both sides of every branch count. -/
def Condition.bothSides : View
  | .always => .either
  | .test node => .asked node

/-- What is seen on the way out, and where it leads. -/
def Exit.moves (view : View) : Exit → List (Option RunEvent × BlockId)
  | .ret _ | .unset => []
  | .jump next => [(none, next)]
  | .branch condition onTrue onFalse =>
    match view condition with
    | .taken => [(none, onTrue)]
    | .either => [(none, onTrue), (none, onFalse)]
    | .asked node => [(some (.tested node true), onTrue), (some (.tested node false), onFalse)]

theorem Exit.mem_successors_of_moves {view : View} {exit : Exit} {event : Option RunEvent}
    {next : BlockId} (h : (event, next) ∈ exit.moves view) : next ∈ exit.successors := by
  cases exit with
  | ret value => exact absurd h List.not_mem_nil
  | unset => exact absurd h List.not_mem_nil
  | jump target =>
      cases List.mem_singleton.mp h
      exact List.mem_singleton.mpr rfl
  | branch condition onTrue onFalse =>
      rw [Exit.moves] at h
      split at h <;> simp_all [successors, edges]
      all_goals
        rcases h with h | h
        · exact .inl h.2
        · exact .inr h.2

namespace Graph

/-- The events can be seen from the code on. -/
inductive Trace (graph : Graph) (view : View) : Code → List RunEvent → Prop
  | stop {code : Code} : Trace graph view code []
  | run {statement : Node} {statements : List Node} {exit : Exit} {events : List RunEvent} :
      Trace graph view ⟨statements, exit⟩ events →
      Trace graph view ⟨statement :: statements, exit⟩ (.ran statement :: events)
  | finish {value : Option Node} : Trace graph view ⟨[], .ret value⟩ [.finished value]
  | move {exit : Exit} {event : Option RunEvent} {next : BlockId} {code : Code}
      {events : List RunEvent} : (event, next) ∈ exit.moves view → graph.code? next = some code →
      Trace graph view code events → Trace graph view ⟨[], exit⟩ (event.toList ++ events)

/-- The events can be seen from the entry on. -/
def Traces (graph : Graph) (view : View) (events : List RunEvent) : Prop :=
  ∃ code, graph.code? graph.entry = some code ∧ graph.Trace view code events

variable {graph other : Graph} {view : View}

/-- Going on unseen. -/
theorem Trace.silent {exit : Exit} {next : BlockId} {code : Code} {events : List RunEvent}
    (hmove : (none, next) ∈ exit.moves view) (hnext : graph.code? next = some code)
    (h : graph.Trace view code events) : graph.Trace view ⟨[], exit⟩ events :=
  Trace.move hmove hnext h

/-! ## Code that is as good as other code -/

/-- The same can be seen from both codes on. -/
def Alike (graph : Graph) (view : View) (code code' : Code) : Prop :=
  ∀ events, graph.Trace view code events ↔ graph.Trace view code' events

theorem Alike.refl (graph : Graph) (view : View) (code : Code) : graph.Alike view code code :=
  fun _ => Iff.rfl

theorem Alike.trans {code code' code'' : Code} (h : graph.Alike view code code')
    (h' : graph.Alike view code' code'') : graph.Alike view code code'' :=
  fun events => (h events).trans (h' events)

theorem Alike.symm {code code' : Code} (h : graph.Alike view code code') :
    graph.Alike view code' code :=
  fun events => (h events).symm

/-- Statements before the codes make no difference. -/
theorem Alike.after {first second : List Node} {exit exit' : Exit}
    (h : graph.Alike view ⟨first, exit⟩ ⟨second, exit'⟩) (statements : List Node) :
    graph.Alike view ⟨statements ++ first, exit⟩ ⟨statements ++ second, exit'⟩ := by
  intro events
  induction statements generalizing events with
  | nil => exact h events
  | cons statement rest ih =>
      constructor
      · intro h
        cases h with
        | stop => exact .stop
        | run h => exact .run ((ih _).mp h)
      · intro h
        cases h with
        | stop => exact .stop
        | run h => exact .run ((ih _).mpr h)

/-- A jump to a block is as good as its code. -/
theorem alike_jump {next : BlockId} {code : Code} (hcode : graph.code? next = some code)
    (statements : List Node) :
    graph.Alike view ⟨statements, .jump next⟩ ⟨statements ++ code.statements, code.exit⟩ := by
  have hjump : graph.Alike view ⟨[], .jump next⟩ code := by
    intro events
    constructor
    · intro h
      cases h with
      | stop => exact .stop
      | move hmove hnext htrace =>
          cases List.mem_singleton.mp hmove
          cases hcode.symm.trans hnext
          exact htrace
    · intro h
      exact .silent (List.mem_singleton.mpr rfl) hcode h
  have h := Alike.after hjump statements
  rwa [List.append_nil] at h

/-- Exits with the same moves are equally good. -/
theorem alike_of_moves {exit exit' : Exit} (hmoves : exit.moves view = exit'.moves view)
    (hret : ∀ value, exit = .ret value ↔ exit' = .ret value) (statements : List Node) :
    graph.Alike view ⟨statements, exit⟩ ⟨statements, exit'⟩ := by
  have himp : ∀ {exit exit' : Exit} {events : List RunEvent},
      exit.moves view = exit'.moves view → (∀ value, exit = .ret value → exit' = .ret value) →
      graph.Trace view ⟨[], exit⟩ events → graph.Trace view ⟨[], exit'⟩ events := by
    intro exit exit' events hmoves hret h
    cases h with
    | stop => exact .stop
    | finish =>
        rw [hret _ rfl]
        exact .finish
    | move hmove hnext htrace => exact .move (hmoves ▸ hmove) hnext htrace
  have hexit : graph.Alike view ⟨[], exit⟩ ⟨[], exit'⟩ := fun events =>
    ⟨himp hmoves fun value => (hret value).mp, himp hmoves.symm fun value => (hret value).mpr⟩
  have h := Alike.after hexit statements
  rwa [List.append_nil] at h

/-! ## Comparing graphs -/

/-- If a graph takes the code of a block in the other for its own, it has all traces of the
other. -/
theorem Trace.absorb (h : ∀ id code, other.code? id = some code →
      ∃ own, graph.code? id = some own ∧ graph.Alike view code own) {code : Code}
    {events : List RunEvent} (htrace : other.Trace view code events) :
    graph.Trace view code events := by
  induction htrace with
  | stop => exact .stop
  | run _ ih => exact .run ih
  | finish => exact .finish
  | move hmove hnext _ ih =>
      obtain ⟨own, hown, halike⟩ := h _ _ hnext
      exact .move hmove hown ((halike _).mp ih)

/-- Changing the code of blocks for code that is as good keeps what can be seen from any code
on. -/
theorem trace_of_alike (change : BlockId → Code → Code)
    (hcode : ∀ id, other.code? id = (graph.code? id).map (change id))
    (hold : ∀ id code, graph.code? id = some code → graph.Alike view code (change id code))
    (hnew : ∀ id code, graph.code? id = some code → other.Alike view code (change id code))
    (code : Code) (events : List RunEvent) :
    graph.Trace view code events ↔ other.Trace view code events := by
  constructor
  · refine Trace.absorb fun id code hid => ⟨change id code, ?_, hnew id code hid⟩
    rw [hcode, hid]
    rfl
  · refine Trace.absorb ?_
    intro id code hid
    rw [hcode] at hid
    obtain ⟨own, hown, rfl⟩ := Option.map_eq_some_iff.mp hid
    exact ⟨own, hown, fun events => (hold id own hown events).symm⟩

/-- Changing the code of blocks for code that is as good keeps the traces. -/
theorem traces_of_alike (change : BlockId → Code → Code)
    (hentry : other.entry = graph.entry)
    (hcode : ∀ id, other.code? id = (graph.code? id).map (change id))
    (hold : ∀ id code, graph.code? id = some code → graph.Alike view code (change id code))
    (hnew : ∀ id code, graph.code? id = some code → other.Alike view code (change id code))
    (events : List RunEvent) : graph.Traces view events ↔ other.Traces view events := by
  have htrace := fun code => trace_of_alike change hcode hold hnew code events
  constructor
  · rintro ⟨code, hid, h⟩
    refine ⟨change graph.entry code, ?_, ?_⟩
    · rw [hentry, hcode, hid]
      rfl
    · exact (hnew _ code hid events).mp ((htrace code).mp h)
  · rintro ⟨code, hid, h⟩
    rw [hentry, hcode] at hid
    obtain ⟨own, hown, rfl⟩ := Option.map_eq_some_iff.mp hid
    exact ⟨own, hown, (hold _ own hown events).mpr ((htrace _).mpr h)⟩

/-- Graphs that do the same wherever the first one gets. -/
theorem Trace.agree (h : ∀ id, graph.Reachable id → graph.code? id = other.code? id)
    {code : Code} {events : List RunEvent} (htrace : graph.Trace view code events)
    (hcode : ∀ next ∈ code.exit.successors, next < graph.blocks.size → graph.Reachable next) :
    other.Trace view code events := by
  induction htrace with
  | stop => exact .stop
  | run _ ih => exact .run (ih hcode)
  | finish => exact .finish
  | move hmove hnext _ ih =>
      have hreach := hcode _ (Exit.mem_successors_of_moves hmove) (lt_of_code? hnext)
      refine .move hmove (h _ hreach ▸ hnext) (ih fun next hsucc hlt => ?_)
      rw [← successors_of_code? hnext] at hsucc
      exact .step hreach hsucc hlt

theorem Traces.agree (hentry : graph.entry = other.entry)
    (h : ∀ id, graph.Reachable id → graph.code? id = other.code? id) {events : List RunEvent}
    (htraces : graph.Traces view events) : other.Traces view events := by
  obtain ⟨code, hcode, htrace⟩ := htraces
  have hreach : graph.Reachable graph.entry := .entry (lt_of_code? hcode)
  refine ⟨code, ?_, htrace.agree h fun next hnext hlt => ?_⟩
  · rw [← hentry, ← h _ hreach, hcode]
  · rw [← successors_of_code? hcode] at hnext
    exact .step hreach hnext hlt

/-- What is out of reach may be changed. -/
theorem traces_of_agree (hwired : graph.Wired) (hentry : graph.entry = other.entry)
    (h : ∀ id, graph.Reachable id → graph.code? id = other.code? id) (events : List RunEvent) :
    graph.Traces view events ↔ other.Traces view events := by
  constructor
  · exact Traces.agree hentry h
  · refine Traces.agree hentry.symm ?_
    intro id hid
    exact (h id (reachable_of_agree hwired hentry h hid)).symm

theorem traces_setParents (events : List RunEvent) :
    graph.setParents.Traces view events ↔ graph.Traces view events := by
  constructor
  · exact Traces.agree (entry_setParents graph) fun id _ => code?_setParents graph id
  · exact Traces.agree (entry_setParents graph).symm fun id _ => (code?_setParents graph id).symm

/-- To start at the entry is to jump there. -/
theorem traces_iff_jump (hwired : graph.Wired) (events : List RunEvent) :
    graph.Traces view events ↔ graph.Trace view ⟨[], .jump graph.entry⟩ events := by
  obtain ⟨code, hcode⟩ := code?_of_lt hwired.entry
  rw [alike_jump hcode [] events]
  constructor
  · rintro ⟨code', hcode', htrace⟩
    cases hcode.symm.trans hcode'
    exact htrace
  · intro htrace
    exact ⟨code, hcode, htrace⟩

theorem Trace.review {view' : View}
    (h : ∀ id code, graph.Reachable id → graph.code? id = some code →
      code.exit.moves view = code.exit.moves view')
    {id : BlockId} {code : Code} (hid : graph.Reachable id) (hcode : graph.code? id = some code)
    {statements : List Node} {events : List RunEvent}
    (htrace : graph.Trace view ⟨statements, code.exit⟩ events) :
    graph.Trace view' ⟨statements, code.exit⟩ events := by
  generalize hrest : Code.mk statements code.exit = rest at htrace
  induction htrace generalizing id code statements with
  | stop => exact .stop
  | run _ ih =>
      cases hrest
      exact .run (ih hid hcode rfl)
  | finish => exact .finish
  | @move exit event next target events hmove hnext _ ih =>
      cases hrest
      have hmove' := hmove
      rw [h id code hid hcode] at hmove'
      have hsucc : next ∈ graph.successors id := by
        rw [successors_of_code? hcode]
        exact Exit.mem_successors_of_moves hmove
      exact .move hmove' hnext (ih (.step hid hsucc (lt_of_code? hnext)) hnext rfl)

/-- Views that agree on the exits that can be reached see the same traces. -/
theorem traces_review {view' : View}
    (h : ∀ id code, graph.Reachable id → graph.code? id = some code →
      code.exit.moves view = code.exit.moves view') (events : List RunEvent) :
    graph.Traces view events ↔ graph.Traces view' events := by
  have hentry : ∀ {code : Code}, graph.code? graph.entry = some code →
      graph.Reachable graph.entry := by
    intro code hcode
    exact .entry (lt_of_code? hcode)
  constructor
  · rintro ⟨code, hcode, htrace⟩
    exact ⟨code, hcode, htrace.review h (hentry hcode) hcode⟩
  · rintro ⟨code, hcode, htrace⟩
    refine ⟨code, hcode, htrace.review ?_ (hentry hcode) hcode⟩
    intro id code hid hcode
    exact (h id code hid hcode).symm

end Graph

/-! ## Walks -/

/-- The answers in the events are those of the oracle, after all that was seen. -/
def Obeys (oracle : Oracle) : (seen events : List RunEvent) → Prop
  | _, [] => True
  | seen, event :: events =>
    (∀ node outcome, event = .tested node outcome → oracle seen node = outcome) ∧
      Obeys oracle (seen ++ [event]) events

namespace Walk

variable {graph : Graph} {hidden : Condition → Bool} {oracle : Oracle}

/-- What a walk shows after it has shown `event`. -/
theorem eq_cons_of_prefix {seen events all : List RunEvent} {event : RunEvent}
    (hevent : seen ++ [event] <+: all) (hevents : seen ++ events <+: all) :
    events = [] ∨ ∃ rest, events = event :: rest ∧ seen ++ [event] ++ rest <+: all := by
  cases events with
  | nil => exact .inl rfl
  | cons first rest =>
      obtain ⟨more, rfl⟩ := hevent
      rw [List.append_assoc, List.prefix_append_right_inj] at hevents
      obtain ⟨rfl, -⟩ := List.cons_prefix_cons.mp hevents
      refine .inr ⟨rest, rfl, ?_⟩
      rw [List.append_assoc, List.append_assoc, List.prefix_append_right_inj]
      exact hevents

theorem nil_of_prefix {seen events : List RunEvent} (h : seen ++ events <+: seen) :
    events = [] := by
  have hlen := h.length_le
  rw [List.length_append] at hlen
  exact List.eq_nil_of_length_eq_zero (by omega)

/-- A decided exit leads somewhere. -/
theorem code?_of_moves (hwired : graph.Wired) {exit : Exit} {view : View}
    (hexit : exit.Within graph.blocks.size) {event : Option RunEvent} {next : BlockId}
    (h : (event, next) ∈ exit.moves view) :
    ∃ code, graph.code? next = some code ∧ code.exit.Within graph.blocks.size := by
  obtain ⟨code, hcode⟩ := Graph.code?_of_lt (hexit.2 next (Exit.mem_successors_of_moves h))
  exact ⟨code, hcode, hwired.exits hcode⟩

/-- What a walk shows from some code on is a trace that obeys the oracle. -/
theorem trace_of_steps (hwired : graph.Wired) (n : Nat) (code : Code)
    (hcode : code.exit.Within graph.blocks.size) (seen events : List RunEvent)
    (h : seen ++ events <+: (steps graph hidden oracle n ⟨some code, seen⟩).events) :
    graph.Trace (Condition.outlook hidden) code events ∧ Obeys oracle seen events := by
  induction n generalizing code seen events with
  | zero =>
      cases nil_of_prefix h
      exact ⟨.stop, trivial⟩
  | succ n ih =>
      match code with
      | ⟨statement :: statements, exit⟩ =>
          rw [steps, step] at h
          rcases eq_cons_of_prefix (prefix_steps n _ _) h with rfl | ⟨rest, rfl, hrest⟩
          · exact ⟨.stop, trivial⟩
          · obtain ⟨htrace, hobeys⟩ := ih ⟨statements, exit⟩ hcode _ rest hrest
            refine ⟨.run htrace, ?_, hobeys⟩
            intro node outcome heq
            cases heq
      | ⟨[], .ret value⟩ =>
          rw [steps, step, steps_over] at h
          rcases eq_cons_of_prefix List.prefix_rfl h with rfl | ⟨rest, rfl, hrest⟩
          · exact ⟨.stop, trivial⟩
          · cases nil_of_prefix hrest
            refine ⟨.finish, ?_, trivial⟩
            intro node outcome heq
            cases heq
      | ⟨[], .unset⟩ => exact absurd hcode.1 (by decide)
      | ⟨[], .jump next⟩ =>
          have hmove : (none, next) ∈ (Exit.jump next).moves (Condition.outlook hidden) :=
            List.mem_singleton.mpr rfl
          obtain ⟨target, hnext, htarget⟩ := code?_of_moves hwired hcode hmove
          rw [steps, step, hnext] at h
          obtain ⟨htrace, hobeys⟩ := ih target htarget seen events h
          exact ⟨.silent hmove hnext htrace, hobeys⟩
      | ⟨[], .branch condition onTrue onFalse⟩ =>
          rw [steps, step] at h
          cases hask : condition.question? hidden with
          | none =>
              have hmove : (none, onTrue) ∈
                  (Exit.branch condition onTrue onFalse).moves (Condition.outlook hidden) := by
                rw [Exit.moves, Condition.outlook, hask]
                exact List.mem_singleton.mpr rfl
              obtain ⟨target, hnext, htarget⟩ := code?_of_moves hwired hcode hmove
              simp only [hask, hnext] at h
              obtain ⟨htrace, hobeys⟩ := ih target htarget seen events h
              exact ⟨.silent hmove hnext htrace, hobeys⟩
          | some node =>
              have hmove : (some (.tested node (oracle seen node)),
                  if oracle seen node then onTrue else onFalse) ∈
                  (Exit.branch condition onTrue onFalse).moves (Condition.outlook hidden) := by
                rw [Exit.moves, Condition.outlook, hask]
                cases oracle seen node <;> simp
              obtain ⟨target, hnext, htarget⟩ := code?_of_moves hwired hcode hmove
              simp only [hask, hnext] at h
              rcases eq_cons_of_prefix (prefix_steps n _ _) h with rfl | ⟨rest, rfl, hrest⟩
              · exact ⟨.stop, trivial⟩
              · obtain ⟨htrace, hobeys⟩ := ih target htarget _ rest hrest
                refine ⟨.move hmove hnext htrace, ⟨fun node' outcome heq => ?_, hobeys⟩⟩
                cases heq
                rfl

/-- A trace that obeys the oracle is shown by its walk. -/
theorem steps_of_trace {code : Code} {seen events : List RunEvent}
    (htrace : graph.Trace (Condition.outlook hidden) code events)
    (hobeys : Obeys oracle seen events) :
    ∃ n, seen ++ events <+: (steps graph hidden oracle n ⟨some code, seen⟩).events := by
  induction htrace generalizing seen with
  | stop =>
      refine ⟨0, ?_⟩
      rw [List.append_nil]
      exact List.prefix_rfl
  | run _ ih =>
      obtain ⟨n, hn⟩ := ih hobeys.2
      rw [List.append_assoc] at hn
      exact ⟨n + 1, hn⟩
  | finish => exact ⟨1, List.prefix_rfl⟩
  | @move exit event next target events hmove hnext _ ih =>
      cases exit with
      | ret value => exact absurd hmove List.not_mem_nil
      | unset => exact absurd hmove List.not_mem_nil
      | jump next =>
          cases List.mem_singleton.mp hmove
          obtain ⟨n, hn⟩ := ih hobeys
          refine ⟨n + 1, ?_⟩
          rw [steps, step, hnext]
          exact hn
      | branch condition onTrue onFalse =>
          rw [Exit.moves, Condition.outlook] at hmove
          cases hask : condition.question? hidden with
          | none =>
              rw [hask] at hmove
              cases List.mem_singleton.mp hmove
              obtain ⟨n, hn⟩ := ih hobeys
              refine ⟨n + 1, ?_⟩
              simp only [steps, step, hask, hnext]
              exact hn
          | some node =>
              -- the outcome in the trace is the answer of the oracle
              have hanswer : event = some (.tested node (oracle seen node)) ∧
                  next = if oracle seen node then onTrue else onFalse := by
                simp only [hask, List.mem_cons, List.not_mem_nil, or_false, Prod.mk.injEq]
                  at hmove
                rcases hmove with ⟨rfl, rfl⟩ | ⟨rfl, rfl⟩ <;>
                  simp [hobeys.1 node _ rfl]
              obtain ⟨rfl, rfl⟩ := hanswer
              obtain ⟨n, hn⟩ := ih hobeys.2
              rw [List.append_assoc] at hn
              refine ⟨n + 1, ?_⟩
              simp only [steps, step, hask, hnext]
              exact hn

end Walk

/-- The walk of an oracle shows the traces that obey the oracle. -/
theorem Graph.shows_iff {graph : Graph} {hidden : Condition → Bool} {oracle : Oracle}
    {events : List RunEvent} (hwired : graph.Wired) :
    graph.Shows hidden oracle events ↔
      graph.Traces (Condition.outlook hidden) events ∧ Obeys oracle [] events := by
  obtain ⟨code, hcode⟩ := code?_of_lt hwired.entry
  constructor
  · rintro ⟨n, h⟩
    rw [walk, hcode] at h
    obtain ⟨htrace, hobeys⟩ :=
      Walk.trace_of_steps hwired n code (hwired.exits hcode) [] events h
    exact ⟨⟨code, hcode, htrace⟩, hobeys⟩
  · rintro ⟨⟨code', hcode', htrace⟩, hobeys⟩
    obtain ⟨n, h⟩ := Walk.steps_of_trace htrace hobeys
    refine ⟨n, ?_⟩
    rw [walk, hcode']
    exact h

end DefUse
