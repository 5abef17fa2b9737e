/-
# `Proofs.Effect.Origin` — where in a statement an effect is made

Each effect of a statement that is no declaration is made by one expression in it
(`Effect.MadeBy`).  The renaming walk passes through that expression, and what the effect
reads and writes are occurrences that it looks up there, with the same variables in view
as at the beginning of the statement: always for the write (`Effect.MadeBy.meets_target`),
and for the reads if nothing is declared inside (`Effect.MadeBy.meets_read`).

Both walks find the parts of an expression by their roles, but only one of them skips
tokens.  So it has to be known that what has a role is no token (`Node.RoleNamed`).
-/
import DefUse.Proofs.Effect.Within
import DefUse.Proofs.Names.Scoping

namespace DefUse

open DefUse.Tree
open DefUse.Names

/-! ## Passing through a node -/

namespace Tree.Node

/-- The node is no token, if it has a role. -/
def RoleNamed (node : Node) : Prop :=
  node.site.fields ≠ [] → node.isNamed = true

instance (node : Node) : Decidable node.RoleNamed :=
  inferInstanceAs (Decidable (_ → _))

theorem named_of_field? {node part : Node} {field : Field}
    (h : ∀ child ∈ node.children, child.RoleNamed) (hpart : node.field? field = some part) :
    part ∈ node.children ∧ part.isNamed = true := by
  have hmem := List.mem_of_find?_eq_some hpart
  have hcarries : part.carries field = true := List.find?_some hpart
  exact ⟨hmem, h part hmem (List.ne_nil_of_mem (List.contains_iff_mem.mp hcarries))⟩

end Tree.Node

namespace Names

/-- Does the walk do nothing at nodes of this kind but go on to the named children? -/
def goesOn : Kind → Bool
  | .identifier | .shorthandIdentifier | .lexicalDeclaration | .variableDeclaration
  | .statementBlock | .forStatement => false
  | _ => true

theorem steps_of_goesOn {node : Node} (h : goesOn node.kind = true) :
    steps node = stepsNamed node.children := by
  obtain ⟨site, children⟩ := node
  change goesOn site.kind = true at h
  rw [steps]
  generalize site.kind = kind at h
  split
  · cases h
  · cases h
  · cases h
  · cases h
  · cases h
  · cases h
  · rfl

theorem steps_of_identifier {node : Node} (h : node.kind = .identifier) :
    steps node = [.resolve node.site] := by
  obtain ⟨site, children⟩ := node
  change site.kind = .identifier at h
  rw [steps, h]
  rfl

theorem declares_of_goesOn {node : Node} (h : goesOn node.kind = true) :
    declares node = declaresNamed node.children := by
  obtain ⟨site, children⟩ := node
  change goesOn site.kind = true at h
  rw [declares]
  generalize site.kind = kind at h
  split
  · cases h
  · cases h
  · cases h
  · cases h
  · cases h
  · cases h
  · rfl

variable (program : Program)

/-- If nothing is declared in the node, then neither is it in the part, and the walk comes to the
part with the same variables in view. -/
def Passes (node part : Node) : Prop :=
  declares node = false → Meets program (steps node) (steps part) ∧ declares part = false

variable {program}

theorem Passes.refl (node : Node) : Passes program node node :=
  fun h => ⟨Meets.refl _, h⟩

theorem Passes.trans {node part inner : Node} (h : Passes program node part)
    (h' : Passes program part inner) : Passes program node inner := by
  intro hnone
  obtain ⟨hmeets, hpart⟩ := h hnone
  obtain ⟨hmeets', hinner⟩ := h' hpart
  exact ⟨hmeets.trans hmeets', hinner⟩

theorem passes_child {node child : Node} (hkind : goesOn node.kind = true)
    (hchild : child ∈ node.children) (hnamed : child.isNamed = true) :
    Passes program node child := by
  intro hnone
  rw [declares_of_goesOn hkind] at hnone
  rw [steps_of_goesOn hkind]
  exact ⟨meets_stepsNamed hnone hchild hnamed,
    declaresNamed_eq_false.mp hnone child hchild hnamed⟩

theorem isNamed_of_isContent {node : Node} (h : node.isContent = true) : node.isNamed = true := by
  rw [Node.isContent, Bool.and_eq_true] at h
  exact h.1

mutual

/-- Parentheses are passed through. -/
theorem passes_unparenthesized : ∀ node : Node, Passes program node node.unparenthesized
  | .mk site children => by
      rw [Node.unparenthesized]
      split
      · rename_i hkind
        cases hinner : Node.unparenthesizedFirst children with
        | none => exact Passes.refl _
        | some inner =>
            obtain ⟨child, hchild, hnamed, hpasses⟩ :=
              passes_unparenthesizedFirst children inner hinner
            refine Passes.trans (passes_child ?_ hchild hnamed) hpasses
            rw [Node.kind, Node.site_mk, hkind]
            rfl
      · exact Passes.refl _

theorem passes_unparenthesizedFirst : ∀ (nodes : List Node) (inner : Node),
    Node.unparenthesizedFirst nodes = some inner →
      ∃ child ∈ nodes, child.isNamed = true ∧ Passes program child inner
  | [], _, h => nomatch h
  | child :: rest, inner, h => by
      rw [Node.unparenthesizedFirst] at h
      split at h
      · rename_i hcontent
        cases h
        exact ⟨child, List.mem_cons_self, isNamed_of_isContent hcontent,
          passes_unparenthesized child⟩
      · obtain ⟨other, hother, hfound⟩ := passes_unparenthesizedFirst rest inner h
        exact ⟨other, List.mem_cons_of_mem _ hother, hfound⟩

end

end Names

/-! ## The place of an effect -/

namespace Effect

/-- The node makes the effect all by itself. -/
inductive MadeBy : Node → Effect → Prop
  | reads {node : Node} {step : Effect} : ofReads node = .ok step → MadeBy node step
  | assignment {node : Node} {step : Effect} :
      node.kind = .assignmentExpression → ofAssignment node = .ok step → MadeBy node step
  | compound {node : Node} {step : Effect} :
      node.kind = .augmentedAssignment → ofCompound node = .ok step → MadeBy node step
  | update {node : Node} {step : Effect} :
      node.kind = .updateExpression → ofUpdate node = .ok step → MadeBy node step

end Effect

section Place

variable (program : Program)

mutual

/-- The effects of an expression in statement position are made by parts of it. -/
theorem expressionEffects_madeBy : ∀ (node : Node) (found : List Effect),
    expressionEffects node = .ok found → ∀ step ∈ found,
      ∃ part ∈ node.nodes, Effect.MadeBy part step ∧ Passes program node part
  | .mk site children, found, h, step, hstep => by
      -- the expression makes the effect itself
      have hself : ∀ {made}, step ∈ [made] → Effect.MadeBy (.mk site children) made →
          ∃ part ∈ (Node.mk site children).nodes,
            Effect.MadeBy part step ∧ Passes program (.mk site children) part := by
        intro made hmem hmade
        cases List.mem_singleton.mp hmem
        exact ⟨_, Node.mem_nodes_self _, hmade, Passes.refl _⟩
      -- or one of its children does
      have hbelow : goesOn (Node.mk site children).kind = true →
          (∃ child ∈ children, child.isNamed = true ∧
            ∃ part ∈ child.nodes, Effect.MadeBy part step ∧ Passes program child part) →
          ∃ part ∈ (Node.mk site children).nodes,
            Effect.MadeBy part step ∧ Passes program (.mk site children) part := by
        rintro hkind ⟨child, hchild, hnamed, part, hpart, hmade, hpasses⟩
        exact ⟨part, List.mem_cons_of_mem _ ((Node.sublist_of_mem hchild).subset hpart), hmade,
          (passes_child hkind hchild hnamed).trans hpasses⟩
      rw [expressionEffects] at h
      split at h
      · rename_i hkind
        cases hfirst : expressionEffectsFirst children with
        | none =>
            rw [hfirst] at h
            obtain ⟨made, hmade, rfl⟩ := Effect.singleton_eq_ok h
            exact hself hstep (.reads hmade)
        | some result =>
            rw [hfirst] at h
            cases h
            refine hbelow ?_ (expressionEffectsFirst_madeBy children found hfirst step hstep)
            rw [Node.kind, Node.site_mk, hkind]
            rfl
      · rename_i hkind
        refine hbelow ?_ (expressionEffectsNamed_madeBy children found h step hstep)
        rw [Node.kind, Node.site_mk, hkind]
        rfl
      · rename_i hkind
        obtain ⟨made, hmade, rfl⟩ := Effect.singleton_eq_ok h
        exact hself hstep (.assignment hkind hmade)
      · rename_i hkind
        obtain ⟨made, hmade, rfl⟩ := Effect.singleton_eq_ok h
        exact hself hstep (.compound hkind hmade)
      · rename_i hkind
        obtain ⟨made, hmade, rfl⟩ := Effect.singleton_eq_ok h
        exact hself hstep (.update hkind hmade)
      · obtain ⟨made, hmade, rfl⟩ := Effect.singleton_eq_ok h
        exact hself hstep (.reads hmade)

theorem expressionEffectsFirst_madeBy : ∀ (nodes : List Node) (found : List Effect),
    expressionEffectsFirst nodes = some (.ok found) → ∀ step ∈ found,
      ∃ child ∈ nodes, child.isNamed = true ∧
        ∃ part ∈ child.nodes, Effect.MadeBy part step ∧ Passes program child part
  | [], _, h, _, _ => nomatch h
  | child :: rest, found, h, step, hstep => by
      rw [expressionEffectsFirst] at h
      split at h
      · rename_i hcontent
        exact ⟨child, List.mem_cons_self, isNamed_of_isContent hcontent,
          expressionEffects_madeBy child found (Option.some.inj h) step hstep⟩
      · obtain ⟨other, hother, hfound⟩ := expressionEffectsFirst_madeBy rest found h step hstep
        exact ⟨other, List.mem_cons_of_mem _ hother, hfound⟩

theorem expressionEffectsNamed_madeBy : ∀ (nodes : List Node) (found : List Effect),
    expressionEffectsNamed nodes = .ok found → ∀ step ∈ found,
      ∃ child ∈ nodes, child.isNamed = true ∧
        ∃ part ∈ child.nodes, Effect.MadeBy part step ∧ Passes program child part
  | [], found, h, step, hstep => by
      cases h
      cases hstep
  | child :: rest, found, h, step, hstep => by
      rw [expressionEffectsNamed] at h
      split at h
      · rename_i hnamed
        split at h
        · cases h
        · rename_i first hfirst
          split at h
          · cases h
          · rename_i others hothers
            cases h
            rcases List.mem_append.mp hstep with hstep | hstep
            · exact ⟨child, List.mem_cons_self, hnamed,
                expressionEffects_madeBy child first hfirst step hstep⟩
            · obtain ⟨other, hother, hfound⟩ :=
                expressionEffectsNamed_madeBy rest others hothers step hstep
              exact ⟨other, List.mem_cons_of_mem _ hother, hfound⟩
      · obtain ⟨other, hother, hfound⟩ := expressionEffectsNamed_madeBy rest found h step hstep
        exact ⟨other, List.mem_cons_of_mem _ hother, hfound⟩

end

omit program in
theorem effects_of_isDeclaration {statement : Node} (h : isDeclaration statement = true) :
    effects statement = (declarators statement).mapM Effect.ofDeclarator := by
  rw [isDeclaration, Bool.or_eq_true, decide_eq_true_eq, decide_eq_true_eq] at h
  rw [effects]
  rcases h with hkind | hkind
  · rw [hkind]
  · rw [hkind]

omit program in
theorem mem_declarators {statement declarator : Node} (h : declarator ∈ declarators statement) :
    declarator ∈ statement.children ∧ declarator.kind = .variableDeclarator := by
  obtain ⟨hmem, hkind⟩ := List.mem_filter.mp h
  exact ⟨List.mem_of_mem_filter hmem, by simpa using hkind⟩

omit program in
/-- A declarator names a variable, reads its value and writes the variable, if there is a
value. -/
theorem Effect.ofDeclarator_eq_ok {declarator : Node} {step : Effect}
    (hkind : declarator.kind = .variableDeclarator) (h : ofDeclarator declarator = .ok step) :
    (∀ name ∈ declarator.field? .name, name.kind = .identifier) ∧
      readsOf? (declarator.field? .value) = .ok step.reads ∧
      step.write = (declarator.field? .value).bind fun _ =>
        (declarator.field? .name).map fun name => ⟨declarator.site, .declaration, name.site⟩ := by
  rw [ofDeclarator] at h
  split at h
  · cases h
  · rename_i hidentifier
    have hname : ∀ name ∈ declarator.field? .name, name.kind = .identifier := by
      intro name hname
      rw [Option.mem_def] at hname
      simpa [hname] using hidentifier
    obtain ⟨sites, hsites, h⟩ := exists_of_bind_eq_ok h
    cases h
    refine ⟨hname, hsites, ?_⟩
    rw [Assignment.ofNode?, Assignment.target?, hkind]
    cases declarator.field? .value with
    | none => rfl
    | some value =>
        cases hfield : declarator.field? .name with
        | none => rfl
        | some name => simp [hname name hfield]

omit program in
theorem Effect.declaration_of_ofDeclarator {declarator : Node} {step : Effect}
    (hkind : declarator.kind = .variableDeclarator) (h : ofDeclarator declarator = .ok step)
    {assignment : Assignment} (hwrite : step.write = some assignment) :
    assignment.kind = .declaration := by
  obtain ⟨-, -, hmakes⟩ := ofDeclarator_eq_ok hkind h
  rw [hmakes] at hwrite
  obtain ⟨value, -, hwrite⟩ := Option.bind_eq_some_iff.mp hwrite
  obtain ⟨name, -, rfl⟩ := Option.map_eq_some_iff.mp hwrite
  rfl

/-- The effects of a statement that is no declaration are made by parts of it. -/
theorem effects_madeBy {statement : Node} (hdeclaration : isDeclaration statement = false)
    {found : List Effect} (h : effects statement = .ok found) :
    ∀ step ∈ found, ∃ part ∈ statement.nodes,
      Effect.MadeBy part step ∧ Passes program statement part := by
  intro step hstep
  rw [isDeclaration, Bool.or_eq_false_iff, decide_eq_false_iff_not, decide_eq_false_iff_not]
    at hdeclaration
  rw [effects] at h
  split at h
  · rename_i hkind
    exact absurd hkind hdeclaration.1
  · rename_i hkind
    exact absurd hkind hdeclaration.2
  · rename_i hkind
    split at h
    · cases h
      cases hstep
    · rename_i expression hexpression
      have hmem := List.mem_of_find?_eq_some hexpression
      have hnamed := isNamed_of_isContent (List.find?_some hexpression)
      obtain ⟨part, hpart, hmade, hpasses⟩ :=
        expressionEffects_madeBy program expression found h step hstep
      refine ⟨part, Node.nodes_subset hmem hpart, hmade,
        Passes.trans (passes_child ?_ hmem hnamed) hpasses⟩
      rw [hkind]
      rfl
  · cases h
    cases hstep
  · exact expressionEffects_madeBy program statement found h step hstep

/-! ## What is written -/

variable {program}

/-- The target of an effect's write is looked up where the effect is made. -/
theorem Effect.MadeBy.meets_target {part : Node} {step : Effect} (h : Effect.MadeBy part step)
    (hroles : ∀ child ∈ part.children, child.RoleNamed) (hnone : declares part = false)
    {assignment : Assignment} (hwrite : step.write = some assignment) :
    assignment.kind ≠ .declaration ∧
      Meets program (Names.steps part) [.resolve assignment.target] := by
  -- the target is a variable inside the child in some role
  have htarget : ∀ (field : Field) (kind : WriteKind), goesOn part.kind = true →
      Assignment.target? part =
        (part.field? field).map (fun child => (kind, child.unparenthesized)) →
      Assignment.ofNode? part = some assignment → kind ≠ .declaration →
      assignment.kind ≠ .declaration ∧
        Meets program (Names.steps part) [.resolve assignment.target] := by
    intro field kind hgoes hfield hmakes hkind
    rw [Assignment.ofNode?, hfield] at hmakes
    cases hchild : part.field? field with
    | none =>
        rw [hchild] at hmakes
        cases hmakes
    | some child =>
        rw [hchild] at hmakes
        simp only [Option.map_some] at hmakes
        split at hmakes
        · rename_i hvariable
          cases hmakes
          obtain ⟨hmem, hnamed⟩ := Node.named_of_field? hroles hchild
          have hpasses : Passes program part child.unparenthesized :=
            (passes_child hgoes hmem hnamed).trans (passes_unparenthesized child)
          exact ⟨hkind, steps_of_identifier hvariable ▸ (hpasses hnone).1⟩
        · cases hmakes
  cases h with
  | reads hmade =>
      obtain ⟨sites, -, h⟩ := exists_of_bind_eq_ok hmade
      cases h
      cases hwrite
  | assignment hkind hmade =>
      obtain ⟨right, -, h⟩ := exists_of_bind_eq_ok hmade
      obtain ⟨left, -, h⟩ := exists_of_bind_eq_ok h
      cases h
      refine htarget .left .simple (by rw [hkind]; rfl) ?_ hwrite (by decide)
      rw [Assignment.target?, hkind]
  | compound hkind hmade =>
      obtain ⟨right, -, h⟩ := exists_of_bind_eq_ok hmade
      obtain ⟨left, -, h⟩ := exists_of_bind_eq_ok h
      cases h
      refine htarget .left .compound (by rw [hkind]; rfl) ?_ hwrite (by decide)
      rw [Assignment.target?, hkind]
  | update hkind hmade =>
      obtain ⟨sites, -, h⟩ := exists_of_bind_eq_ok hmade
      cases h
      refine htarget .argument .update (by rw [hkind]; rfl) ?_ hwrite
        (by decide)
      rw [Assignment.target?, hkind]

end Place

/-! ## What is read -/

theorem isVariable_of_reads {node : Node} {sites : List Site} (h : reads node = .ok sites) :
    ∀ site ∈ sites, site.isVariable = true := by
  intro site hsite
  exact (List.mem_filter.mp ((reads_sublist node sites h).subset hsite)).2

theorem Names.mem_stepsNamed {step : Step} {child : Node} {nodes : List Node}
    (hchild : child ∈ nodes) (hnamed : child.isNamed = true) (h : step ∈ Names.steps child) :
    step ∈ stepsNamed nodes := by
  induction nodes with
  | nil => cases hchild
  | cons first rest ih =>
      rw [stepsNamed]
      rcases List.mem_cons.mp hchild with rfl | hchild
      · rw [if_pos hnamed]
        exact List.mem_append_left _ h
      · split
        · exact List.mem_append_right _ (ih hchild)
        · exact ih hchild

mutual

/-- What an expression reads is looked up in it, if no declaration is inside. -/
theorem mem_steps_of_reads : ∀ (node : Node) (sites : List Site), reads node = .ok sites →
    (∀ other ∈ node.nodes, isDeclaration other = false) →
    (∀ other ∈ node.nodes, other.RoleNamed) →
    ∀ site ∈ sites, .resolve site ∈ Names.steps node
  | .mk root children, sites, h, hplain, hroles, site, hsite => by
      have hself := hplain _ (Node.mem_nodes_self _)
      have hbelow : ∀ other ∈ Node.nodesAll children, isDeclaration other = false :=
        fun other hother => hplain other (List.mem_cons_of_mem _ hother)
      have hroles' : ∀ other ∈ Node.nodesAll children, other.RoleNamed :=
        fun other hother => hroles other (List.mem_cons_of_mem _ hother)
      rw [isDeclaration, Node.kind, Node.site_mk] at hself
      rw [reads] at h
      rw [Names.steps]
      generalize root.kind = kind at h hself
      split at h
      · cases h
        cases List.mem_singleton.mp hsite
        exact List.mem_singleton.mpr rfl
      · cases h
        cases List.mem_singleton.mp hsite
        exact List.mem_singleton.mpr rfl
      -- what is refused
      · cases h
      · cases h
      · cases h
      · cases h
      · cases h
      · cases h
      · cases h
      · cases h
      -- of a member only the object is read
      · exact mem_steps_of_readsField .object children sites h hbelow hroles' site hsite
      · have hmem := mem_steps_of_readsNamed children sites h hbelow hroles' site hsite
        split
        · contradiction
        · contradiction
        · cases hself
        · cases hself
        · exact List.mem_cons_of_mem _ (List.mem_append_left _ hmem)
        · exact List.mem_cons_of_mem _ (List.mem_append_left _ hmem)
        · exact hmem

theorem mem_steps_of_readsField (field : Field) : ∀ (nodes : List Node) (sites : List Site),
    readsField field nodes = .ok sites →
    (∀ other ∈ Node.nodesAll nodes, isDeclaration other = false) →
    (∀ other ∈ Node.nodesAll nodes, other.RoleNamed) →
    ∀ site ∈ sites, .resolve site ∈ stepsNamed nodes
  | [], sites, h, _, _, site, hsite => by
      cases h
      cases hsite
  | child :: rest, sites, h, hplain, hroles, site, hsite => by
      rw [Node.nodesAll] at hplain hroles
      rw [readsField] at h
      split at h
      · rename_i hcarries
        have hnamed : child.isNamed = true :=
          hroles child (List.mem_append_left _ child.mem_nodes_self)
            (List.ne_nil_of_mem (List.contains_iff_mem.mp hcarries))
        refine Names.mem_stepsNamed List.mem_cons_self hnamed (mem_steps_of_reads child sites h
          (fun other hother => hplain other (List.mem_append_left _ hother))
          (fun other hother => hroles other (List.mem_append_left _ hother)) site hsite)
      · have hrest := mem_steps_of_readsField field rest sites h
          (fun other hother => hplain other (List.mem_append_right _ hother))
          (fun other hother => hroles other (List.mem_append_right _ hother)) site hsite
        rw [stepsNamed]
        split
        · exact List.mem_append_right _ hrest
        · exact hrest

theorem mem_steps_of_readsNamed : ∀ (nodes : List Node) (sites : List Site),
    readsNamed nodes = .ok sites →
    (∀ other ∈ Node.nodesAll nodes, isDeclaration other = false) →
    (∀ other ∈ Node.nodesAll nodes, other.RoleNamed) →
    ∀ site ∈ sites, .resolve site ∈ stepsNamed nodes
  | [], sites, h, _, _, site, hsite => by
      cases h
      cases hsite
  | child :: rest, sites, h, hplain, hroles, site, hsite => by
      rw [Node.nodesAll] at hplain hroles
      have hplain' : ∀ other ∈ Node.nodesAll rest, isDeclaration other = false :=
        fun other hother => hplain other (List.mem_append_right _ hother)
      have hroles' : ∀ other ∈ Node.nodesAll rest, other.RoleNamed :=
        fun other hother => hroles other (List.mem_append_right _ hother)
      rw [readsNamed] at h
      rw [stepsNamed]
      split at h
      · rename_i hnamed
        rw [if_pos hnamed]
        split at h
        · cases h
        · rename_i first hfirst
          split at h
          · cases h
          · rename_i others hothers
            cases h
            rcases List.mem_append.mp hsite with hsite | hsite
            · refine List.mem_append_left _ (mem_steps_of_reads child first hfirst
                (fun other hother => hplain other (List.mem_append_left _ hother))
                (fun other hother => hroles other (List.mem_append_left _ hother)) site hsite)
            · exact List.mem_append_right _
                (mem_steps_of_readsNamed rest others hothers hplain' hroles' site hsite)
      · rename_i hnamed
        rw [if_neg hnamed]
        exact mem_steps_of_readsNamed rest sites h hplain' hroles' site hsite

end

namespace Effect

/-- What is read on the left of an assignment is read inside of its parentheses. -/
theorem exists_of_readsOfTarget {node : Node} {sites : List Site}
    (h : readsOfTarget node = .ok sites) {site : Site} (hsite : site ∈ sites) :
    ∃ left, node.field? .left = some left ∧ DefUse.reads left.unparenthesized = .ok sites := by
  rw [readsOfTarget] at h
  cases hleft : node.field? .left with
  | none =>
      rw [hleft] at h
      cases h
      cases hsite
  | some left =>
      rw [hleft] at h
      simp only [Option.map_some] at h
      split at h
      · cases h
        cases hsite
      · split at h
        · cases h
        · exact ⟨left, rfl, h⟩

theorem exists_of_readsOf? {part : Option Node} {sites : List Site} (h : readsOf? part = .ok sites)
    {site : Site} (hsite : site ∈ sites) :
    ∃ node, part = some node ∧ DefUse.reads node = .ok sites := by
  cases part with
  | none =>
      cases h
      cases hsite
  | some node => exact ⟨node, rfl, h⟩

/-- What an effect reads is read by an expression that the walk passes through. -/
theorem MadeBy.exists_reads (program : Program) {part : Node} {step : Effect}
    (h : MadeBy part step) {site : Site} (hsite : site ∈ step.reads) : ∃ inner ∈ part.nodes,
      (∃ sites, DefUse.reads inner = .ok sites ∧ site ∈ sites) ∧
      ((∀ child ∈ part.children, child.RoleNamed) → Passes program part inner) := by
  -- a child in some role, possibly inside of parentheses
  have hfield : ∀ {field : Field} {child : Node}, goesOn part.kind = true →
      part.field? field = some child → child.unparenthesized ∈ part.nodes ∧ child ∈ part.nodes ∧
        ((∀ child ∈ part.children, child.RoleNamed) →
          Passes program part child ∧ Passes program part child.unparenthesized) := by
    intro field child hgoes hchild
    have hmem := (Node.sublist_of_mem (List.mem_of_find?_eq_some hchild)).trans
      part.nodesAll_sublist
    refine ⟨hmem.subset (child.unparenthesized_sublist.subset (Node.mem_nodes_self _)),
      hmem.subset child.mem_nodes_self, ?_⟩
    intro hroles
    obtain ⟨hmem, hnamed⟩ := Node.named_of_field? hroles hchild
    have hpasses : Passes program part child := passes_child hgoes hmem hnamed
    exact ⟨hpasses, hpasses.trans (passes_unparenthesized child)⟩
  cases h with
  | reads hmade =>
      obtain ⟨sites, hsites, h⟩ := exists_of_bind_eq_ok hmade
      cases h
      exact ⟨part, part.mem_nodes_self, ⟨sites, hsites, hsite⟩, fun _ => Passes.refl _⟩
  | assignment hkind hmade =>
      have hgoes : goesOn part.kind = true := by
        rw [hkind]
        rfl
      obtain ⟨right, hright, h⟩ := exists_of_bind_eq_ok hmade
      obtain ⟨left, hleft, h⟩ := exists_of_bind_eq_ok h
      cases h
      rcases List.mem_append.mp hsite with hsite | hsite
      · obtain ⟨child, hchild, hreads⟩ := exists_of_readsOf? hright hsite
        obtain ⟨-, hmem, hpasses⟩ := hfield hgoes hchild
        exact ⟨child, hmem, ⟨right, hreads, hsite⟩, fun hroles => (hpasses hroles).1⟩
      · obtain ⟨child, hchild, hreads⟩ := exists_of_readsOfTarget hleft hsite
        obtain ⟨hmem, -, hpasses⟩ := hfield hgoes hchild
        exact ⟨child.unparenthesized, hmem, ⟨left, hreads, hsite⟩, fun hroles => (hpasses hroles).2⟩
  | compound hkind hmade =>
      have hgoes : goesOn part.kind = true := by
        rw [hkind]
        rfl
      obtain ⟨right, hright, h⟩ := exists_of_bind_eq_ok hmade
      obtain ⟨left, hleft, h⟩ := exists_of_bind_eq_ok h
      cases h
      rcases List.mem_append.mp hsite with hsite | hsite
      · obtain ⟨child, hchild, hreads⟩ := exists_of_readsOf? hright hsite
        obtain ⟨-, hmem, hpasses⟩ := hfield hgoes hchild
        exact ⟨child, hmem, ⟨right, hreads, hsite⟩, fun hroles => (hpasses hroles).1⟩
      · obtain ⟨child, hchild, hreads⟩ := exists_of_readsOf? hleft hsite
        obtain ⟨-, hmem, hpasses⟩ := hfield hgoes hchild
        exact ⟨child, hmem, ⟨left, hreads, hsite⟩, fun hroles => (hpasses hroles).1⟩
  | update hkind hmade =>
      obtain ⟨sites, hsites, h⟩ := exists_of_bind_eq_ok hmade
      cases h
      obtain ⟨child, hchild, hreads⟩ := exists_of_readsOf? hsites hsite
      obtain ⟨-, hmem, hpasses⟩ := hfield (by rw [hkind]; rfl) hchild
      exact ⟨child, hmem, ⟨sites, hreads, hsite⟩, fun hroles => (hpasses hroles).1⟩

variable {program : Program}

/-- What an expression that declares nothing reads is looked up with the same variables in view. -/
theorem meets_of_reads {node : Node} {sites : List Site} (h : DefUse.reads node = .ok sites)
    (hplain : ∀ other ∈ node.nodes, isDeclaration other = false)
    (hroles : ∀ other ∈ node.nodes, other.RoleNamed) {site : Site}
    (hsite : site ∈ sites) : Meets program (Names.steps node) [.resolve site] :=
  (steady_steps node hplain).meets (mem_steps_of_reads node sites h hplain hroles site hsite)

/-- What an effect reads is looked up where the effect is made. -/
theorem MadeBy.meets_read {part : Node} {step : Effect} (h : MadeBy part step)
    (hplain : ∀ other ∈ part.nodes, isDeclaration other = false)
    (hroles : ∀ other ∈ part.nodes, other.RoleNamed) {site : Site}
    (hsite : site ∈ step.reads) : Meets program (Names.steps part) [.resolve site] := by
  obtain ⟨inner, hinner, ⟨sites, hreads, hsite⟩, hpasses⟩ := h.exists_reads program hsite
  have hchildren : ∀ child ∈ part.children, child.RoleNamed :=
    fun child hchild => hroles child (Node.mem_nodes hchild)
  have hbelow := (Node.sublist_of_mem_nodes hinner).subset
  obtain ⟨hmeets, -⟩ := hpasses hchildren (declares_eq_false part hplain)
  refine hmeets.trans (meets_of_reads hreads ?_ ?_ hsite)
  · exact fun other hother => hplain other (hbelow hother)
  · exact fun other hother => hroles other (hbelow hother)

end Effect

/-- The effects of a statement read variables. -/
theorem isVariable_of_effects (program : Program) {statement : Node} {found : List Effect}
    (h : effects statement = .ok found) {step : Effect} (hstep : step ∈ found) {site : Site}
    (hsite : site ∈ step.reads) : site.isVariable = true := by
  cases hdeclaration : isDeclaration statement with
  | true =>
      rw [effects_of_isDeclaration hdeclaration] at h
      obtain ⟨declarator, -, hmade⟩ := exists_of_mem_mapM h hstep
      rw [Effect.ofDeclarator] at hmade
      split at hmade
      · cases hmade
      · obtain ⟨sites, hsites, hmade⟩ := exists_of_bind_eq_ok hmade
        cases hmade
        obtain ⟨value, -, hreads⟩ := Effect.exists_of_readsOf? hsites hsite
        exact isVariable_of_reads hreads site hsite
  | false =>
      obtain ⟨part, -, hmade, -⟩ := effects_madeBy program hdeclaration h step hstep
      obtain ⟨inner, -, ⟨sites, hreads, hsite⟩, -⟩ := hmade.exists_reads program hsite
      exact isVariable_of_reads hreads site hsite

end DefUse
