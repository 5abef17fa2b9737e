/-
# `Proofs.Names.Mention` — names follow lexical scoping

The renaming walk opens and closes frames, and gives a name as soon as it meets a
variable.  What the names come to can be said without frames.  Every *mention* of a
variable is listed with the scopes around it, which are handed down the tree: one for the
entry, and one for every block and every `for` above the mention (`Survey.visit`).  Then

* a declaration is the `k`-th of its spelling, and has the number `k` in its name;
* any other mention has the name of the latest declaration of its spelling before it in
  the innermost scope around it that has one (`Mention.name?`).

The walk gives exactly these names (`Program.names_lexical`), because its frames mirror
the scopes around the node it is at (`Survey.Mirrors`): the binding of a spelling in a
frame is its latest declaration in the scope.  A scope is known by its number among all
scopes, so that a frame that is opened has no declarations yet.

A node of two roles would be met twice, and keeps the last name it is given.  In trees
without such nodes every node is met once.
-/
import DefUse.Proofs.Names.Binding

namespace DefUse

open DefUse.Tree
open DefUse.Names

/-! ## Mentions -/

/-- A place where the walk meets a variable. -/
structure Mention where
  site : Site
  /-- Is the variable declared here? -/
  declares : Bool
  /-- The numbers of the scopes around it, from the inside out. -/
  scopes : List Nat
deriving DecidableEq, Inhabited

namespace Mention

variable (program : Program)

/-- Does the mention declare a variable of this spelling? -/
def declaresAs (spelling : String) (mention : Mention) : Bool :=
  mention.declares && program.text mention.site = spelling

/-- How many of some mentions declare a spelling. -/
def count (spelling : String) (mentions : List Mention) : Nat :=
  mentions.countP (declaresAs program spelling)

/-- The name of the `k`-th variable of a spelling. -/
def numbered (spelling : String) (k : Nat) : String :=
  if k = 1 then spelling else spelling ++ toString k

/-- The name of the latest declaration of a spelling in a scope.  The latest mention comes
first. -/
def nameIn? (spelling : String) (scope : Nat) : List Mention → Option String
  | [] => none
  | mention :: earlier =>
    if mention.declaresAs program spelling ∧ mention.scopes.head? = some scope then
      some (numbered spelling (count program spelling earlier + 1))
    else nameIn? spelling scope earlier

/-- The name of a mention, by the mentions before it.  A declaration takes the next number; any
other mention looks for a declaration in the scopes around it, from the inside out. -/
def name? (earlier : List Mention) (mention : Mention) : Option String :=
  let spelling := program.text mention.site
  if mention.declares then some (numbered spelling (count program spelling earlier + 1))
  else mention.scopes.findSome? fun scope => nameIn? program spelling scope earlier

/-- The name of a site, by the latest mention of it that has one. -/
def given? (site : Site) : List Mention → Option String
  | [] => none
  | mention :: earlier =>
    if mention.site = site then (mention.name? program earlier).or (given? site earlier)
    else given? site earlier

end Mention

/-- The mentions found so far, the latest first, and how many scopes there are. -/
structure Survey where
  opened : Nat
  mentions : List Mention
deriving Inhabited

namespace Survey

/-- Adds a mention. -/
def meet (mention : Mention) (survey : Survey) : Survey :=
  { survey with mentions := mention :: survey.mentions }

/-- Adds a scope. -/
def opening (survey : Survey) : Survey :=
  { survey with opened := survey.opened + 1 }

mutual

/-- The mentions at a node with these scopes around it. -/
def visit (scopes : List Nat) : Node → Survey → Survey
  | .mk site children, survey =>
    match site.kind with
    | .identifier | .shorthandIdentifier => survey.meet ⟨site, false, scopes⟩
    | .lexicalDeclaration | .variableDeclaration => visitDeclarators scopes children survey
    | .statementBlock | .forStatement =>
      visitNamed (survey.opened :: scopes) children survey.opening
    | _ => visitNamed scopes children survey

/-- The mentions at the named ones among several nodes. -/
def visitNamed (scopes : List Nat) : List Node → Survey → Survey
  | [], survey => survey
  | child :: rest, survey =>
    if child.isNamed then visitNamed scopes rest (visit scopes child survey)
    else visitNamed scopes rest survey

/-- The mentions at the declarators of a declaration. -/
def visitDeclarators (scopes : List Nat) : List Node → Survey → Survey
  | [], survey => survey
  | child :: rest, survey =>
    if child.isNamed && child.kind = .variableDeclarator then
      visitDeclarators scopes rest (visitDeclarator scopes child survey)
    else visitDeclarators scopes rest survey

/-- The mentions at a declarator: those of its value come before its name. -/
def visitDeclarator (scopes : List Nat) : Node → Survey → Survey
  | .mk _ children, survey => visitDeclared scopes children (visitValue scopes children survey)

/-- The mentions at the value among the children of a declarator. -/
def visitValue (scopes : List Nat) : List Node → Survey → Survey
  | [], survey => survey
  | child :: rest, survey =>
    if child.carries .value then visit scopes child survey else visitValue scopes rest survey

/-- The mentions at the name among the children of a declarator: a declaration, or those of a
pattern. -/
def visitDeclared (scopes : List Nat) : List Node → Survey → Survey
  | [], survey => survey
  | child :: rest, survey =>
    if child.carries .name then
      if child.kind = .identifier then survey.meet ⟨child.site, true, scopes⟩
      else visit scopes child survey
    else visitDeclared scopes rest survey

end

end Survey

/-- All mentions of a program's variables, the latest first: the parameters of the function that
the program is, if it is one, and what is in the entry. -/
def Program.mentions (program : Program) : List Mention :=
  let parameters := program.parameters.foldl
    (fun survey node => survey.meet ⟨node.site, true, [0]⟩) (Survey.mk 1 [])
  (parameters.visitNamed [0] program.entry.body.children).mentions

namespace Mention

variable {program : Program}

theorem count_cons (spelling : String) (mention : Mention) (earlier : List Mention) :
    count program spelling (mention :: earlier) =
      count program spelling earlier + if mention.declaresAs program spelling then 1 else 0 :=
  List.countP_cons

/-- A declaration is the latest in its scope. -/
theorem nameIn?_declare (site : Site) (scope : Nat) (outer : List Nat) (earlier : List Mention) :
    nameIn? program (program.text site) scope (⟨site, true, scope :: outer⟩ :: earlier) =
      some (numbered (program.text site) (count program (program.text site) earlier + 1)) := by
  rw [nameIn?, if_pos]
  exact ⟨by simp [declaresAs], rfl⟩

/-- Other declarations, and declarations in other scopes, do not matter. -/
theorem nameIn?_cons_of_not {spelling : String} {scope : Nat} {mention : Mention}
    (h : mention.declaresAs program spelling = true → mention.scopes.head? ≠ some scope)
    (earlier : List Mention) :
    nameIn? program spelling scope (mention :: earlier) =
      nameIn? program spelling scope earlier := by
  rw [nameIn?, if_neg]
  exact fun hboth => h hboth.1 hboth.2

/-- A scope without mentions has no declarations. -/
theorem nameIn?_eq_none {spelling : String} {scope : Nat} {mentions : List Mention}
    (h : ∀ mention ∈ mentions, mention.scopes.head? ≠ some scope) :
    nameIn? program spelling scope mentions = none := by
  induction mentions with
  | nil => rfl
  | cons mention earlier ih =>
      rw [nameIn?_cons_of_not fun _ => h mention List.mem_cons_self]
      exact ih fun other hother => h other (List.mem_cons_of_mem _ hother)

/-- A site that is met has the name that it was given then, unless it is met again. -/
theorem given?_append {site : Site} {later mentions : List Mention}
    (h : ∀ mention ∈ later, mention.site ≠ site) :
    given? program site (later ++ mentions) = given? program site mentions := by
  induction later with
  | nil => rfl
  | cons mention later ih =>
      rw [List.cons_append, given?, if_neg (h mention List.mem_cons_self)]
      exact ih fun other hother => h other (List.mem_cons_of_mem _ hother)

theorem given?_eq_none {site : Site} {mentions : List Mention}
    (h : ∀ mention ∈ mentions, mention.site ≠ site) : given? program site mentions = none := by
  have happend : given? program site (mentions ++ []) = given? program site [] := given?_append h
  rwa [List.append_nil] at happend

end Mention

/-! ## The walk mirrors the scopes -/

namespace Survey

open Mention

/-- The walk is at a node with these scopes around it: its frames hold their declarations, and it
has counted and named what was mentioned. -/
structure Mirrors (program : Program) (scopes : List Nat) (survey : Survey)
    (resolver : Resolver) : Prop where
  frames : List.Forall₂ (fun scope frame => ∀ spelling, Frame.get? spelling frame =
    nameIn? program spelling scope survey.mentions) scopes resolver.scope.frames
  /-- Scopes have different numbers. -/
  distinct : scopes.Nodup
  opened : ∀ scope ∈ scopes, scope < survey.opened
  /-- All mentions are in scopes that were opened. -/
  known : ∀ mention ∈ survey.mentions, ∀ scope ∈ mention.scopes, scope < survey.opened
  counts : ∀ spelling, resolver.count spelling = count program spelling survey.mentions
  names : ∀ site, resolver.names.get? site = given? program site survey.mentions

variable {program : Program} {scopes : List Nat} {survey : Survey} {resolver : Resolver}

theorem mirrors_start : Mirrors program [0] ⟨1, []⟩ Resolver.start where
  frames := .cons (fun _ => rfl) .nil
  distinct := List.nodup_singleton 0
  opened := fun _ h => List.mem_singleton.mp h ▸ Nat.zero_lt_one
  known := fun _ h => nomatch h
  counts := fun _ => rfl
  names := fun _ => rfl

/-- Looking a spelling up is looking for a declaration in the scopes. -/
theorem Mirrors.lookup (h : Mirrors program scopes survey resolver) (spelling : String) :
    resolver.scope.lookup spelling =
      scopes.findSome? fun scope => nameIn? program spelling scope survey.mentions := by
  have hframes := h.frames
  rw [Scope.lookup]
  clear h
  generalize resolver.scope.frames = frames at hframes
  induction hframes with
  | nil => rfl
  | cons hframe _ ih => rw [List.findSome?_cons, List.findSome?_cons, hframe, ih]

/-- Naming what is mentioned. -/
theorem Mirrors.insert (h : Mirrors program scopes survey resolver) {mention : Mention}
    {name : String} (hname : mention.name? program survey.mentions = some name) (site : Site) :
    (resolver.names.insert mention.site name).get? site =
      given? program site (survey.meet mention).mentions := by
  show _ = given? program site (mention :: survey.mentions)
  rw [given?, hname]
  split
  · rename_i heq
    subst heq
    exact Names.get?_insert_self _ _ _
  · rename_i hne
    rw [Names.get?_insert_of_ne (Ne.symm hne)]
    exact h.names site

theorem Mirrors.known_meet (h : Mirrors program scopes survey resolver) (site : Site)
    (declares : Bool) : ∀ mention ∈ (survey.meet ⟨site, declares, scopes⟩).mentions,
      ∀ scope ∈ mention.scopes, scope < survey.opened := by
  intro mention hmention
  rcases List.mem_cons.mp hmention with rfl | hmention
  · exact h.opened
  · exact h.known mention hmention

/-- A mention that declares nothing is looked up. -/
theorem Mirrors.resolve (h : Mirrors program scopes survey resolver) (site : Site) :
    Mirrors program scopes (survey.meet ⟨site, false, scopes⟩) (resolver.resolve program site) := by
  have hname : name? program survey.mentions ⟨site, false, scopes⟩ =
      resolver.scope.lookup (program.text site) := (h.lookup _).symm
  rw [Resolver.resolve]
  cases hlookup : resolver.scope.lookup (program.text site) with
  | none =>
      refine ⟨h.frames, h.distinct, h.opened, h.known_meet site false, h.counts, ?_⟩
      intro other
      show _ = given? program other (⟨site, false, scopes⟩ :: survey.mentions)
      rw [given?, hname, hlookup, Option.none_or, ite_self]
      exact h.names other
  | some name =>
      exact ⟨h.frames, h.distinct, h.opened, h.known_meet site false, h.counts,
        h.insert (hname.trans hlookup)⟩

/-- In the frames, a declaration takes the place of others in the innermost scope only. -/
theorem Mirrors.frames_declare (h : Mirrors program scopes survey resolver) (site : Site) :
    List.Forall₂ (fun scope frame => ∀ spelling, Frame.get? spelling frame =
        nameIn? program spelling scope (survey.meet ⟨site, true, scopes⟩).mentions)
      scopes (resolver.declare program site).scope.frames := by
  have hframes := h.frames
  have hdistinct := h.distinct
  rw [Scope.frames] at hframes
  cases hframes with
  | @cons scope _ outer _ hinner houter =>
      have hname : Resolver.nameOf (program.text site) (resolver.count (program.text site) + 1) =
          numbered (program.text site) (count program (program.text site) survey.mentions + 1) := by
        rw [h.counts]
        rfl
      refine .cons ?_ ?_
      · intro spelling
        show Frame.get? spelling (Frame.bind (program.text site) _ resolver.scope.inner) =
          nameIn? program spelling scope (⟨site, true, scope :: outer⟩ :: survey.mentions)
        by_cases heq : spelling = program.text site
        · rw [heq, Frame.get?_bind_self, hname, nameIn?_declare]
        · rw [Frame.get?_bind_of_ne heq, hinner, nameIn?_cons_of_not]
          intro hdeclares
          have hspelling : program.text site = spelling := by simpa [declaresAs] using hdeclares
          exact absurd hspelling.symm heq
      · have hothers : ∀ other ∈ outer, scope ≠ other :=
          fun other hother heq => (List.nodup_cons.mp hdistinct).1 (heq ▸ hother)
        refine ((List.forall₂_and_left _ _).mpr ⟨hothers, houter⟩).imp ?_
        rintro other frame ⟨hne, hframe⟩ spelling
        show _ = nameIn? program spelling other (⟨site, true, scope :: outer⟩ :: survey.mentions)
        rw [hframe, nameIn?_cons_of_not]
        exact fun _ heq => hne (Option.some.inj heq)

/-- A declaration is the next of its spelling, and the latest in the innermost scope. -/
theorem Mirrors.declare (h : Mirrors program scopes survey resolver) (site : Site) :
    Mirrors program scopes (survey.meet ⟨site, true, scopes⟩) (resolver.declare program site) := by
  refine ⟨h.frames_declare site, h.distinct, h.opened, h.known_meet site true, ?_, ?_⟩
  · intro spelling
    show (List.lookup spelling ((program.text site, _) :: resolver.counts)).getD 0 =
      count program spelling (⟨site, true, scopes⟩ :: survey.mentions)
    rw [count_cons, List.lookup_cons, ← h.counts]
    by_cases heq : spelling = program.text site
    · subst heq
      simp [declaresAs]
    · have hne : (spelling == program.text site) = false := by simpa using heq
      have hother : program.text site ≠ spelling := fun h => heq h.symm
      simp [declaresAs, hne, hother, Resolver.count]
  · have hname : name? program survey.mentions ⟨site, true, scopes⟩ = some (Resolver.nameOf
        (program.text site) (resolver.count (program.text site) + 1)) := by
      rw [h.counts]
      rfl
    exact h.insert hname

/-- A new scope has a frame without declarations. -/
theorem Mirrors.push (h : Mirrors program scopes survey resolver) :
    Mirrors program (survey.opened :: scopes) survey.opening resolver.push where
  frames := by
    refine .cons ?_ h.frames
    intro spelling
    refine (nameIn?_eq_none ?_).symm
    intro mention hmention heq
    exact Nat.lt_irrefl _ (h.known mention hmention _ (List.mem_of_mem_head? heq))
  distinct := List.nodup_cons.mpr ⟨fun hmem => Nat.lt_irrefl _ (h.opened _ hmem), h.distinct⟩
  opened := by
    intro scope hscope
    rcases List.mem_cons.mp hscope with rfl | hscope
    · exact Nat.lt_succ_self _
    · exact Nat.lt_succ_of_lt (h.opened scope hscope)
  known := fun mention hmention scope hscope =>
    Nat.lt_succ_of_lt (h.known mention hmention scope hscope)
  counts := h.counts
  names := h.names

/-- Behind a scope there are the frames of the scopes around it. -/
theorem Mirrors.pop {scope : Nat} (h : Mirrors program (scope :: scopes) survey resolver)
    (hscopes : scopes ≠ []) : Mirrors program scopes survey resolver.pop where
  frames := by
    obtain ⟨⟨inner, outer⟩, counts, names⟩ := resolver
    obtain ⟨-, houter⟩ := List.forall₂_cons.mp h.frames
    cases houter with
    | nil => exact absurd rfl hscopes
    | cons hframe hrest => exact .cons hframe hrest
  distinct := (List.nodup_cons.mp h.distinct).2
  opened := fun other hother => h.opened other (List.mem_cons_of_mem _ hother)
  known := h.known
  counts := h.counts
  names := h.names

theorem Mirrors.ne_nil (h : Mirrors program scopes survey resolver) : scopes ≠ [] := by
  rintro rfl
  cases h.frames

mutual

/-- The walk through a node goes on to mirror the scopes around it. -/
theorem mirrors_visit : ∀ (node : Node) {scopes : List Nat} {survey : Survey}
    {resolver : Resolver}, Mirrors program scopes survey resolver →
    Mirrors program scopes (visit scopes node survey) (resolver.visit program node)
  | .mk site children, scopes, survey, resolver, h => by
      rw [visit, Resolver.visit]
      generalize site.kind = kind
      split
      · exact h.resolve site
      · exact h.resolve site
      · exact mirrors_visitDeclarators children h
      · exact mirrors_visitDeclarators children h
      · exact (mirrors_visitNamed children h.push).pop h.ne_nil
      · exact (mirrors_visitNamed children h.push).pop h.ne_nil
      · simpa only using mirrors_visitNamed children h

theorem mirrors_visitNamed : ∀ (nodes : List Node) {scopes : List Nat} {survey : Survey}
    {resolver : Resolver}, Mirrors program scopes survey resolver →
    Mirrors program scopes (visitNamed scopes nodes survey) (resolver.visitNamed program nodes)
  | [], _, _, _, h => by
      rw [visitNamed, Resolver.visitNamed]
      exact h
  | child :: rest, _, _, _, h => by
      rw [visitNamed, Resolver.visitNamed]
      split
      · exact mirrors_visitNamed rest (mirrors_visit child h)
      · exact mirrors_visitNamed rest h

theorem mirrors_visitDeclarators : ∀ (nodes : List Node) {scopes : List Nat} {survey : Survey}
    {resolver : Resolver}, Mirrors program scopes survey resolver →
    Mirrors program scopes (visitDeclarators scopes nodes survey)
      (resolver.visitDeclarators program nodes)
  | [], _, _, _, h => by
      rw [visitDeclarators, Resolver.visitDeclarators]
      exact h
  | child :: rest, _, _, _, h => by
      rw [visitDeclarators, Resolver.visitDeclarators]
      split
      · exact mirrors_visitDeclarators rest (mirrors_visitDeclarator child h)
      · exact mirrors_visitDeclarators rest h

theorem mirrors_visitDeclarator : ∀ (node : Node) {scopes : List Nat} {survey : Survey}
    {resolver : Resolver}, Mirrors program scopes survey resolver →
    Mirrors program scopes (visitDeclarator scopes node survey)
      (resolver.visitDeclarator program node)
  | .mk _ children, _, _, _, h => by
      rw [visitDeclarator, Resolver.visitDeclarator]
      exact mirrors_visitDeclared children (mirrors_visitValue children h)

theorem mirrors_visitValue : ∀ (nodes : List Node) {scopes : List Nat} {survey : Survey}
    {resolver : Resolver}, Mirrors program scopes survey resolver →
    Mirrors program scopes (visitValue scopes nodes survey) (resolver.visitValue program nodes)
  | [], _, _, _, h => by
      rw [visitValue, Resolver.visitValue]
      exact h
  | child :: rest, _, _, _, h => by
      rw [visitValue, Resolver.visitValue]
      split
      · exact mirrors_visit child h
      · exact mirrors_visitValue rest h

theorem mirrors_visitDeclared : ∀ (nodes : List Node) {scopes : List Nat} {survey : Survey}
    {resolver : Resolver}, Mirrors program scopes survey resolver →
    Mirrors program scopes (visitDeclared scopes nodes survey)
      (resolver.visitDeclared program nodes)
  | [], _, _, _, h => by
      rw [visitDeclared, Resolver.visitDeclared]
      exact h
  | child :: rest, _, _, _, h => by
      rw [visitDeclared, Resolver.visitDeclared]
      split
      · split
        · exact h.declare child.site
        · exact mirrors_visit child h
      · exact mirrors_visitDeclared rest h

end

/-! ## The sites that are met -/

mutual

/-- The sites that are mentioned are those that the walk meets. -/
theorem sites_visit : ∀ (scopes : List Nat) (node : Node) (survey : Survey),
    (visit scopes node survey).mentions.map Mention.site =
      (touched (steps node)).reverse ++ survey.mentions.map Mention.site
  | scopes, .mk site children, survey => by
      rw [visit, steps]
      generalize site.kind = kind
      split
      · rfl
      · rfl
      · exact sites_visitDeclarators scopes children survey
      · exact sites_visitDeclarators scopes children survey
      · rw [touched_scoped]
        exact sites_visitNamed _ children _
      · rw [touched_scoped]
        exact sites_visitNamed _ children _
      · simpa only using sites_visitNamed scopes children survey

theorem sites_visitNamed : ∀ (scopes : List Nat) (nodes : List Node) (survey : Survey),
    (visitNamed scopes nodes survey).mentions.map Mention.site =
      (touched (stepsNamed nodes)).reverse ++ survey.mentions.map Mention.site
  | _, [], _ => by
      rw [visitNamed, stepsNamed]
      rfl
  | scopes, child :: rest, survey => by
      rw [visitNamed, stepsNamed]
      split
      · rw [sites_visitNamed scopes rest, sites_visit scopes child, touched_append,
          List.reverse_append, List.append_assoc]
      · exact sites_visitNamed scopes rest survey

theorem sites_visitDeclarators : ∀ (scopes : List Nat) (nodes : List Node) (survey : Survey),
    (visitDeclarators scopes nodes survey).mentions.map Mention.site =
      (touched (stepsDeclarators nodes)).reverse ++ survey.mentions.map Mention.site
  | _, [], _ => by
      rw [visitDeclarators, stepsDeclarators]
      rfl
  | scopes, child :: rest, survey => by
      rw [visitDeclarators, stepsDeclarators]
      split
      · rw [sites_visitDeclarators scopes rest, sites_visitDeclarator scopes child, touched_append,
          List.reverse_append, List.append_assoc]
      · exact sites_visitDeclarators scopes rest survey

theorem sites_visitDeclarator : ∀ (scopes : List Nat) (node : Node) (survey : Survey),
    (visitDeclarator scopes node survey).mentions.map Mention.site =
      (touched (stepsDeclarator node)).reverse ++ survey.mentions.map Mention.site
  | scopes, .mk _ children, survey => by
      rw [visitDeclarator, stepsDeclarator, sites_visitDeclared scopes children,
        sites_visitValue scopes children, touched_append, List.reverse_append, List.append_assoc]

theorem sites_visitValue : ∀ (scopes : List Nat) (nodes : List Node) (survey : Survey),
    (visitValue scopes nodes survey).mentions.map Mention.site =
      (touched (stepsValue nodes)).reverse ++ survey.mentions.map Mention.site
  | _, [], _ => by
      rw [visitValue, stepsValue]
      rfl
  | scopes, child :: rest, survey => by
      rw [visitValue, stepsValue]
      split
      · exact sites_visit scopes child survey
      · exact sites_visitValue scopes rest survey

theorem sites_visitDeclared : ∀ (scopes : List Nat) (nodes : List Node) (survey : Survey),
    (visitDeclared scopes nodes survey).mentions.map Mention.site =
      (touched (stepsDeclared nodes)).reverse ++ survey.mentions.map Mention.site
  | _, [], _ => by
      rw [visitDeclared, stepsDeclared]
      rfl
  | scopes, child :: rest, survey => by
      rw [visitDeclared, stepsDeclared]
      split
      · split
        · rfl
        · exact sites_visit scopes child survey
      · exact sites_visitDeclared scopes rest survey

end

end Survey

/-! ## Programs -/

namespace Program

open Survey

variable {program : Program}

theorem names_eq_visitNamed (program : Program) : program.names =
    ((program.parameters.foldl (fun resolver node => resolver.declare program node.site)
      Resolver.start).visitNamed program program.entry.body.children).names := by
  rw [parameters_eq]
  simp only [names]
  cases program.entry.function.bind (Node.field? .parameters) <;> rfl

/-- The walk gives each site the name that its mentions give it. -/
theorem get?_names_eq_given? (program : Program) (site : Site) :
    program.names.get? site = Mention.given? program site program.mentions := by
  -- the parameters are declared in the scope of the entry
  have hparameters : ∀ (nodes : List Node) {survey : Survey} {resolver : Resolver},
      Mirrors program [0] survey resolver → Mirrors program [0]
        (nodes.foldl (fun survey node => survey.meet ⟨node.site, true, [0]⟩) survey)
        (nodes.foldl (fun resolver node => resolver.declare program node.site) resolver) := by
    intro nodes
    induction nodes with
    | nil => exact fun h => h
    | cons node rest ih => exact fun h => ih (h.declare node.site)
  rw [names_eq_visitNamed]
  exact (mirrors_visitNamed program.entry.body.children
    (hparameters program.parameters mirrors_start)).names site

theorem sites_mentions (program : Program) :
    program.mentions.map Mention.site = (touched program.steps).reverse := by
  have hparameters : ∀ (nodes : List Node) (survey : Survey),
      (nodes.foldl (fun survey node => survey.meet ⟨node.site, true, [0]⟩) survey).mentions.map
        Mention.site = (nodes.map Node.site).reverse ++ survey.mentions.map Mention.site := by
    intro nodes
    induction nodes with
    | nil => exact fun _ => rfl
    | cons node rest ih =>
        intro survey
        rw [List.foldl_cons, ih, List.map_cons, List.reverse_cons, List.append_assoc]
        rfl
  rw [mentions, sites_visitNamed, hparameters, touched_eq, List.reverse_append]
  exact congrArg _ (List.append_nil _)

/-- In a tree without nodes of two roles no node is mentioned twice. -/
theorem nodup_mentions (hroles : program.SingleRoles) :
    (program.mentions.map Mention.site).Nodup := by
  rw [sites_mentions]
  exact List.nodup_reverse.mpr (nodup_touched hroles)

/-- The names of a program are those of its mentions by the rules of lexical scoping.  A node that
is mentioned once has the name of that mention, or none if the mention has none; a node that is not
mentioned has no name; and nodes are mentioned once at most, if none of them has two roles. -/
theorem names_lexical (program : Program) :
    (∀ site, program.names.get? site = Mention.given? program site program.mentions) ∧
    (∀ later mention earlier, program.mentions = later ++ mention :: earlier →
      (∀ other ∈ later ++ earlier, other.site ≠ mention.site) →
      program.names.get? mention.site = mention.name? program earlier) ∧
    (∀ site, (∀ mention ∈ program.mentions, mention.site ≠ site) →
      program.names.get? site = none) ∧
    (program.SingleRoles → (program.mentions.map Mention.site).Nodup) := by
  refine ⟨get?_names_eq_given? program, ?_, ?_, nodup_mentions⟩
  · intro later mention earlier hmentions hothers
    have hlater : ∀ other ∈ later, other.site ≠ mention.site :=
      fun other hother => hothers other (List.mem_append_left _ hother)
    have hearlier : ∀ other ∈ earlier, other.site ≠ mention.site :=
      fun other hother => hothers other (List.mem_append_right _ hother)
    rw [get?_names_eq_given?, hmentions, Mention.given?_append hlater, Mention.given?, if_pos rfl,
      Mention.given?_eq_none hearlier, Option.or_none]
  · intro site hsite
    rw [get?_names_eq_given?, Mention.given?_eq_none hsite]

end Program

end DefUse
