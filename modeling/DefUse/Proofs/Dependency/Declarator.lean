/-
# `Proofs.Dependency.Declarator` — a declaration, and its declarators one by one

The lexical walk goes over a declaration twice.  First it binds all variables without a
value, wherever they stand, and then it takes the declarators with a value in order.  One
would expect the same as from a walk that takes the declarators one after the other, each
as a declaration of its own (`apart`).

It is not the same if one name is declared both with and without a value.  A value may be
followed by a declaration without one, and is then gone in the walk that takes the
declarators in order, but not in the other (`lapses`).  And a value may read a name that
is declared without a value only further on; the walk that goes over the declaration twice
no longer sees what was in view before (`foretells`).  The two walks agree if and only if
neither of this is to be seen (`statement_iff_apart`), and they do not always agree
(`statement_ne_apart`).

The proof compares what the two walks have in view of one name, before each declarator and
at the end (`view_cases`).  The reads that are noted then agree one by one, since no
variable occurrence is read twice.
-/
import Mathlib.Data.List.Induction
import DefUse.Dependency.Lexical
import DefUse.Proofs.Effect.Origin
import DefUse.Proofs.Graph.Build
import DefUse.Proofs.Scope

namespace DefUse

open DefUse.Tree
open scoped List

/-! ## Notes -/

namespace ReadMap

/-- Notes several reads. -/
def recordAll (map : ReadMap) (notes : List (Site × List Assignment)) : ReadMap :=
  notes.foldl (fun map note => map.record note.1 note.2) map

theorem lookup_cons (site noted : Site) (reaching : List Assignment) (map : ReadMap) :
    List.lookup site ((noted, reaching) :: map) =
      if site = noted then some reaching else map.lookup site := by
  rw [List.lookup_cons]
  by_cases heq : site = noted
  · simp [heq]
  · simp [heq, beq_eq_false_iff_ne.mpr heq]

theorem lookup_record (map : ReadMap) (read site : Site) (reaching : List Assignment) :
    (map.record read reaching).lookup site =
      if site = read then some reaching else map.lookup site := by
  induction map with
  | nil => exact lookup_cons site read reaching []
  | cons entry rest ih =>
      obtain ⟨noted, assignments⟩ := entry
      rw [record]
      split
      · rename_i hnoted
        cases hnoted
        rw [lookup_cons, lookup_cons]
        by_cases heq : site = noted <;> simp [heq]
      · rename_i hnoted
        split
        · rw [lookup_cons]
        · rw [lookup_cons, lookup_cons, ih]
          by_cases heq : site = read
          · subst heq
            simp [show site ≠ noted from hnoted]
          · simp [heq]

theorem lookup_recordAll_of_notMem {notes : List (Site × List Assignment)} {site : Site}
    (h : site ∉ notes.map Prod.fst) (map : ReadMap) :
    (map.recordAll notes).lookup site = map.lookup site := by
  induction notes generalizing map with
  | nil => rfl
  | cons note rest ih =>
      rw [List.map_cons, List.mem_cons, not_or] at h
      exact (ih h.2 _).trans ((lookup_record map note.1 site note.2).trans (if_neg h.1))

/-- If no read is noted twice, different notes leave different maps. -/
theorem recordAll_inj {notes others : List (Site × List Assignment)} (map : ReadMap)
    (hsites : notes.map Prod.fst = others.map Prod.fst) (hnodup : (notes.map Prod.fst).Nodup) :
    map.recordAll notes = map.recordAll others ↔ notes = others := by
  refine ⟨?_, fun h => congrArg map.recordAll h⟩
  intro h
  induction notes generalizing others map with
  | nil => exact (List.map_eq_nil_iff.mp hsites.symm).symm
  | cons note rest ih =>
      obtain ⟨site, reaching⟩ := note
      match others, hsites with
      | (_, reaching') :: others, hsites =>
          obtain ⟨rfl, hrest⟩ := List.cons.inj hsites
          obtain ⟨hnew, hnodup⟩ := List.nodup_cons.mp hnodup
          -- both maps still say of the first read what was noted of it
          have hfirst : ((map.record site reaching).recordAll rest).lookup site =
              ((map.record site reaching').recordAll others).lookup site :=
            congrArg (List.lookup site) h
          rw [lookup_recordAll_of_notMem hnew, lookup_recordAll_of_notMem (hrest ▸ hnew),
            lookup_record, lookup_record, if_pos rfl, if_pos rfl] at hfirst
          cases hfirst
          rw [ih (map.record site reaching) hrest hnodup h]

end ReadMap

/-! ## Scopes -/

namespace Scope

variable {α : Type}

/-- What the innermost frame says of a name. -/
def innermost (name : String) (scope : Scope α) : Option α :=
  Frame.get? name scope.inner

theorem innermost_bind (name other : String) (value : α) (scope : Scope α) :
    innermost name (scope.bind other value) =
      if other = name then some value else innermost name scope := by
  by_cases h : other = name
  · subst h
    simp [innermost, bind]
  · simp [innermost, bind, h, Frame.get?_bind_of_ne (Ne.symm h)]

theorem lookup_bind (name other : String) (value : α) (scope : Scope α) :
    lookup name (scope.bind other value) =
      if other = name then some value else lookup name scope := by
  by_cases h : other = name
  · subst h
    simp
  · simp [h, lookup_bind_of_ne (Ne.symm h)]

/-- Scopes with the same frames around them are the same, name by name, if their innermost
frames are. -/
theorem related_eq_iff {scope other : Scope α} (h : scope.outer = other.outer) :
    Related (· = ·) scope other ↔ ∀ name, innermost name scope = innermost name other := by
  rw [Related, frames, frames, List.forall₂_cons, h]
  exact and_iff_left (List.forall₂_same.mpr fun _ _ _ => rfl)

end Scope

namespace LexicalWalk

variable (program : Program)

/-! ## What declarators declare -/

/-- Does the declarator leave its variable without a value? -/
def isBlank (declarator : Node) : Bool :=
  (declarator.field? .value).isNone

/-- Does it declare the name? -/
def spells (name : String) (declarator : Node) : Bool :=
  (declarator.field? .name).any fun target => program.text target.site = name

/-- The last of several declarators that declares the name. -/
def last? (name : String) (declarators : List Node) : Option Node :=
  declarators.reverse.find? (spells program name)

/-- The last one that declares it with a value. -/
def filled? (name : String) (declarators : List Node) : Option Node :=
  declarators.reverse.find? fun declarator => spells program name declarator && !isBlank declarator

/-- Is the name declared without a value by one of them? -/
def isLeft (name : String) (declarators : List Node) : Bool :=
  declarators.any fun declarator => spells program name declarator && isBlank declarator

/-- Is the name declared with a value, and without one after that? -/
def lapses (declarators : List Node) (name : String) : Bool :=
  (last? program name declarators).any isBlank && (filled? program name declarators).isSome

/-- Is the name declared without a value further on, and not yet before? -/
def foretells (front back : List Node) (name : String) : Bool :=
  !front.any (spells program name) && isLeft program name back

/-- What is in view of a name that was in view as `old` before, after the declarators in front
have been taken in order. -/
def inOrder (front : List Node) (name : String) (old : Option (Option Assignment)) :
    Option (Option Assignment) :=
  ((last? program name front).map Assignment.ofNode?).or old

/-- What is in view of it if all variables without a value have been bound first, and then the
declarators in front with a value. -/
def inTurn (all front : List Node) (name : String) (old : Option (Option Assignment)) :
    Option (Option Assignment) :=
  ((filled? program name front).map Assignment.ofNode?).or
    (if isLeft program name all then some none else old)

/-- The declarators of a declaration, each in a declaration of its own. -/
def apart (declaration : Node) : List Node :=
  (declarators declaration).map fun declarator => .mk declaration.site [declarator]

/-! ## One declarator -/

/-- What the declarator does, if it is not refused. -/
def effectOf (declarator : Node) : Effect :=
  ⟨(readsOf? (declarator.field? .value)).toOption.getD [], Assignment.ofNode? declarator⟩

/-- A declarator that is not refused. -/
structure Proper (declarator : Node) : Prop where
  kind : declarator.kind = .variableDeclarator
  effect : Effect.ofDeclarator declarator = .ok (effectOf declarator)

/-- Binds the variable of a declarator without a value. -/
def blank (walk : LexicalWalk) (declarator : Node) : LexicalWalk :=
  if isBlank declarator then
    (declarator.field? .name).toList.foldl
      (fun walk name => { walk with scope := walk.scope.bind (program.text name.site) none }) walk
  else walk

/-- Reads the value of a declarator and binds its variable to it, if there is a value. -/
def fill (walk : LexicalWalk) (declarator : Node) : LexicalWalk :=
  walk.step program (effectOf declarator)

/-- Takes a declarator as a declaration of its own. -/
def one (walk : LexicalWalk) (declarator : Node) : LexicalWalk :=
  fill program (blank program walk declarator) declarator

/-- What is noted of the reads of a declarator. -/
def noted (walk : LexicalWalk) (declarator : Node) : List (Site × List Assignment) :=
  (effectOf declarator).reads.map fun site =>
    (site, ((walk.scope.lookup (program.text site)).bind id).toList)

variable {program} {declarator : Node}

theorem proper_of_ofDeclarator {effect : Effect} (hkind : declarator.kind = .variableDeclarator)
    (h : Effect.ofDeclarator declarator = .ok effect) : Proper declarator := by
  refine ⟨hkind, ?_⟩
  rw [Effect.ofDeclarator] at h ⊢
  split at h
  · cases h
  · rename_i hname
    obtain ⟨sites, hsites, h⟩ := exists_of_bind_eq_ok h
    rw [if_neg hname, effectOf, hsites]
    rfl

namespace Proper

variable (h : Proper declarator)
include h

theorem ofNode? : Assignment.ofNode? declarator = (declarator.field? .value).bind fun _ =>
    (declarator.field? .name).map fun name => ⟨declarator.site, .declaration, name.site⟩ :=
  (Effect.ofDeclarator_eq_ok h.kind h.effect).2.2

theorem reads : readsOf? (declarator.field? .value) = .ok (effectOf declarator).reads :=
  (Effect.ofDeclarator_eq_ok h.kind h.effect).2.1

/-- Without a value nothing is read and nothing is assigned. -/
theorem effectOf_of_isBlank (hblank : isBlank declarator = true) :
    effectOf declarator = ⟨[], none⟩ := by
  have hvalue : declarator.field? .value = none := Option.isNone_iff_eq_none.mp hblank
  rw [effectOf, h.ofNode?, hvalue]
  rfl

/-- What reads has a value. -/
theorem not_isBlank_of_mem {read : Site} (hread : read ∈ (effectOf declarator).reads) :
    isBlank declarator = false := by
  cases hblank : isBlank declarator with
  | false => rfl
  | true =>
      rw [h.effectOf_of_isBlank hblank] at hread
      cases hread

theorem ofNode?_of_isBlank (hblank : isBlank declarator = true) :
    Assignment.ofNode? declarator = none :=
  congrArg Effect.write (h.effectOf_of_isBlank hblank)

/-- With a value the variable is assigned. -/
theorem ofNode?_of_spells {name : String} (hspells : spells program name declarator = true)
    (hblank : isBlank declarator = false) :
    ∃ assignment, Assignment.ofNode? declarator = some assignment := by
  obtain ⟨value, hvalue⟩ : ∃ value, declarator.field? .value = some value := by
    rwa [isBlank, Option.isNone_eq_false_iff, Option.isSome_iff_exists] at hblank
  obtain ⟨target, htarget, -⟩ := (Option.any_eq_true _ _).mp hspells
  rw [h.ofNode?, hvalue, htarget]
  exact ⟨_, rfl⟩

end Proper

theorem foldl_read (sites : List Site) (walk : LexicalWalk) :
    sites.foldl (read program) walk =
      { walk with
        reads := walk.reads.recordAll (sites.map fun site =>
          (site, ((walk.scope.lookup (program.text site)).bind id).toList)) } := by
  induction sites generalizing walk with
  | nil => rfl
  | cons site rest ih =>
      rw [List.foldl_cons, ih]
      rfl

/-- What a declarator with a value does to the walk. -/
theorem fill_eq (h : Proper declarator) (walk : LexicalWalk) : fill program walk declarator =
    { scope := (Assignment.ofNode? declarator).toList.foldl (fun scope assignment =>
        scope.bind (program.text assignment.target) (some assignment)) walk.scope
      reads := walk.reads.recordAll (noted program walk declarator)
      events := walk.events } := by
  rw [fill, step, foldl_read]
  show (Assignment.ofNode? declarator).toList.foldl (write program) _ = _
  cases hmakes : Assignment.ofNode? declarator with
  | none => rfl
  | some assignment =>
      have hkind := Effect.declaration_of_ofDeclarator h.kind h.effect hmakes
      rw [Option.toList_some, List.foldl_cons, List.foldl_nil, write, if_pos hkind]
      rfl

/-- What a declarator without a value does to it. -/
theorem blank_eq (walk : LexicalWalk) (declarator : Node) : blank program walk declarator =
    { walk with
      scope := ((declarator.field? .name).filter fun _ => isBlank declarator).toList.foldl
        (fun scope name => scope.bind (program.text name.site) none) walk.scope } := by
  rw [blank]
  cases declarator.field? .name <;> cases isBlank declarator <;> rfl

theorem fill_of_isBlank (h : Proper declarator) (hblank : isBlank declarator = true)
    (walk : LexicalWalk) : fill program walk declarator = walk := by
  rw [fill, h.effectOf_of_isBlank hblank]
  rfl

theorem blank_of_filled (hblank : isBlank declarator = false) (walk : LexicalWalk) :
    blank program walk declarator = walk := by
  rw [blank, hblank]
  rfl

/-! ## Several declarators, one after the other -/

/-- What is noted while declarators are taken in a certain way. -/
def trace (program : Program) (take : LexicalWalk → Node → LexicalWalk) :
    LexicalWalk → List Node → List (Site × List Assignment)
  | _, [] => []
  | walk, declarator :: rest =>
    noted program walk declarator ++ trace program take (take walk declarator) rest

theorem noted_blank (h : Proper declarator) (walk : LexicalWalk) :
    noted program (blank program walk declarator) declarator = noted program walk declarator := by
  cases hblank : isBlank declarator with
  | true =>
      rw [noted, noted, h.effectOf_of_isBlank hblank]
      rfl
  | false => rw [blank_of_filled hblank]

theorem reads_blank (walk : LexicalWalk) (declarator : Node) :
    (blank program walk declarator).reads = walk.reads ∧
      (blank program walk declarator).events = walk.events := by
  rw [blank_eq]
  exact ⟨rfl, rfl⟩

/-- A way to take declarators notes what they read, and reports nothing. -/
def Notes (program : Program) (take : LexicalWalk → Node → LexicalWalk) : Prop :=
  ∀ declarator, Proper declarator → ∀ walk, (take walk declarator).events = walk.events ∧
    (take walk declarator).reads = walk.reads.recordAll (noted program walk declarator)

theorem notes_fill : Notes program (fill program) := by
  intro declarator h walk
  rw [fill_eq h]
  exact ⟨rfl, rfl⟩

theorem notes_one : Notes program (one program) := by
  intro declarator h walk
  obtain ⟨hreads, hevents⟩ := @reads_blank program walk declarator
  rw [one, fill_eq h]
  exact ⟨hevents, congr (congrArg ReadMap.recordAll hreads) (noted_blank h walk)⟩

variable {take other : LexicalWalk → Node → LexicalWalk} {ds : List Node}

theorem Notes.foldl (htake : Notes program take) (h : ∀ d ∈ ds, Proper d) (walk : LexicalWalk) :
    (ds.foldl take walk).events = walk.events ∧
      (ds.foldl take walk).reads = walk.reads.recordAll (trace program take walk ds) := by
  induction ds generalizing walk with
  | nil => exact ⟨rfl, rfl⟩
  | cons d rest ih =>
      obtain ⟨hd, hrest⟩ := List.forall_mem_cons.mp h
      obtain ⟨hevents, hreads⟩ := htake d hd walk
      obtain ⟨hevents', hreads'⟩ := ih hrest (take walk d)
      refine ⟨hevents'.trans hevents, hreads'.trans ?_⟩
      rw [hreads, trace, ReadMap.recordAll, ReadMap.recordAll, ReadMap.recordAll,
        List.foldl_append]

theorem map_fst_noted (walk : LexicalWalk) (declarator : Node) :
    (noted program walk declarator).map Prod.fst = (effectOf declarator).reads := by
  rw [noted, List.map_map]
  exact List.map_id _

theorem map_fst_trace (walk : LexicalWalk) (ds : List Node) :
    (trace program take walk ds).map Prod.fst = ds.flatMap fun d => (effectOf d).reads := by
  induction ds generalizing walk with
  | nil => rfl
  | cons d rest ih => rw [trace, List.map_append, map_fst_noted, ih, List.flatMap_cons]

/-- The traces are equal if the same is noted of each declarator. -/
theorem trace_eq_iff (walk walk' : LexicalWalk) (ds : List Node) :
    trace program take walk ds = trace program other walk' ds ↔
      ∀ front d back, ds = front ++ d :: back →
        noted program (front.foldl take walk) d = noted program (front.foldl other walk') d := by
  induction ds generalizing walk walk' with
  | nil =>
      refine ⟨fun _ front d back h => ?_, fun _ => rfl⟩
      simp at h
  | cons first rest ih =>
      have hlength : (noted program walk first).length = (noted program walk' first).length := by
        rw [noted, noted, List.length_map, List.length_map]
      constructor
      · intro h front d back heq
        obtain ⟨hfirst, hrest⟩ := List.append_inj h hlength
        cases front with
        | nil =>
            cases heq
            exact hfirst
        | cons _ front =>
            cases heq
            exact (ih _ _).mp hrest front d back rfl
      · intro h
        have hrest := (ih (take walk first) (other walk' first)).mpr fun front d back heq =>
          h (first :: front) d back (congrArg (first :: ·) heq)
        have hfirst : noted program walk first = noted program walk' first := h [] first rest rfl
        rw [trace, trace, hfirst, hrest]

/-! ## What is in view of a name -/

section View

-- `view` stands for the look-up of the name in all frames, and for that in the innermost one
variable {name : String} {view : Scope (Option Assignment) → Option (Option Assignment)}
  (hview : ∀ other value scope,
    view (Scope.bind other value scope) = if other = name then some value else view scope)
include hview

theorem view_blank (walk : LexicalWalk) (declarator : Node) :
    view (blank program walk declarator).scope =
      if spells program name declarator && isBlank declarator then some none
      else view walk.scope := by
  rw [blank_eq, spells]
  cases declarator.field? .name with
  | none => simp
  | some target =>
      rw [Option.filter_some]
      cases isBlank declarator <;> simp [hview]

theorem view_fill (h : Proper declarator) (walk : LexicalWalk) :
    view (fill program walk declarator).scope =
      if spells program name declarator && !isBlank declarator then
        some (Assignment.ofNode? declarator)
      else view walk.scope := by
  rw [fill_eq h, h.ofNode?, isBlank, spells]
  cases declarator.field? .value with
  | none => simp
  | some value =>
      cases declarator.field? .name with
      | none => simp
      | some target => simp [hview]

theorem view_one (h : Proper declarator) (walk : LexicalWalk) :
    view (one program walk declarator).scope =
      if spells program name declarator then some (Assignment.ofNode? declarator)
      else view walk.scope := by
  cases hblank : isBlank declarator with
  | true =>
      rw [one, fill_of_isBlank h hblank, view_blank hview, hblank, h.ofNode?_of_isBlank hblank,
        Bool.and_true]
  | false =>
      rw [one, blank_of_filled hblank, view_fill hview h, hblank, Bool.not_false, Bool.and_true]

theorem view_foldl_blank (ds : List Node) (walk : LexicalWalk) :
    view (ds.foldl (blank program) walk).scope =
      if isLeft program name ds then some none else view walk.scope := by
  induction ds generalizing walk with
  | nil => rfl
  | cons d rest ih =>
      rw [List.foldl_cons, ih, view_blank hview, isLeft, isLeft, List.any_cons]
      cases spells program name d && isBlank d <;> simp

theorem view_foldl_fill (h : ∀ d ∈ ds, Proper d) (walk : LexicalWalk) :
    view (ds.foldl (fill program) walk).scope =
      ((filled? program name ds).map Assignment.ofNode?).or (view walk.scope) := by
  -- the last declarator decides, so the list is taken from its end
  induction ds using List.reverseRecOn with
  | nil => rfl
  | append_singleton front d ih =>
      rw [List.foldl_append, List.foldl_cons, List.foldl_nil,
        view_fill hview (h d (List.mem_append_right _ (List.mem_singleton.mpr rfl))),
        ih fun e he => h e (List.mem_append_left _ he), filled?, filled?, List.reverse_append,
        List.reverse_singleton, List.singleton_append, List.find?_cons]
      cases spells program name d && !isBlank d <;> rfl

theorem view_inTurn (h : ∀ d ∈ ds, Proper d) (all : List Node) (walk : LexicalWalk) :
    view (ds.foldl (fill program) (all.foldl (blank program) walk)).scope =
      inTurn program all ds name (view walk.scope) := by
  rw [view_foldl_fill hview h, view_foldl_blank hview, inTurn]

theorem view_inOrder (h : ∀ d ∈ ds, Proper d) (walk : LexicalWalk) :
    view (ds.foldl (one program) walk).scope = inOrder program ds name (view walk.scope) := by
  rw [inOrder]
  induction ds using List.reverseRecOn with
  | nil => rfl
  | append_singleton front d ih =>
      rw [List.foldl_append, List.foldl_cons, List.foldl_nil,
        view_one hview (h d (List.mem_append_right _ (List.mem_singleton.mpr rfl))),
        ih fun e he => h e (List.mem_append_left _ he), last?, last?, List.reverse_append,
        List.reverse_singleton, List.singleton_append, List.find?_cons]
      cases spells program name d <;> rfl

end View

/-! ## The two walks compared -/

variable {name : String} {front back : List Node}

theorem filled?_of_last? (hlast : last? program name ds = some declarator)
    (hblank : isBlank declarator = false) : filled? program name ds = some declarator := by
  rw [last?, List.find?_eq_some_iff_append] at hlast
  obtain ⟨hspells, later, earlier, heq, hlater⟩ := hlast
  rw [filled?, List.find?_eq_some_iff_append]
  refine ⟨by simp [hspells, hblank], later, earlier, heq, fun d hd => ?_⟩
  have hother := hlater d hd
  rw [Bool.not_eq_true'] at hother
  simp [hother]

/-- What the two walks have in view of a name: if it lapses, an assignment and none; if it was
declared and does not lapse, the same. -/
theorem view_cases (hproper : ∀ d ∈ front, Proper d) (all : List Node)
    (hall : isLeft program name front = true → isLeft program name all = true)
    (old : Option (Option Assignment)) :
    (lapses program front name = true ∧
      (∃ assignment, inTurn program all front name old = some (some assignment)) ∧
      inOrder program front name old = some none) ∨
    lapses program front name = false ∧
      (front.any (spells program name) = true ∧
        inTurn program all front name old = inOrder program front name old ∨
      front.any (spells program name) = false ∧
        inTurn program all front name old = (if isLeft program name all then some none else old) ∧
        inOrder program front name old = old) := by
  rw [lapses, inTurn, inOrder]
  cases hlast : last? program name front with
  | none =>
      -- not declared in front: neither walk has changed anything
      have hnone : ∀ d ∈ front, spells program name d = false := by
        intro d hd
        have := List.find?_eq_none.mp hlast d (List.mem_reverse.mpr hd)
        simpa using this
      have hfilled : filled? program name front = none := by
        rw [filled?, List.find?_eq_none]
        intro d hd
        simp [hnone d (List.mem_reverse.mp hd)]
      refine .inr ⟨rfl, .inr ⟨?_, by rw [hfilled]; rfl, rfl⟩⟩
      simpa using hnone
  | some e =>
      have he : e ∈ front := List.mem_reverse.mp (List.mem_of_find?_eq_some hlast)
      have hspells : spells program name e = true := List.find?_some hlast
      have hany : front.any (spells program name) = true := List.any_eq_true.mpr ⟨e, he, hspells⟩
      cases hblank : isBlank e with
      | true =>
          have hleft : isLeft program name all = true :=
            hall (List.any_eq_true.mpr ⟨e, he, by simp [hspells, hblank]⟩)
          have hnone := (hproper e he).ofNode?_of_isBlank hblank
          cases hfilled : filled? program name front with
          | none => exact .inr ⟨by simp, .inl ⟨hany, by simp [hleft, hnone]⟩⟩
          | some f =>
              have hf : f ∈ front := List.mem_reverse.mp (List.mem_of_find?_eq_some hfilled)
              have hfilled' := List.find?_some hfilled
              rw [Bool.and_eq_true, Bool.not_eq_true'] at hfilled'
              obtain ⟨assignment, hmakes⟩ :=
                (hproper f hf).ofNode?_of_spells hfilled'.1 hfilled'.2
              exact .inl ⟨by simp [hblank], ⟨assignment, by simp [hmakes]⟩, by simp [hnone]⟩
      | false =>
          rw [filled?_of_last? hlast hblank]
          exact .inr ⟨by simp [hblank], .inl ⟨hany, rfl⟩⟩

theorem isLeft_of_not_spells (h : ds.any (spells program name) = false) :
    isLeft program name ds = false := by
  rw [List.any_eq_false] at h
  rw [isLeft, List.any_eq_false]
  intro d hd
  simp [h d hd]

/-- The innermost frames say the same of a name if it does not lapse. -/
theorem innermost_iff (hproper : ∀ d ∈ ds, Proper d) (walk : LexicalWalk) (name : String) :
    (ds.foldl (fill program) (ds.foldl (blank program) walk)).scope.innermost name =
        (ds.foldl (one program) walk).scope.innermost name ↔
      lapses program ds name = false := by
  have hview := @Scope.innermost_bind (Option Assignment) name
  rw [view_inTurn hview hproper, view_inOrder hview hproper]
  rcases view_cases hproper ds id (walk.scope.innermost name) with
    ⟨hlapses, ⟨assignment, hfill⟩, hone⟩ | ⟨hlapses, ⟨-, hsame⟩ | ⟨hnone, hfill, hone⟩⟩
  · rw [hfill, hone, hlapses]
    simp
  · simp [hsame, hlapses]
  · rw [hfill, hone, hlapses, isLeft_of_not_spells hnone]
    simp

/-- A value finds the same assignment of a name in both walks if nothing of the name has lapsed
before it, and if what is declared further on does not hide an assignment. -/
theorem reaching_iff (hproper : ∀ d ∈ front ++ declarator :: back, Proper d)
    (hblank : isBlank declarator = false) (walk : LexicalWalk) (name : String) :
    ((front.foldl (fill program) ((front ++ declarator :: back).foldl (blank program) walk)
        ).scope.lookup name).bind id =
        ((front.foldl (one program) walk).scope.lookup name).bind id ↔
      lapses program front name = false ∧ (foretells program front back name = true →
        (walk.scope.lookup name).bind id = none) := by
  have hview := @Scope.lookup_bind (Option Assignment) name
  have hfront : ∀ d ∈ front, Proper d := fun d hd => hproper d (List.mem_append_left _ hd)
  have hall : isLeft program name (front ++ declarator :: back) =
      (isLeft program name front || isLeft program name back) := by
    simp [isLeft, hblank]
  rw [view_inTurn hview hfront, view_inOrder hview hfront, foretells]
  rcases view_cases hfront (front ++ declarator :: back)
    (fun h => by rw [hall, h, Bool.true_or]) (walk.scope.lookup name) with
    ⟨hlapses, ⟨assignment, hfill⟩, hone⟩ | ⟨hlapses, ⟨hany, hsame⟩ | ⟨hnone, hfill, hone⟩⟩
  · rw [hfill, hone, hlapses]
    simp
  · simp [hsame, hlapses, hany]
  · rw [hfill, hone, hlapses, hall, isLeft_of_not_spells hnone, hnone, Bool.false_or]
    cases isLeft program name back with
    | false => simp
    | true => simp [eq_comm]

theorem noted_eq_iff (walk walk' : LexicalWalk) (declarator : Node) :
    noted program walk declarator = noted program walk' declarator ↔
      ∀ read ∈ (effectOf declarator).reads,
        (walk.scope.lookup (program.text read)).bind id =
          (walk'.scope.lookup (program.text read)).bind id := by
  have htoList : ∀ a b : Option Assignment, a.toList = b.toList ↔ a = b := fun a b =>
    ⟨fun h => by simpa using congrArg List.head? h, congrArg Option.toList⟩
  rw [noted, noted, List.map_inj_left]
  simp only [Prod.mk.injEq, true_and, htoList]

/-- The same is noted of a declarator if its value finds the same assignments. -/
theorem noted_iff (hproper : ∀ d ∈ front ++ declarator :: back, Proper d) (walk : LexicalWalk) :
    noted program (front.foldl (fill program)
        ((front ++ declarator :: back).foldl (blank program) walk)) declarator =
        noted program (front.foldl (one program) walk) declarator ↔
      ∀ sites, readsOf? (declarator.field? .value) = .ok sites → ∀ read ∈ sites,
        lapses program front (program.text read) = false ∧
          (foretells program front back (program.text read) = true →
            (walk.scope.lookup (program.text read)).bind id = none) := by
  have hd : Proper declarator :=
    hproper declarator (List.mem_append_right _ List.mem_cons_self)
  rw [noted_eq_iff]
  constructor
  · intro h sites hsites read hread
    cases hd.reads.symm.trans hsites
    exact (reaching_iff hproper (hd.not_isBlank_of_mem hread) walk _).mp (h read hread)
  · intro h read hread
    exact (reaching_iff hproper (hd.not_isBlank_of_mem hread) walk _).mpr (h _ hd.reads read hread)

/-! ## A declaration -/

theorem declareUninitialized_eq (node : Node) (walk : LexicalWalk) :
    walk.declareUninitialized program node = (declarators node).foldl (blank program) walk := by
  rw [declareUninitialized, uninitialized]
  induction declarators node generalizing walk with
  | nil => rfl
  | cons d rest ih =>
      rw [List.foldl_cons, ← ih, blank, isBlank, List.filter_cons]
      cases d.field? .value with
      | some value => rfl
      | none =>
          simp only [Option.isNone_none, if_true, List.filterMap_cons]
          cases d.field? .name <;> rfl

theorem mapM_ofDeclarator (h : ∀ d ∈ ds, Proper d) :
    ds.mapM Effect.ofDeclarator = .ok (ds.map effectOf) := by
  induction ds with
  | nil => rfl
  | cons d rest ih =>
      obtain ⟨hd, hrest⟩ := List.forall_mem_cons.mp h
      rw [List.mapM_cons, hd.effect, ih hrest]
      rfl

theorem statement_of_isDeclaration {node : Node} (h : isDeclaration node = true)
    (walk : LexicalWalk) : statement program node walk = walk.declaration program node := by
  obtain ⟨site, children⟩ := node
  rw [isDeclaration, Bool.or_eq_true, decide_eq_true_eq, decide_eq_true_eq] at h
  rw [statement]
  rcases h with hkind | hkind
  · rw [show site.kind = .lexicalDeclaration from hkind]
  · rw [show site.kind = .variableDeclaration from hkind]

/-- The walk goes over the declarators of a declaration twice. -/
theorem statement_eq_ok {node : Node} (hdeclaration : isDeclaration node = true)
    {walk next : LexicalWalk} (h : statement program node walk = .ok next) :
    (∀ d ∈ declarators node, Proper d) ∧
      next = (declarators node).foldl (fill program)
        ((declarators node).foldl (blank program) walk) := by
  rw [statement_of_isDeclaration hdeclaration, declaration, simple,
    effects_of_isDeclaration hdeclaration, declareUninitialized_eq] at h
  obtain ⟨steps, hsteps, h⟩ := exists_of_bind_eq_ok h
  have hproper : ∀ d ∈ declarators node, Proper d := by
    intro d hd
    obtain ⟨effect, heffect⟩ := exists_mapM_iff.mp ⟨steps, hsteps⟩ d hd
    exact proper_of_ofDeclarator (mem_declarators hd).2 heffect
  cases hsteps.symm.trans (mapM_ofDeclarator hproper)
  cases h
  exact ⟨hproper, List.foldl_map⟩

/-- A declaration with one declarator takes it. -/
theorem statement_single {node : Node} (hdeclaration : isDeclaration node = true)
    (hmem : declarator ∈ declarators node) (h : Proper declarator) (walk : LexicalWalk) :
    statement program (.mk node.site [declarator]) walk = .ok (one program walk declarator) := by
  obtain ⟨hnamed, hkind⟩ := List.mem_filter.mp hmem
  have hsingle : declarators (.mk node.site [declarator]) = [declarator] := by
    have hfilter : [declarator].filter Node.isNamed = [declarator] :=
      List.filter_cons_of_pos (List.mem_filter.mp hnamed).2
    rw [declarators, Node.namedChildren, Node.children, hfilter]
    exact List.filter_cons_of_pos hkind
  have hdeclares : isDeclaration (.mk node.site [declarator]) = true := hdeclaration
  rw [statement_of_isDeclaration hdeclares, declaration, simple,
    effects_of_isDeclaration hdeclares, declareUninitialized_eq, hsingle, List.mapM_cons, h.effect]
  rfl

theorem foldlM_apart {node : Node} (hdeclaration : isDeclaration node = true)
    (hproper : ∀ d ∈ declarators node, Proper d) (walk : LexicalWalk) :
    (apart node).foldlM (fun walk single => statement program single walk) walk =
      .ok ((declarators node).foldl (one program) walk) := by
  have hone : ∀ d ∈ declarators node, ∀ walk,
      statement program (.mk node.site [d]) walk = .ok (one program walk d) :=
    fun d hd => statement_single hdeclaration hd (hproper d hd)
  rw [apart]
  generalize declarators node = ds at hone
  induction ds generalizing walk with
  | nil => rfl
  | cons d rest ih =>
      obtain ⟨hd, hrest⟩ := List.forall_mem_cons.mp hone
      rw [List.map_cons, List.foldlM_cons, hd]
      exact ih _ hrest

/-- Only the innermost frame is changed. -/
theorem outer_foldl {take : LexicalWalk → Node → LexicalWalk}
    (htake : ∀ d ∈ ds, ∀ walk, (take walk d).scope.outer = walk.scope.outer) (walk : LexicalWalk) :
    (ds.foldl take walk).scope.outer = walk.scope.outer := by
  induction ds generalizing walk with
  | nil => rfl
  | cons d rest ih =>
      obtain ⟨hd, hrest⟩ := List.forall_mem_cons.mp htake
      exact (ih hrest _).trans (hd walk)

theorem outer_blank (walk : LexicalWalk) (declarator : Node) :
    (blank program walk declarator).scope.outer = walk.scope.outer := by
  rw [blank_eq]
  cases (declarator.field? .name).filter fun _ => isBlank declarator <;> rfl

theorem outer_fill (h : Proper declarator) (walk : LexicalWalk) :
    (fill program walk declarator).scope.outer = walk.scope.outer := by
  rw [fill_eq h]
  cases Assignment.ofNode? declarator <;> rfl

theorem outer_one (h : Proper declarator) (walk : LexicalWalk) :
    (one program walk declarator).scope.outer = walk.scope.outer :=
  (outer_fill h _).trans (outer_blank walk declarator)

theorem reads_foldl_blank (ds : List Node) (walk : LexicalWalk) :
    (ds.foldl (blank program) walk).reads = walk.reads ∧
      (ds.foldl (blank program) walk).events = walk.events := by
  induction ds generalizing walk with
  | nil => exact ⟨rfl, rfl⟩
  | cons d rest ih =>
      obtain ⟨hreads, hevents⟩ := @reads_blank program walk d
      exact ⟨(ih _).1.trans hreads, (ih _).2.trans hevents⟩

/-- No variable occurrence is read twice in a declaration. -/
theorem nodup_reads {node : Node} (hnode : node ∈ Node.nodesAll program.root.children)
    (hproper : ∀ d ∈ declarators node, Proper d) :
    ((declarators node).flatMap fun d => (effectOf d).reads).Nodup := by
  obtain ⟨sites, hperm, hsublist⟩ := (Effect.within_declarators (mapM_ofDeclarator hproper)).reads
  have hwithin : (declarators node).flatMap Node.nodes <+ Node.nodesAll program.root.children :=
    (flatMap_declarators_sublist node).trans (Node.sublist_of_mem_nodesAll hnode)
  rw [List.flatMap_map] at hperm
  exact hperm.nodup (program.nodup_sites.sublist (hsublist.trans (hwithin.map _)))

/-- Both walks leave the same scope if no name lapses. -/
theorem scope_iff (hproper : ∀ d ∈ ds, Proper d) (walk : LexicalWalk) :
    (ds.foldl (fill program) (ds.foldl (blank program) walk)).scope.Related (· = ·)
        (ds.foldl (one program) walk).scope ↔
      ∀ name, lapses program ds name = false := by
  have houter : (ds.foldl (fill program) (ds.foldl (blank program) walk)).scope.outer =
      (ds.foldl (one program) walk).scope.outer := by
    rw [outer_foldl fun d hd => outer_fill (hproper d hd),
      outer_foldl fun d _ walk => outer_blank walk d]
    exact (outer_foldl (fun d hd => outer_one (hproper d hd)) walk).symm
  rw [Scope.related_eq_iff houter]
  exact forall_congr' (innermost_iff hproper walk)

/-- Both walks have noted the same in the end if they note the same of each declarator. -/
theorem reads_iff (hproper : ∀ d ∈ ds, Proper d)
    (hnodup : (ds.flatMap fun d => (effectOf d).reads).Nodup) (walk : LexicalWalk) :
    (ds.foldl (fill program) (ds.foldl (blank program) walk)).reads =
        (ds.foldl (one program) walk).reads ↔
      ∀ front declarator back, ds = front ++ declarator :: back →
        noted program (front.foldl (fill program) (ds.foldl (blank program) walk)) declarator =
          noted program (front.foldl (one program) walk) declarator := by
  rw [(notes_fill.foldl hproper _).2, (notes_one.foldl hproper _).2,
    (reads_foldl_blank ds walk).1, ReadMap.recordAll_inj, trace_eq_iff]
  · rw [map_fst_trace, map_fst_trace]
  · rw [map_fst_trace]
    exact hnodup

theorem events_eq (hproper : ∀ d ∈ ds, Proper d) (walk : LexicalWalk) :
    (ds.foldl (fill program) (ds.foldl (blank program) walk)).events =
      (ds.foldl (one program) walk).events := by
  rw [(notes_fill.foldl hproper _).1, (notes_one.foldl hproper _).1, (reads_foldl_blank ds walk).2]

/-- A declaration does what its declarators do one after the other, each as a declaration of its
own, if and only if no name lapses in it, and no value reads a name that has lapsed before it or
that hides an assignment from it by being declared without a value further on. -/
theorem statement_iff_apart {node : Node} (hnode : node ∈ Node.nodesAll program.root.children)
    (hdeclaration : isDeclaration node = true) {walk next : LexicalWalk}
    (h : statement program node walk = .ok next) :
    ∃ other, (apart node).foldlM (fun walk single => statement program single walk) walk =
        .ok other ∧
      (next.scope.Related (· = ·) other.scope ∧ next.reads = other.reads ∧
          next.events = other.events ↔
        (∀ name, lapses program (declarators node) name = false) ∧
          ∀ front declarator back sites, declarators node = front ++ declarator :: back →
            readsOf? (declarator.field? .value) = .ok sites → ∀ read ∈ sites,
              lapses program front (program.text read) = false ∧
                (foretells program front back (program.text read) = true →
                  (walk.scope.lookup (program.text read)).bind id = none)) := by
  obtain ⟨hproper, rfl⟩ := statement_eq_ok hdeclaration h
  refine ⟨_, foldlM_apart hdeclaration hproper walk, ?_⟩
  have hnodup := nodup_reads hnode hproper
  generalize declarators node = ds at hproper hnodup
  rw [scope_iff hproper, reads_iff hproper hnodup, and_iff_left (events_eq hproper walk)]
  refine and_congr_right fun _ => ?_
  constructor
  · rintro h front declarator back sites rfl
    exact (noted_iff hproper walk).mp (h front declarator back rfl) sites
  · rintro h front declarator back rfl
    exact (noted_iff hproper walk).mpr fun sites => h front declarator back sites rfl

end LexicalWalk

/-! ## An example -/

namespace Program

/-- A variable that is declared again, with a value that reads it and then without a value. -/
def mixedTree : Node :=
  sampleNode (.other "program") 0 24 []
    [sampleNode .variableDeclaration 0 10 []
      [sampleNode .variableDeclarator 4 9 []
        [sampleNode .identifier 4 5 [.name] [],
          sampleNode (.other "number") 8 9 [.value] []]],
      sampleNode .variableDeclaration 11 24 []
        [sampleNode .variableDeclarator 15 20 []
          [sampleNode .identifier 15 16 [.name] [],
            sampleNode .identifier 19 20 [.value] []],
          sampleNode .variableDeclarator 22 23 []
            [sampleNode .identifier 22 23 [.name] []]]]

/-- The program `var x = 1; var y = x, x;`. -/
def mixed : Program :=
  ⟨"var x = 1; var y = x, x;", .javascript, mixedTree.number 0, mixedTree.nodup_ids_number 0⟩

/-- The second declaration. -/
def mixedDeclaration : Node :=
  mixed.root.children.getLastD default

/-- What the walk has seen before it. -/
def mixedWalk : LexicalWalk :=
  (LexicalWalk.statementsNamed mixed (mixed.root.children.take 1) .start).toOption.getD .start

end Program

namespace LexicalWalk

open Program

/-- The walks part there: the first declarator reads a name that the second one declares. -/
theorem statement_iff_apart_mixed : ∃ next other,
    statement mixed mixedDeclaration mixedWalk = .ok next ∧
    (apart mixedDeclaration).foldlM (fun walk single => statement mixed single walk) mixedWalk =
      .ok other ∧
    ¬ (next.scope.Related (· = ·) other.scope ∧ next.reads = other.reads ∧
      next.events = other.events) := by
  have hmem : mixedDeclaration ∈ Node.nodesAll mixed.root.children :=
    Node.mem_nodesAll (List.mem_cons_of_mem _ List.mem_cons_self)
  obtain ⟨next, hnext⟩ : ∃ next, statement mixed mixedDeclaration mixedWalk = .ok next := ⟨_, rfl⟩
  obtain ⟨other, hother, hiff⟩ := statement_iff_apart hmem rfl hnext
  refine ⟨next, other, hnext, hother, fun hsame => ?_⟩
  have hread := (hiff.mp hsame).2 [] _ _ _ rfl rfl _ List.mem_cons_self
  have hnone := hread.2 (by decide +kernel)
  revert hnone
  decide +kernel

/-- What is noted of the reads of a declaration is not what its declarators note, each as a
declaration of its own. -/
theorem statement_ne_apart : ∃ next other,
    isDeclaration mixedDeclaration = true ∧
    statement mixed mixedDeclaration mixedWalk = .ok next ∧
    (apart mixedDeclaration).foldlM (fun walk single => statement mixed single walk) mixedWalk =
      .ok other ∧
    next.reads ≠ other.reads := by
  refine ⟨_, _, rfl, rfl, rfl, ?_⟩
  decide +kernel

end LexicalWalk

end DefUse
