import DeclGen.Generator
import DeclGen.Proofs.Origins

/-!
# Other numbers for the same files

The number of a file decides nothing but where its diagnostics point. If the trees of a run get
other numbers, and every number stands for the same file as before, the run publishes the same units
and its diagnostics are the same up to the numbers.

## Main definitions

* `Diagnostic.renumber`, `Publication.renumber`: what a run leaves, with other file numbers
* `SourceSet.Renumbers`: the same trees of the same files under other numbers

## Main statements

* `Generator.run_renumber`: a run on sources with other file numbers
-/

namespace DeclGen

variable (ρ : FileId → FileId)

/-! ## Diagnostics -/

def Location.renumber (a : Location) : Location := { a with file := ρ a.file }

def Label.renumber (l : Label) : Label := { l with location := l.location.renumber ρ }

def Suggestion.renumber (s : Suggestion) : Suggestion :=
  { s with location := s.location.renumber ρ }

def Diagnostic.renumber (d : Diagnostic) : Diagnostic :=
  { d with
    location := d.location.renumber ρ
    labels := d.labels.map (·.renumber ρ)
    suggestions := d.suggestions.map (·.renumber ρ) }

namespace Publication

def renumber (p : Publication) : Publication :=
  { p with diagnostics := p.diagnostics.map (·.renumber ρ) }

@[simp] theorem renumber_append (p q : Publication) :
    (p ++ q).renumber ρ = p.renumber ρ ++ q.renumber ρ := by
  have happend : (p.diagnostics ++ q.diagnostics).map (·.renumber ρ) =
      p.diagnostics.map (·.renumber ρ) ++ q.diagnostics.map (·.renumber ρ) := List.map_append
  exact congrArg (Publication.mk (p.units ++ q.units) · (p.events ++ q.events)) happend

/-- Without diagnostics there is nothing to renumber. -/
theorem renumber_eq_self {p : Publication} (h : p.diagnostics = []) : p.renumber ρ = p := by
  rw [renumber, h]
  exact congrArg (Publication.mk p.units · p.events) h.symm

@[simp] theorem renumber_empty : empty.renumber ρ = empty := rfl

@[simp] theorem renumber_concat (ps : List Publication) :
    (concat ps).renumber ρ = concat (ps.map (·.renumber ρ)) := by
  induction ps with
  | nil => rfl
  | cons p ps ih =>
    have hcons (q : Publication) (qs : List Publication) : concat (q :: qs) = q ++ concat qs := rfl
    rw [hcons, renumber_append, ih, List.map_cons, hcons]

@[simp] theorem renumber_ofEvent (level : LogLevel) (target message : String) :
    (ofEvent level target message).renumber ρ = ofEvent level target message := rfl

@[simp] theorem renumber_ofDiagnostic (d : Diagnostic) :
    (ofDiagnostic d).renumber ρ = ofDiagnostic (d.renumber ρ) := rfl

@[simp] theorem hints_renumber (p : Publication) : (p.renumber ρ).hints = p.hints := rfl

end Publication

/-! ## Sources -/

def SyntaxTree.renumber (t : SyntaxTree) : SyntaxTree := { t with file := ρ t.file }

def LocatedEnum.renumber (e : LocatedEnum) : LocatedEnum := { e with tree := e.tree.renumber ρ }

def EnumTarget.renumber (t : EnumTarget) : EnumTarget := { t with tree := t.tree.renumber ρ }

def Holder.renumber (h : Holder) : Holder := { h with tree := h.tree.renumber ρ }

/-- The second sources have the trees of the first under new numbers, and a new number stands for
the same file in its registry as the old one. -/
structure SourceSet.Renumbers (set set' : SourceSet) : Prop where
  trees : set'.trees = set.trees.map (·.renumber ρ)
  file? : ∀ tree ∈ set.trees, set'.registry.file? (ρ tree.file) = set.registry.file? tree.file

namespace SourceSet.Renumbers

variable {ρ} {set set' : SourceSet}

theorem locate (h : set.Renumbers ρ set') {tree : SyntaxTree} (htree : tree ∈ set.trees)
    (span : Span) :
    set'.locate (tree.renumber ρ).file span = (set.locate tree.file span).renumber ρ := by
  have hfile : set'.registry.file? (tree.renumber ρ).file = set.registry.file? tree.file :=
    h.file? tree htree
  rw [SourceSet.locate, SourceSet.locate, Registry.locate?, Registry.locate?, hfile]
  cases set.registry.file? tree.file <;> rfl

theorem enums (h : set.Renumbers ρ set') : set'.enums = set.enums.map (·.renumber ρ) := by
  rw [SourceSet.enums, SourceSet.enums, h.trees, List.flatMap_map, List.map_flatMap]
  simp only [List.map_map]
  rfl

theorem holders (h : set.Renumbers ρ set') (settings : CleanupSettings) :
    set'.holders settings = (set.holders settings).map (·.renumber ρ) := by
  rw [SourceSet.holders, SourceSet.holders, h.trees, List.flatMap_map, List.map_flatMap]
  simp only [Holder.ofTree, List.map_map]
  rfl

end SourceSet.Renumbers

/-! ## Enums -/

namespace EnumVerdict

def renumber : EnumVerdict → EnumVerdict
  | hidden => hidden
  | malformed error => malformed error
  | repeated path first => repeated path (first.renumber ρ)
  | target t => target (t.renumber ρ)

theorem target?_renumber (v : EnumVerdict) :
    (v.renumber ρ).target? = v.target?.map (·.renumber ρ) := by
  cases v <;> rfl

theorem ofSite_renumber (before : List EnumTarget) (e : LocatedEnum) :
    ofSite (before.map (·.renumber ρ)) (e.renumber ρ) = (ofSite before e).renumber ρ := by
  have hsite : (e.renumber ρ).site = e.site := rfl
  unfold ofSite
  rw [hsite]
  cases e.site.access with
  | error error => rfl
  | ok visibility? =>
    cases visibility? with
    | none => rfl
    | some visibility =>
      have hfind : (before.map (·.renumber ρ)).find?
            (·.path.path == e.site.canonicalPath.path) =
          (before.find? (·.path.path == e.site.canonicalPath.path)).map (·.renumber ρ) := by
        rw [List.find?_map]
        rfl
      simp only [hfind]
      cases before.find? (·.path.path == e.site.canonicalPath.path) <;> rfl

theorem ofSites_renumber (before : List EnumTarget) (es : List LocatedEnum) :
    ofSites (before.map (·.renumber ρ)) (es.map (·.renumber ρ)) =
      (ofSites before es).map fun p => (p.1.renumber ρ, p.2.renumber ρ) := by
  induction es generalizing before with
  | nil => rfl
  | cons e es ih =>
    have hbefore : before.map (·.renumber ρ) ++ ((ofSite before e).renumber ρ).target?.toList =
        (before ++ (ofSite before e).target?.toList).map (·.renumber ρ) := by
      rw [target?_renumber, List.map_append]
      cases (ofSite before e).target? <;> rfl
    rw [List.map_cons, ofSites, ofSites, List.map_cons, ofSite_renumber, hbefore, ih]

end EnumVerdict

section

variable {ρ} {set set' : SourceSet} (h : set.Renumbers ρ set')

include h

theorem EnumTarget.location_renumber {t : EnumTarget} (ht : t.tree ∈ set.trees) :
    (t.renumber ρ).location set' = (t.location set).renumber ρ :=
  h.locate ht t.decl.identifier.span

/-- What is said about an enum is said about the file with the new number. -/
theorem EnumVerdict.contribution_renumber (settings : EnumSettings)
    {p : LocatedEnum × EnumVerdict} (hp : p ∈ ofSites [] set.enums) :
    (p.2.renumber ρ).contribution settings set' (p.1.renumber ρ) =
      (p.2.contribution settings set p.1).renumber ρ := by
  have htree := SourceSet.tree_mem_of_mem_enums (fst_mem_of_mem_ofSites hp)
  obtain ⟨e, v⟩ := p
  cases v with
  | hidden | target => rfl
  | malformed error =>
    have hplace := h.locate htree error.span
    exact congrArg (fun place => Publication.ofDiagnostic (.malformedDeclaration place _ _)) hplace
  | repeated path first =>
    obtain ⟨kept, hkept, hfirst⟩ := exists_of_repeated hp
    have hkeptTree : first.tree ∈ set.trees := by
      rw [(LocatedEnum.parts_of_target? hfirst).1]
      exact SourceSet.tree_mem_of_mem_enums hkept
    have hplace := h.locate htree e.site.decl.identifier.span
    have hother := EnumTarget.location_renumber h hkeptTree
    cases hpolicy : settings.duplicatePaths with
    | silent => simp [renumber, contribution, hpolicy, LocatedEnum.renumber, SyntaxTree.renumber]
    | warn =>
      simp only [renumber, contribution, hpolicy, Publication.renumber_append,
        Publication.renumber_ofEvent, Publication.renumber_ofDiagnostic]
      refine congrArg (_ ++ Publication.ofDiagnostic ·) ?_
      exact congrArg₂ (Diagnostic.duplicatePath · path ·) hplace hother

theorem EnumTarget.contribution_renumber (evaluator : Evaluator) {t : EnumTarget}
    (ht : t.tree ∈ set.trees) :
    (t.renumber ρ).contribution set' evaluator = (t.contribution set evaluator).renumber ρ := by
  have hevents : (Publication.concat ((t.decl.numbering evaluator).ordinals.map
      t.ordinalEvent)).diagnostics = [] := by simp [ordinalEvent]
  have hdecl : (t.renumber ρ).decl.numbering evaluator = t.decl.numbering evaluator := rfl
  unfold contribution
  simp only [hdecl, Publication.renumber_append, Publication.renumber_eq_self ρ hevents]
  refine congrArg (_ ++ ·) ?_
  cases (t.decl.numbering evaluator).failure with
  | none => rfl
  | some failure =>
    have hplace := h.locate ht ((failure.member.initializer.map (·.span)).getD failure.member.span)
    exact congrArg (fun l => Publication.ofDiagnostic (.unresolvableConstant l _ _ _)) hplace

theorem EnumNames.targets_renumber : targets set' = (targets set).map (·.renumber ρ) := by
  have hsites := EnumVerdict.ofSites_renumber ρ [] set.enums
  rw [targets, targets, h.enums, ← List.map_nil (f := fun t : EnumTarget => t.renumber ρ), hsites,
    List.filterMap_map, List.map_filterMap]
  exact List.filterMap_congr fun p _ => EnumVerdict.target?_renumber ρ p.2

omit h in
theorem EnumNames.tree_mem_of_mem_targets {t : EnumTarget} (ht : t ∈ targets set) :
    t.tree ∈ set.trees := by
  obtain ⟨e, he, hsome⟩ := EnumVerdict.exists_of_mem_targets ht
  rw [(LocatedEnum.parts_of_target? hsome).1]
  exact SourceSet.tree_mem_of_mem_enums he

theorem EnumNames.extensions_renumber (evaluator : Evaluator) :
    extensions set' evaluator = extensions set evaluator := by
  rw [extensions, extensions, targets_renumber h, List.filterMap_map]
  rfl

/-- The unit does not depend on the numbers; the report that its name is taken has a location. -/
theorem EnumNames.publishing_renumber (settings : EnumSettings) (taken : List String)
    (xs : List EnumExtension) :
    publishing settings set' taken xs = (publishing settings set taken xs).renumber ρ := by
  unfold publishing
  cases Publication.refusal? taken hint with
  | none => rfl
  | some error =>
    cases error with
    | invalidHint name => rfl
    | duplicateHint name =>
      simp only [targets_renumber h]
      cases htargets : targets set with
      | nil => rfl
      | cons t ts =>
        have ht : t ∈ targets set := htargets ▸ List.mem_cons_self
        have hplace := EnumTarget.location_renumber h (tree_mem_of_mem_targets ht)
        exact congrArg (fun place => Publication.ofDiagnostic (.duplicateHint place name)) hplace

theorem EnumNames.conclusion_renumber (settings : EnumSettings) (taken : List String)
    (xs : List EnumExtension) :
    conclusion settings set' taken xs = (conclusion settings set taken xs).renumber ρ := by
  cases xs with
  | nil => rfl
  | cons x xs =>
    have hevents : (Publication.concat ((x :: xs).map armEvents)).diagnostics = [] := by
      simp [armEvents]
    simp only [conclusion, Publication.renumber_append, Publication.renumber_ofEvent,
      Publication.renumber_eq_self ρ hevents, publishing_renumber h]

/-- What the enums add is the same up to the file numbers. -/
theorem EnumNames.contribution_renumber (settings : EnumSettings) (evaluator : Evaluator)
    (taken : List String) :
    contribution settings set' evaluator taken =
      (contribution settings set evaluator taken).renumber ρ := by
  have hsites := EnumVerdict.ofSites_renumber ρ [] set.enums
  have hverdicts : (EnumVerdict.ofSites [] set'.enums).map
        (fun p => p.2.contribution settings set' p.1) =
      (EnumVerdict.ofSites [] set.enums).map
        fun p => (p.2.contribution settings set p.1).renumber ρ := by
    rw [h.enums, ← List.map_nil (f := fun t : EnumTarget => t.renumber ρ), hsites, List.map_map]
    exact List.map_congr_left fun p hp => EnumVerdict.contribution_renumber h settings hp
  have htargets : (targets set').map (·.contribution set' evaluator) =
      (targets set).map fun t => (t.contribution set evaluator).renumber ρ := by
    rw [targets_renumber h, List.map_map]
    exact List.map_congr_left fun t ht =>
      EnumTarget.contribution_renumber h evaluator (tree_mem_of_mem_targets ht)
  simp only [contribution, hverdicts, htargets, extensions_renumber h, conclusion_renumber h,
    Publication.renumber_append, Publication.renumber_concat, List.map_map, Function.comp_def]

/-! ## Holders -/

/-- The number of a file shows in locations only. -/
theorem HolderOutcome.contribution_renumber (settings : CleanupSettings) {x : Holder}
    (hx : x.tree ∈ set.trees) (o : HolderOutcome) :
    o.contribution settings set' (x.renumber ρ) = (o.contribution settings set x).renumber ρ := by
  have hplace := h.locate hx x.identifier.span
  cases o with
  | idle | published => rfl
  | notPartial =>
    exact congrArg (fun place => Publication.ofDiagnostic (.holderNotPartial place _ _)) hplace
  | containerNotPartial container =>
    exact congrArg (fun place => Publication.ofDiagnostic (.containerNotPartial place _ _)) hplace
  | hookDefined method =>
    have hplace := h.locate hx method.identifier.span
    exact congrArg (fun place => Publication.ofDiagnostic (.cleanupHookDefined place _ _)) hplace
  | refused error =>
    cases error with
    | invalidHint hint => rfl
    | duplicateHint hint =>
      exact congrArg (fun place => Publication.ofDiagnostic (.duplicateHint place hint)) hplace

omit h in
theorem HolderOutcome.ofHolders_renumber (settings : CleanupSettings) (taken : List String)
    (xs : List Holder) :
    ofHolders settings taken (xs.map (·.renumber ρ)) =
      (ofHolders settings taken xs).map fun p => (p.1.renumber ρ, p.2) := by
  have hsame (taken : List String) (x : Holder) :
      ofHolder settings taken (x.renumber ρ) = ofHolder settings taken x := rfl
  induction xs generalizing taken with
  | nil => rfl
  | cons x xs ih => rw [List.map_cons, ofHolders, ofHolders, List.map_cons, hsame, ih]

/-- What the holders add is the same up to the file numbers. -/
theorem Cleanup.contribution_renumber (settings : CleanupSettings) (taken : List String) :
    contribution settings set' taken = (contribution settings set taken).renumber ρ := by
  have hfound : (Publication.concat
      ((set.holders settings).map (foundEvent settings))).diagnostics = [] := by
    simp [foundEvent]
  have hsame : (set'.holders settings).map (foundEvent settings) =
      (set.holders settings).map (foundEvent settings) := by
    rw [h.holders, List.map_map]
    rfl
  have houtcomes : (HolderOutcome.ofHolders settings taken (set'.holders settings)).map
        (fun p => p.2.contribution settings set' p.1) =
      (HolderOutcome.ofHolders settings taken (set.holders settings)).map
        fun p => (p.2.contribution settings set p.1).renumber ρ := by
    rw [h.holders, HolderOutcome.ofHolders_renumber, List.map_map]
    refine List.map_congr_left fun p hp => ?_
    have htree := SourceSet.tree_mem_of_mem_holders (HolderOutcome.mem_of_mem_ofHolders hp).1
    exact HolderOutcome.contribution_renumber h settings htree p.2
  have hoverview : (HolderOutcome.ofHolders settings taken (set'.holders settings)).map (·.2) =
      (HolderOutcome.ofHolders settings taken (set.holders settings)).map (·.2) := by
    rw [h.holders, HolderOutcome.ofHolders_renumber, List.map_map]
    rfl
  simp only [contribution, hsame, houtcomes, hoverview, Publication.renumber_append,
    Publication.renumber_concat, List.map_map, Function.comp_def,
    Publication.renumber_eq_self ρ hfound]
  rfl

/-! ## Runs -/

theorem Generator.contribution_renumber (evaluator : Evaluator) (taken : List String)
    (g : Generator) :
    g.contribution set' evaluator taken =
      (g.contribution set evaluator taken).renumber ρ := by
  cases g with
  | enumNames settings => exact EnumNames.contribution_renumber h settings evaluator taken
  | cleanup settings => exact Cleanup.contribution_renumber h settings taken
  | fixed unit =>
    simp only [contribution]
    cases Publication.refusal? taken unit.hint <;> rfl

theorem Generator.runAfter_renumber (evaluator : Evaluator) (p : Publication) (g : Generator) :
    runAfter set' evaluator (p.renumber ρ) g = (runAfter set evaluator p g).renumber ρ := by
  have hsummary (added : Publication) : g.summary (added.renumber ρ) = g.summary added := by
    simp [summary, Publication.renumber]
  have hevent (added : Publication) : (g.summary added).renumber ρ = g.summary added := rfl
  simp only [runAfter, Publication.hints_renumber, contribution_renumber h, hsummary,
    Publication.renumber_append, hevent]

/-- On the same files under other numbers a run publishes the same units, and its diagnostics and
events are the same up to the numbers. -/
theorem Generator.run_renumber (generators : List Generator) (evaluator : Evaluator) :
    run generators set' evaluator = (run generators set evaluator).renumber ρ := by
  have hfold (p : Publication) : generators.foldl (runAfter set' evaluator) (p.renumber ρ) =
      (generators.foldl (runAfter set evaluator) p).renumber ρ := by
    induction generators generalizing p with
    | nil => rfl
    | cons g generators ih => rw [List.foldl_cons, List.foldl_cons, runAfter_renumber h, ih]
  exact hfold .empty

end

end DeclGen
