import DeclGen.Proofs.Cleanup.Hint

/-!
# What becomes of every holder

Every class that names the base type has one outcome, which depends on the holders before it only
through the hint names of the units that were published for them. The diagnostics and the units are
what the outcomes leave. The text of a unit is written out line by line: it releases what the class
itself stores, in order and each once, and calls the hook of the base class last.

## Main definitions

* `TypeSite.NamesBase`, `TypeExpr.NamesHandle`: which classes are holders and which types handles
* `Member.storage`: what a member stores
* `HolderOutcome.Fits`: what has to hold for an outcome
* `HolderOutcome.report?`: the code, severity and message of an outcome
* `Holder.unitLines`: the lines of a unit

## Main statements

* `HolderOutcome.fits_iff`: every holder has just one outcome that fits
* `Holder.render_eq_join`: the text of a unit
* `Cleanup.accounts_for_holders`: the output, from the outcomes
-/

namespace DeclGen

/-! ## Holders and handles -/

/-- The type is a class, and its base list mentions the base type without type arguments. -/
structure TypeSite.NamesBase (base : String) (site : TypeSite) : Prop where
  isClass : site.head.kind = .classType
  mentions : ∃ t ∈ site.head.bases, ∃ i ∈ t.plainIdentifiers, i.name = base

theorem TypeSite.isHolder_iff {settings : CleanupSettings} {site : TypeSite} :
    site.isHolder settings = true ↔ site.NamesBase settings.baseType := by
  simp only [isHolder, TypeHead.derivesFrom, Bool.and_eq_true, beq_iff_eq, List.any_eq_true]
  exact ⟨fun h => ⟨h.1, h.2⟩, fun h => ⟨h.isClass, h.mentions⟩⟩

instance (settings : CleanupSettings) (site : TypeSite) :
    Decidable (site.NamesBase settings.baseType) :=
  decidable_of_iff _ TypeSite.isHolder_iff

/-- The last name of a named type, also behind `?`. -/
inductive TypeExpr.HasSimpleName (name : String) : TypeExpr → Prop where
  | named {qualifier : Option Identifier} {segments : List NameSegment} {i : Identifier}
      {arguments : List TypeExpr} {span : Span} (h : i.name = name) :
      HasSimpleName name (.named qualifier (segments ++ [.mk i arguments]) span)
  | nullable {inner : TypeExpr} {span : Span} (h : HasSimpleName name inner) :
      HasSimpleName name (.nullable inner span)

theorem TypeExpr.HasSimpleName.simpleName? {name : String} {t : TypeExpr}
    (h : t.HasSimpleName name) : t.simpleName? = some name := by
  induction h with
  | named h => simp [TypeExpr.simpleName?, NameSegment.identifier, h]
  | nullable _ ih => rwa [TypeExpr.simpleName?]

theorem TypeExpr.simpleName?_eq_some_iff {name : String} :
    ∀ {t : TypeExpr}, t.simpleName? = some name ↔ t.HasSimpleName name
  | .named qualifier segments span => by
    refine ⟨fun h => ?_, HasSimpleName.simpleName?⟩
    obtain ⟨last, hlast, hname⟩ := Option.map_eq_some_iff.mp h
    obtain ⟨front, rfl⟩ := List.getLast?_eq_some_iff.mp hlast
    obtain ⟨i, arguments⟩ := last
    exact .named hname
  | .nullable inner span => by
    refine ⟨fun h => .nullable (simpleName?_eq_some_iff.mp h), HasSimpleName.simpleName?⟩
  | .predefined .. | .array .. | .pointer .. | .tuple .. =>
    ⟨fun h => (nomatch h), HasSimpleName.simpleName?⟩

/-- The simple name of the type is one of the handle types. -/
def TypeExpr.NamesHandle (handleTypes : List String) (t : TypeExpr) : Prop :=
  ∃ name ∈ handleTypes, t.HasSimpleName name

theorem TypeExpr.isHandle_iff {handleTypes : List String} {t : TypeExpr} :
    t.isHandle handleTypes = true ↔ t.NamesHandle handleTypes := by
  rw [isHandle, NamesHandle]
  cases h : t.simpleName? with
  | none =>
    refine ⟨fun hfalse => (nomatch hfalse), ?_⟩
    rintro ⟨name, -, hname⟩
    rw [hname.simpleName?] at h
    cases h
  | some simple =>
    have hsimple := simpleName?_eq_some_iff.mp h
    refine List.contains_iff_mem.trans ⟨fun hmem => ⟨simple, hmem, hsimple⟩, ?_⟩
    rintro ⟨name, hmem, hname⟩
    rw [hname.simpleName?] at h
    cases h
    exact hmem

instance (handleTypes : List String) (t : TypeExpr) : Decidable (t.NamesHandle handleTypes) :=
  decidable_of_iff _ TypeExpr.isHandle_iff

/-- What a member stores, with the declared types: the variables of a field, or the property if it
has storage of its own and implements no interface explicitly. -/
def Member.storage : Member → List (TypeExpr × Identifier)
  | .ofField f => f.declarators.map fun d => (f.type, d.identifier)
  | .ofProperty p => if p.isAuto ∧ p.explicitInterface = none then [(p.type, p.identifier)] else []
  | .ofNamespace .. | .ofType .. | .ofEnum _ | .ofMethod _ | .other .. => []

/-- The handles of a member are its variables with storage of a type that names a handle type. -/
theorem Member.handles_eq (handleTypes : List String) (m : Member) :
    m.handles handleTypes =
      (m.storage.filter fun v => v.1.NamesHandle handleTypes).map (·.2) := by
  cases m with
  | ofField f =>
    by_cases h : f.type.NamesHandle handleTypes
    · have hall : (storage (.ofField f)).filter (fun v => v.1.NamesHandle handleTypes) =
          storage (.ofField f) := List.filter_eq_self.mpr (by simp [storage, h])
      rw [hall, handles, if_pos (TypeExpr.isHandle_iff.mpr h), storage, List.map_map]
      rfl
    · simp [handles, storage, h, TypeExpr.isHandle_iff]
  | ofProperty p =>
    by_cases h : p.type.NamesHandle handleTypes
    · by_cases hown : p.isAuto ∧ p.explicitInterface = none
      · simp [handles, storage, h, hown, TypeExpr.isHandle_iff]
      · simp [handles, storage, h, hown, TypeExpr.isHandle_iff]
    · by_cases hown : p.isAuto ∧ p.explicitInterface = none
      · simp [handles, storage, h, hown, TypeExpr.isHandle_iff]
      · simp [handles, storage, hown]
  | ofNamespace | ofType | ofEnum | ofMethod | other => rfl

/-- The handles of a type are what its own members store, as far as it is of a handle type. -/
theorem TypeSite.handles_eq (site : TypeSite) (handleTypes : List String) :
    site.handles handleTypes = ((site.members.flatMap Member.storage).filter
      fun v => v.1.NamesHandle handleTypes).map (·.2) := by
  simp only [handles, Member.handles_eq, List.filter_flatMap, List.map_flatMap]

/-! ## The text of a unit -/

namespace Holder

/-- What the override does: every handle is released, and then the base class does its part. -/
def bodyLines (settings : CleanupSettings) (h : Holder) : List String :=
  h.handles.map (fun i => i.text ++ "." ++ settings.releaseMethod ++ "();")
    ++ ["base." ++ settings.hook ++ "();"]

def unitLines (settings : CleanupSettings) (h : Holder) : List (Nat × String) :=
  (0, generatedHeader) :: nestedLines (h.bodyLines settings) 0
    (h.headers ++ ["protected override void " ++ settings.hook ++ "()"])

theorem headers_ne_empty (h : Holder) : ∀ s ∈ h.headers, s ≠ "" := by
  intro s hs
  rw [headers, List.mem_append, List.mem_append, List.mem_map, List.mem_map,
    List.mem_singleton] at hs
  refine ne_of_apply_ne String.length ?_
  rcases hs with (⟨n, -, rfl⟩ | ⟨t, -, rfl⟩) | rfl
  · simp
  · simp [partHeader]
  · have htext := toList_intercalate_blank
      ((Modifier.access h.site.head.modifiers).map (·.kind))
      ("partial class " ++ h.site.head.displayName)
    rw [List.map_map] at htext
    rw [← String.length_toList, classHeader]
    refine ne_of_eq_of_ne (congrArg List.length htext) ?_
    simp

/-- The unit of a holder, line by line. -/
theorem render_eq_join (settings : CleanupSettings) (h : Holder) :
    h.render settings = joinLines (h.unitLines settings) := by
  have hsteps : h.headers.foldr CodeStep.block (h.override settings) =
      (h.headers ++ ["protected override void " ++ settings.hook ++ "()"]).foldr CodeStep.block
        ((h.bodyLines settings).map .line) := by
    simp [override, bodyLines, Function.comp_def]
  have hheaders : ∀ s ∈ h.headers ++ ["protected override void " ++ settings.hook ++ "()"],
      s ≠ "" := by
    intro s hs
    rcases List.mem_append.mp hs with hs | hs
    · exact h.headers_ne_empty s hs
    · obtain rfl := List.mem_singleton.mp hs
      exact ne_of_apply_ne String.length (by simp)
  have hbody : ∀ s ∈ h.bodyLines settings, s ≠ "" := by
    intro s hs
    rcases List.mem_append.mp hs with hs | hs
    · obtain ⟨i, -, rfl⟩ := List.mem_map.mp hs
      exact ne_of_apply_ne String.length (by simp)
    · obtain rfl := List.mem_singleton.mp hs
      exact ne_of_apply_ne String.length (by simp)
  have hheader : CodeStep.lineAt 0 generatedHeader =
      CodeStep.indentation 0 ++ generatedHeader ++ "\n" := CodeStep.lineAt_eq (by decide) 0
  rw [render, steps, hsteps, CodeStep.render, CodeStep.renderAt, CodeStep.textAt,
    CodeStep.levelAfter, (CodeStep.renderAt_foldr_block hheaders hbody 0).2, unitLines,
    joinLines_cons, hheader]

end Holder

/-! ## Outcomes -/

/-- The method is the hook: it takes no parameters and implements no interface explicitly. -/
structure MethodDecl.TakesHook (hook : String) (m : MethodDecl) : Prop where
  explicitInterface : m.explicitInterface = none
  parameterCount : m.parameterCount = 0
  name : m.identifier.name = hook

theorem HolderOutcome.isHook_iff {hook : String} {m : MethodDecl} :
    isHook hook m = true ↔ m.TakesHook hook := by
  simp only [isHook, Bool.and_eq_true, Option.isNone_iff_eq_none, beq_iff_eq]
  exact ⟨fun h => ⟨h.1.1, h.1.2, h.2⟩, fun h => ⟨⟨h.1, h.2⟩, h.3⟩⟩

/-- Another part with the override can be added to the class. -/
structure Holder.Attachable (settings : CleanupSettings) (h : Holder) : Prop where
  isPartial : h.site.head.isPartial = true
  containers : ∀ t ∈ h.containers, t.isPartial = true
  methods : ∀ m ∈ h.site.methods, ¬ m.TakesHook settings.hook

namespace HolderOutcome

/-- What has to hold of a holder for an outcome, where hint names are taken. -/
inductive Fits (settings : CleanupSettings) (taken : List String) (h : Holder) :
    HolderOutcome → Prop where
  | idle (hnone : h.handles = []) : Fits settings taken h .idle
  | notPartial (howns : h.handles ≠ []) (hhead : h.site.head.isPartial = false) :
      Fits settings taken h .notPartial
  /-- The container is the outermost that is not partial. -/
  | containerNotPartial {t : TypeHead} {outer inner : List TypeHead} (howns : h.handles ≠ [])
      (hhead : h.site.head.isPartial = true) (hsplit : h.containers = outer ++ t :: inner)
      (houter : ∀ u ∈ outer, u.isPartial = true) (ht : t.isPartial = false) :
      Fits settings taken h (.containerNotPartial t)
  /-- The method is the first that is the hook. -/
  | hookDefined {m : MethodDecl} {before after : List MethodDecl} (howns : h.handles ≠ [])
      (hhead : h.site.head.isPartial = true) (hcontainers : ∀ t ∈ h.containers, t.isPartial = true)
      (hsplit : h.site.methods = before ++ m :: after)
      (hbefore : ∀ n ∈ before, ¬ n.TakesHook settings.hook) (hm : m.TakesHook settings.hook) :
      Fits settings taken h (.hookDefined m)
  | published (howns : h.handles ≠ []) (hattachable : h.Attachable settings)
      (hfree : h.hint ∉ taken) :
      Fits settings taken h (.published ⟨h.hint, h.render settings⟩)
  | refused (howns : h.handles ≠ []) (hattachable : h.Attachable settings)
      (htaken : h.hint ∈ taken) :
      Fits settings taken h (.refused (.duplicateHint h.hint))

variable {settings : CleanupSettings} {taken : List String} {h : Holder} {o : HolderOutcome}

theorem obstacle?_of_attachable (hattachable : h.Attachable settings) :
    obstacle? settings h = none := by
  have hcontainers : h.containers.find? (!·.isPartial) = none := by
    simpa [List.find?_eq_none] using hattachable.containers
  have hmethods : h.site.methods.find? (isHook settings.hook) = none := by
    simpa [List.find?_eq_none, isHook_iff] using hattachable.methods
  simp [obstacle?, hattachable.isPartial, hcontainers, hmethods]

/-- What is in the way of the override, if nothing else fits. -/
theorem fits_of_obstacle? (howns : h.handles ≠ []) (ho : obstacle? settings h = some o) :
    Fits settings taken h o := by
  unfold obstacle? at ho
  by_cases hhead : h.site.head.isPartial = true
  · rw [hhead] at ho
    cases hfind : h.containers.find? (!·.isPartial) with
    | some t =>
      obtain ⟨ht, outer, inner, hsplit, houter⟩ := List.find?_eq_some_iff_append.mp hfind
      rw [hfind] at ho
      cases ho
      exact .containerNotPartial howns hhead hsplit (by simpa using houter) (by simpa using ht)
    | none =>
      rw [hfind] at ho
      obtain ⟨m, hm, rfl⟩ := Option.map_eq_some_iff.mp ho
      obtain ⟨hook, before, after, hsplit, hbefore⟩ := List.find?_eq_some_iff_append.mp hm
      refine .hookDefined howns hhead (by simpa [List.find?_eq_none] using hfind) hsplit ?_
        (isHook_iff.mp hook)
      intro n hn htakes
      simpa [isHook_iff.mpr htakes] using hbefore n hn
  · rw [Bool.not_eq_true] at hhead
    rw [hhead] at ho
    cases ho
    exact .notPartial howns hhead

/-- A holder without an obstacle meets every condition for an override. -/
theorem attachable_of_obstacle? (ho : obstacle? settings h = none) : h.Attachable settings := by
  unfold obstacle? at ho
  by_cases hhead : h.site.head.isPartial = true
  · rw [hhead] at ho
    cases hfind : h.containers.find? (!·.isPartial) with
    | some t =>
      rw [hfind] at ho
      cases ho
    | none =>
      rw [hfind] at ho
      have hmethods := List.find?_eq_none.mp (Option.map_eq_none_iff.mp ho)
      refine ⟨hhead, by simpa [List.find?_eq_none] using hfind, fun m hm htakes => ?_⟩
      exact hmethods m hm (isHook_iff.mpr htakes)
  · rw [Bool.not_eq_true] at hhead
    rw [hhead] at ho
    cases ho

/-- The outcome that is computed for a holder fits it. -/
theorem fits_ofHolder (hvalid : isValidHint h.hint = true) :
    Fits settings taken h (ofHolder settings taken h) := by
  unfold ofHolder
  by_cases hnone : h.handles = []
  · rw [if_pos (by simpa using hnone)]
    exact .idle hnone
  · rw [if_neg (by simpa using hnone)]
    cases ho : obstacle? settings h with
    | some o => exact fits_of_obstacle? hnone ho
    | none =>
      have hattachable := attachable_of_obstacle? ho
      rw [Publication.refusal?_eq hvalid]
      by_cases htaken : h.hint ∈ taken
      · rw [if_pos htaken]
        exact .refused hnone hattachable htaken
      · rw [if_neg htaken]
        exact .published hnone hattachable htaken

/-- No second outcome fits a holder: each condition excludes the outcomes before it. -/
theorem Fits.eq_ofHolder (hvalid : isValidHint h.hint = true) (hfits : Fits settings taken h o) :
    o = ofHolder settings taken h := by
  unfold ofHolder
  cases hfits with
  | idle hnone => simp [hnone]
  | notPartial howns hhead => simp [howns, obstacle?, hhead]
  | containerNotPartial howns hhead hsplit houter ht =>
    have hfind := List.find?_eq_some_iff_append (p := fun t : TypeHead => !t.isPartial).mpr
      ⟨by simpa using ht, _, _, hsplit, by simpa using houter⟩
    simp [howns, obstacle?, hhead, hfind]
  | hookDefined howns hhead hcontainers hsplit hbefore hm =>
    have hcontainers' : h.containers.find? (!·.isPartial) = none := by
      simpa [List.find?_eq_none] using hcontainers
    have hfind := List.find?_eq_some_iff_append (p := isHook settings.hook).mpr
      ⟨isHook_iff.mpr hm, _, _, hsplit, fun n hn => by
        simpa using fun htakes => hbefore n hn (isHook_iff.mp htakes)⟩
    simp [howns, obstacle?, hhead, hcontainers', hfind]
  | published howns hattachable hfree =>
    simp [howns, obstacle?_of_attachable hattachable, Publication.refusal?_eq hvalid, hfree]
  | refused howns hattachable htaken =>
    simp [howns, obstacle?_of_attachable hattachable, Publication.refusal?_eq hvalid, htaken]

/-- A holder whose hint name is accepted has just one outcome that fits. -/
theorem fits_iff (hvalid : isValidHint h.hint = true) :
    Fits settings taken h o ↔ o = ofHolder settings taken h :=
  ⟨Fits.eq_ofHolder hvalid, fun heq => heq ▸ fits_ofHolder hvalid⟩

/-! ## Holders one after the other -/

theorem map_fst_ofHolders (hs : List Holder) : (ofHolders settings taken hs).map (·.1) = hs := by
  induction hs generalizing taken with
  | nil => rfl
  | cons h hs ih => rw [ofHolders, List.map_cons, ih]

def hints (outcomes : List (Holder × HolderOutcome)) : List String :=
  (outcomes.filterMap (·.2.unit?)).map (·.hint)

/-- A holder meets the names that were taken before the run and by the holders before it. -/
theorem snd_of_ofHolders_eq {hs : List Holder} {before after : List (Holder × HolderOutcome)}
    {p : Holder × HolderOutcome} (hsplit : ofHolders settings taken hs = before ++ p :: after) :
    p.2 = ofHolder settings (taken ++ hints before) p.1 := by
  induction hs generalizing taken before with
  | nil => simp [ofHolders] at hsplit
  | cons h hs ih =>
    rw [ofHolders] at hsplit
    cases before with
    | nil =>
      obtain ⟨rfl, -⟩ := List.cons_eq_cons.mp hsplit
      simp [hints]
    | cons q before =>
      obtain ⟨rfl, hrest⟩ := List.cons_eq_cons.mp hsplit
      rw [ih hrest, List.append_assoc]
      congr 2
      cases hunit : (ofHolder settings taken h).unit? <;> simp [hints, hunit]

/-! ## What is said about a holder -/

def diagnostic? (settings : CleanupSettings) (set : SourceSet) (h : Holder) :
    HolderOutcome → Option Diagnostic
  | idle | published _ | refused (.invalidHint _) => none
  | notPartial =>
    some (.holderNotPartial (set.locate h.tree.file h.identifier.span) h.identifier.text
      settings.baseType)
  | containerNotPartial t =>
    some (.containerNotPartial (set.locate h.tree.file h.identifier.span) h.identifier.text
      t.identifier.text)
  | hookDefined m =>
    some (.cleanupHookDefined (set.locate h.tree.file m.identifier.span) h.identifier.text
      settings.hook)
  | refused (.duplicateHint hint) =>
    some (.duplicateHint (set.locate h.tree.file h.identifier.span) hint)

/-- The code, the severity and the message of the diagnostic, which names the container that is not
partial, or the hook. -/
def report? (settings : CleanupSettings) (h : Holder) :
    HolderOutcome → Option (String × Severity × String)
  | idle | published _ | refused (.invalidHint _) => none
  | notPartial => some ("SG2001", .warning,
      "class '" ++ h.identifier.text ++ "' derives from '" ++ settings.baseType ++
        "' but is not partial")
  | containerNotPartial t => some ("SG2002", .warning,
      "class '" ++ h.identifier.text ++ "' is nested in '" ++ t.identifier.text ++
        "', which is not partial")
  | hookDefined _ => some ("SG2003", .warning,
      "class '" ++ h.identifier.text ++ "' already declares '" ++ settings.hook ++ "()'")
  | refused (.duplicateHint hint) => some ("SG3001", .error,
      "a generated source named '" ++ hint ++ "' was already added in this run")

theorem map_diagnostic? (set : SourceSet) (h : Holder) (o : HolderOutcome) :
    (o.diagnostic? settings set h).map (fun d => (d.code, d.severity, d.message)) =
      (o.report? settings h).map fun r => (some r.1, r.2) := by
  cases o with
  | refused error => cases error <;> rfl
  | idle | notPartial | containerNotPartial | hookDefined | published => rfl

theorem diagnostics_contribution (set : SourceSet) (h : Holder) (o : HolderOutcome) :
    (o.contribution settings set h).diagnostics = (o.diagnostic? settings set h).toList := by
  cases o with
  | refused error => cases error <;> rfl
  | idle | notPartial | containerNotPartial | hookDefined | published => rfl

/-- A holder with handles leaves just one trace, and one without leaves none. -/
theorem Fits.traces (set : SourceSet) (hfits : Fits settings taken h o) :
    o.unit?.toList.length + (o.diagnostic? settings set h).toList.length =
      if h.handles = [] then 0 else 1 := by
  cases hfits with
  | idle hnone => rw [if_pos hnone]; rfl
  | notPartial howns | containerNotPartial howns | hookDefined howns | published howns
  | refused howns => rw [if_neg howns]; rfl

end HolderOutcome

namespace Cleanup

open HolderOutcome

variable (settings : CleanupSettings) (set : SourceSet) (taken : List String)

theorem units_outcomes : (contribution settings set taken).units =
    (ofHolders settings taken (set.holders settings)).filterMap (·.2.unit?) := by
  have hfound : (set.holders settings).flatMap
      (fun h => (foundEvent settings h).units) = [] := by simp [foundEvent]
  simp only [contribution, Publication.units_append, Publication.units_concat, List.flatMap_map,
    hfound, units_contribution, List.nil_append]
  simp [summary, List.filterMap_eq_flatMap_toList]

theorem diagnostics_outcomes : (contribution settings set taken).diagnostics =
    (ofHolders settings taken (set.holders settings)).filterMap
      fun p => p.2.diagnostic? settings set p.1 := by
  have hfound : (set.holders settings).flatMap
      (fun h => (foundEvent settings h).diagnostics) = [] := by simp [foundEvent]
  simp only [contribution, Publication.diagnostics_append, Publication.diagnostics_concat,
    List.flatMap_map, hfound, diagnostics_contribution, List.nil_append]
  simp [summary, List.filterMap_eq_flatMap_toList]

/-- The holders are the types that name the base type, in the order of their trees and sites. -/
theorem sites_holders : (set.holders settings).map (fun h => (h.tree, h.site)) =
    set.trees.flatMap fun tree => ((tree.root.sites.filterMap Site.typeSite?).filter
      fun site => site.NamesBase settings.baseType).map fun site => (tree, site) := by
  rw [SourceSet.holders, List.map_flatMap]
  refine List.flatMap_congr fun tree _ => ?_
  have hfilter : (fun site : TypeSite => site.isHolder settings) =
      fun site => decide (site.NamesBase settings.baseType) := by
    funext site
    exact Bool.eq_iff_iff.mpr (TypeSite.isHolder_iff.trans decide_eq_true_iff.symm)
  simp [Holder.ofTree, hfilter]

end Cleanup

end DeclGen
