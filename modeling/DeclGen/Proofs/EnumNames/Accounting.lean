import DeclGen.EnumNames.Contribution
import DeclGen.Proofs.Code
import DeclGen.Proofs.Publication
import Mathlib.Data.List.Basic

/-!
# What becomes of every enum

Every enum of the sources has one outcome, which depends on the enums before it only through the
paths of those that can be seen. The diagnostics and the unit say just what the outcomes say: an
enum that is hidden, malformed or has no values takes nothing away from the others. The text of the
unit is written out line by line.

## Main definitions

* `EnumOutcome`, `LocatedEnum.outcome`: what becomes of an enum, given the enums before it
* `EnumOutcome.method?`, `EnumOutcome.diagnostic?`: what it leaves in the output
* `EnumExtension.methodLines`, `EnumExtension.unitLines`: the lines of a method and of the unit

## Main statements

* `EnumExtension.render_eq_join`: the text of the unit
* `EnumVerdict.map_outcome_ofSites`: the verdicts are reached without the enums that are no targets
* `EnumNames.contribution_accounts`: the output, from the outcomes
-/

namespace DeclGen

/-- What becomes of an enum in the end. -/
inductive EnumOutcome where
  /-- It cannot be seen. -/
  | hidden
  /-- Its accessibility cannot be told. -/
  | malformed (error : AccessError)
  /-- An earlier enum that can be seen has its path. -/
  | repeated (first : EnumTarget)
  /-- One of its members has no value. -/
  | unresolved (target : EnumTarget) (failure : OrdinalFailure)
  /-- It gets a method. -/
  | extended (method : EnumExtension)

namespace LocatedEnum

def target? (e : LocatedEnum) : Option EnumTarget :=
  match e.site.access with
  | .ok (some visibility) => some ⟨e.tree, e.site.decl, visibility, e.site.canonicalPath⟩
  | .ok none | .error _ => none

def outcome (evaluator : Evaluator) (earlier : List LocatedEnum) (e : LocatedEnum) : EnumOutcome :=
  match e.site.access with
  | .error error => .malformed error
  | .ok none => .hidden
  | .ok (some visibility) =>
    let path := e.site.canonicalPath
    match (earlier.filterMap target?).find? (·.path.path == path.path) with
    | some first => .repeated first
    | none =>
      match e.site.decl.ordinals evaluator with
      | .error failure => .unresolved ⟨e.tree, e.site.decl, visibility, path⟩ failure
      | .ok ordinals =>
        .extended ⟨visibility, path, (Ordinal.distinct ordinals).map (·.member.identifier.text)⟩

end LocatedEnum

namespace EnumOutcome

def method? : EnumOutcome → Option EnumExtension
  | extended method => some method
  | hidden | malformed _ | repeated _ | unresolved _ _ => none

def isUnresolved : EnumOutcome → Bool
  | unresolved _ _ => true
  | hidden | malformed _ | repeated _ | extended _ => false

def diagnostic? (settings : EnumSettings) (set : SourceSet) (e : LocatedEnum) :
    EnumOutcome → Option Diagnostic
  | hidden | extended _ => none
  | malformed error =>
    some (.malformedDeclaration (set.locate e.tree.file error.span) e.site.decl.identifier.text
      error.reason)
  | repeated first =>
    match settings.duplicatePaths with
    | .silent => none
    | .warn =>
      some (.duplicatePath (set.locate e.tree.file e.site.decl.identifier.span)
        e.site.canonicalPath.path (first.location set))
  | unresolved target failure => some (target.failureDiagnostic set failure)

def report? (settings : EnumSettings) : EnumOutcome → Option (String × Severity)
  | hidden | extended _ => none
  | malformed _ => some ("SG1001", .error)
  | repeated _ =>
    match settings.duplicatePaths with
    | .silent => none
    | .warn => some ("SG1002", .warning)
  | unresolved _ _ => some ("SG1003", .error)

theorem map_diagnostic? (settings : EnumSettings) (set : SourceSet) (e : LocatedEnum)
    (o : EnumOutcome) : (o.diagnostic? settings set e).map (fun d => (d.code, d.severity)) =
      (o.report? settings).map (fun r => (some r.1, r.2)) := by
  cases o with
  | repeated first =>
    unfold diagnostic? report?
    cases settings.duplicatePaths <;> rfl
  | hidden | extended | malformed | unresolved => rfl

end EnumOutcome

/-- A method has the visibility and the path of its enum. -/
theorem LocatedEnum.parts_of_method? {evaluator : Evaluator} {earlier : List LocatedEnum}
    {e : LocatedEnum} {x : EnumExtension} (h : (e.outcome evaluator earlier).method? = some x) :
    e.site.access = .ok (some x.visibility) ∧ x.path = e.site.canonicalPath := by
  unfold outcome at h
  split at h
  · cases h
  · cases h
  · rename_i visibility haccess
    dsimp only at h
    split at h
    · cases h
    · split at h
      · cases h
      · cases h
        exact ⟨haccess, rfl⟩

/-! ## The text of the unit -/

namespace EnumExtension

open CodeStep

variable {x : EnumExtension} {methodName : String}

/-- The head of the method of an enum: the visibility, the type parameters and the enum as it is
named from the global namespace. -/
def headLine (methodName : String) (x : EnumExtension) : String :=
  (match x.visibility with
    | .publicMethod => "public"
    | .internalMethod => "internal") ++
  " static string " ++ methodName ++
  (match x.path.typeParameters with
    | [] => ""
    | names => "<" ++ ", ".intercalate names ++ ">") ++
  "(this global::" ++ x.path.path ++ " @enum)"

/-- The arm of a member, which is the path of the enum, a dot and the name of the member. -/
def armLine (x : EnumExtension) (member : String) : String :=
  "global::" ++ x.path.path ++ "." ++ member ++
    " => nameof(global::" ++ x.path.path ++ "." ++ member ++ "),"

def lastArm : String :=
  "_ => throw new System.ArgumentOutOfRangeException(nameof(@enum), @enum, null)"

/-- The lines of a method with an arm for each of the members, with the level of each line. -/
def methodLines (methodName : String) (level : Nat) (x : EnumExtension) : List (Nat × String) :=
  (level, x.headLine methodName) :: (level, "\x7b") ::
    (level + 1, "return @enum switch") :: (level + 1, "\x7b") ::
      x.members.map (fun m => (level + 2, x.armLine m)) ++
        [(level + 2, lastArm), (level + 1, "\x7d;"), (level, "\x7d")]

/-- The lines of the unit: a comment, and one static class in one namespace that has the methods in
their order, with an empty line between two of them. -/
def unitLines (settings : EnumSettings) (xs : List EnumExtension) : List (Nat × String) :=
  (0, "// <auto-generated/>") ::
    (0, "namespace " ++ settings.namespaceName) :: (0, "\x7b") ::
      (1, "public static class " ++ settings.className) :: (1, "\x7b") ::
        [(0, "")].intercalate (xs.map (methodLines settings.methodName 2)) ++
      [(1, "\x7d"), (0, "\x7d")]

/-- The head of the method, with every part of it spelled out. -/
theorem signature_eq (methodName : String) (x : EnumExtension) :
    x.signature methodName = x.headLine methodName := by
  have hkeyword : x.visibility.keyword =
      match x.visibility with
      | .publicMethod => "public"
      | .internalMethod => "internal" := by
    cases x.visibility <;> rfl
  have hsuffix : x.path.genericSuffix =
      match x.path.typeParameters with
      | [] => ""
      | names => "<" ++ ", ".intercalate names ++ ">" := by
    rw [CanonicalPath.genericSuffix]
    cases x.path.typeParameters <;> rfl
  rw [signature, headLine, hkeyword, hsuffix, CanonicalPath.qualified]
  simp only [String.append_assoc]
  rfl

theorem headLine_ne_empty (methodName : String) (x : EnumExtension) : x.headLine methodName ≠ "" :=
  ne_of_apply_ne String.length (by simp [headLine])

theorem arm_eq (x : EnumExtension) (member : String) : x.arm member = .line (x.armLine member) := by
  simp only [arm, constant, CanonicalPath.qualified, armLine, String.append_assoc]
  rfl

theorem armLine_ne_empty (x : EnumExtension) (member : String) : x.armLine member ≠ "" :=
  ne_of_apply_ne String.length (by simp [armLine])

def body (x : EnumExtension) : List CodeStep :=
  [.line "return @enum switch", .line "\x7b", .indent] ++ x.members.map x.arm
    ++ [.line lastArm, .closeBlock ";"]

theorem settled_arms (members : List String) : Settled (members.map x.arm) := by
  have harms : members.map x.arm = (members.map x.armLine).map .line := by simp [arm_eq]
  exact harms ▸ settled_lines _

theorem settled_body (x : EnumExtension) : Settled x.body := by
  intro level
  have h : levelAfterAll level x.body =
      levelAfterAll (levelAfterAll (level + 1) (x.members.map x.arm))
        [.line lastArm, .closeBlock ";"] := by
    simp [body, levelAfterAll, levelAfter]
  rw [h, settled_arms]
  rfl

theorem renderAt_arms (x : EnumExtension) (members : List String) (level : Nat) :
    renderAt level (members.map x.arm) =
      joinLines (members.map fun m => (level, x.armLine m)) := by
  have harms : members.map x.arm = (members.map x.armLine).map .line := by simp [arm_eq]
  have hne : ∀ text ∈ members.map x.armLine, text ≠ "" := by
    intro text htext
    obtain ⟨m, -, rfl⟩ := List.mem_map.mp htext
    exact x.armLine_ne_empty m
  rw [harms, renderAt_lines hne, List.map_map]
  rfl

/-- The braces of the switch are one level further in than the text around them. -/
theorem renderAt_body (x : EnumExtension) (level : Nat) :
    renderAt level x.body = joinLines ((level, "return @enum switch") :: (level, "\x7b") ::
      x.members.map (fun m => (level + 1, x.armLine m)) ++
        [(level + 1, lastArm), (level, "\x7d;")]) := by
  have hsteps : x.body = .line "return @enum switch" :: .line "\x7b" :: .indent ::
      (x.members.map x.arm ++ [.line lastArm, .closeBlock ";"]) := by
    simp [body]
  have hlevel : levelAfterAll (level + 1) (x.members.map x.arm) = level + 1 :=
    settled_arms x.members _
  have hreturn : lineAt level "return @enum switch" =
      indentation level ++ "return @enum switch" ++ "\n" := lineAt_eq (by decide) _
  have hopen : lineAt level "\x7b" = indentation level ++ "\x7b" ++ "\n" := lineAt_eq (by decide) _
  have hlast : lineAt (level + 1) lastArm = indentation (level + 1) ++ lastArm ++ "\n" :=
    lineAt_eq (by decide) _
  rw [hsteps]
  simp only [renderAt, textAt, levelAfter, renderAt_append, renderAt_arms, hlevel, hreturn, hopen,
    hlast, joinLines_cons, joinLines_append, List.cons_append]
  simp [joinLines, indentation, String.append_assoc]

/-- The text of a method, line by line. -/
theorem renderAt_method (methodName : String) (x : EnumExtension) (level : Nat) :
    renderAt level (x.method methodName) = joinLines (x.methodLines methodName level) := by
  have hblock : x.method methodName = block (x.headLine methodName) x.body := by
    rw [method, signature_eq]
    rfl
  rw [hblock, renderAt_block (x.headLine_ne_empty methodName) x.settled_body
    (x.renderAt_body (level + 1)), methodLines]
  simp

theorem settled_method (methodName : String) (x : EnumExtension) :
    Settled (x.method methodName) :=
  x.settled_body.block

theorem settled_methods (methodName : String) (xs : List EnumExtension) :
    Settled (methods methodName xs) := by
  fun_induction methods methodName xs with
  | case1 => exact .nil
  | case2 x => exact x.settled_method methodName
  | case3 x y xs ih => exact (x.settled_method methodName).append ih.blank_cons

/-- Methods follow each other with an empty line between two. -/
theorem renderAt_methods (methodName : String) (xs : List EnumExtension) (level : Nat) :
    renderAt level (methods methodName xs) =
      joinLines ([(0, "")].intercalate (xs.map (methodLines methodName level))) := by
  fun_induction methods methodName xs with
  | case1 => rfl
  | case2 x => rw [renderAt_method, List.map_singleton, List.intercalate_singleton]
  | case3 x y xs ih =>
    have hblank : renderAt level (.blank :: methods methodName (y :: xs)) =
        joinLines [(0, "")] ++ renderAt level (methods methodName (y :: xs)) := rfl
    have hlines : [(0, "")].intercalate ((x :: y :: xs).map (methodLines methodName level)) =
        x.methodLines methodName level ++ [(0, "")] ++
          [(0, "")].intercalate ((y :: xs).map (methodLines methodName level)) :=
      List.intercalate_cons_cons
    rw [renderAt_append, x.settled_method, renderAt_method, hblank, ih, hlines, joinLines_append,
      joinLines_append, String.append_assoc]

/-- The text of the unit, line by line. -/
theorem render_eq_join (settings : EnumSettings) (xs : List EnumExtension) :
    render settings xs = joinLines (unitLines settings xs) := by
  have hclass : "public static class " ++ settings.className ≠ "" :=
    ne_of_apply_ne String.length (by simp)
  have hspace : "namespace " ++ settings.namespaceName ≠ "" :=
    ne_of_apply_ne String.length (by simp)
  have hmethods := settled_methods settings.methodName xs
  have hlines := renderAt_block hspace hmethods.block
    (renderAt_block hclass hmethods (renderAt_methods settings.methodName xs 2))
  have hheader : lineAt 0 generatedHeader = indentation 0 ++ "// <auto-generated/>" ++ "\n" :=
    lineAt_eq (by decide) 0
  rw [render, steps, CodeStep.render, renderAt, textAt, levelAfter, hheader, hlines,
    ← joinLines_cons (0, "// <auto-generated/>"), unitLines]
  simp

end EnumExtension

/-! ## From verdicts to outcomes -/

namespace EnumTarget

def outcome (evaluator : Evaluator) (t : EnumTarget) : EnumOutcome :=
  match t.decl.ordinals evaluator with
  | .error failure => .unresolved t failure
  | .ok ordinals =>
    .extended ⟨t.visibility, t.path, (Ordinal.distinct ordinals).map (·.member.identifier.text)⟩

theorem outcome_cases (evaluator : Evaluator) (t : EnumTarget) :
    (∃ failure, t.outcome evaluator = .unresolved t failure) ∨
      ∃ method, t.outcome evaluator = .extended method := by
  unfold outcome
  cases t.decl.ordinals evaluator with
  | error failure => exact .inl ⟨failure, rfl⟩
  | ok ordinals => exact .inr ⟨_, rfl⟩

end EnumTarget

namespace EnumVerdict

def outcome (evaluator : Evaluator) : EnumVerdict → EnumOutcome
  | hidden => .hidden
  | malformed error => .malformed error
  | repeated _ first => .repeated first
  | target t => t.outcome evaluator

/-- The targets `before` have the same first target for every path as the enums `earlier`. -/
def Tracks (before : List EnumTarget) (earlier : List LocatedEnum) : Prop :=
  ∀ path : String, before.find? (·.path.path == path) =
    (earlier.filterMap LocatedEnum.target?).find? (·.path.path == path)

variable {before : List EnumTarget} {earlier : List LocatedEnum}

/-- The targets before an enum tell as much about its outcome as all the enums before it. -/
theorem Tracks.outcome_ofSite (h : Tracks before earlier) (evaluator : Evaluator)
    (e : LocatedEnum) : (ofSite before e).outcome evaluator = e.outcome evaluator earlier := by
  unfold ofSite LocatedEnum.outcome
  cases e.site.access with
  | error err => rfl
  | ok visibility? =>
    cases visibility? with
    | none => rfl
    | some visibility =>
      simp only [h e.site.canonicalPath.path]
      cases (earlier.filterMap LocatedEnum.target?).find?
        (·.path.path == e.site.canonicalPath.path) <;> rfl

/-- An enum behind others joins the targets exactly if none of them has its path. -/
theorem Tracks.append_ofSite (h : Tracks before earlier) (e : LocatedEnum) :
    Tracks (before ++ (ofSite before e).target?.toList) (earlier ++ [e]) := by
  intro path
  have old := h path
  cases access : e.site.access with
  | error err => simp [ofSite, LocatedEnum.target?, access, target?, old]
  | ok visibility? =>
    cases visibility? with
    | none => simp [ofSite, LocatedEnum.target?, access, target?, old]
    | some visibility =>
      have visible : e.target? = some ⟨e.tree, e.site.decl, visibility, e.site.canonicalPath⟩ := by
        simp only [LocatedEnum.target?, access]
      have hit := h e.site.canonicalPath.path
      cases found : before.find? (·.path.path == e.site.canonicalPath.path) with
      | none => simp [ofSite, visible, access, target?, found, old]
      | some first =>
        -- The enum is no target, and its path leads to the earlier enum as before.
        rw [found] at hit
        simp only [ofSite, access, found, target?, Option.toList_none, List.append_nil,
          List.filterMap_append, List.filterMap_cons, List.filterMap_nil, visible,
          List.find?_append, old]
        by_cases same : e.site.canonicalPath.path = path
        · simp [← same, ← hit]
        · simp [same]

/-- The verdicts come to the outcomes: the targets alone tell which paths have occurred. -/
theorem map_outcome_ofSites (h : Tracks before earlier) (evaluator : Evaluator)
    (es : List LocatedEnum) : (ofSites before es).map (fun p => (p.1, p.2.outcome evaluator)) =
      es.mapIdx fun i e => (e, e.outcome evaluator (earlier ++ es.take i)) := by
  induction es generalizing before earlier with
  | nil => rfl
  | cons e es ih =>
    have rest := ih (h.append_ofSite e)
    simp [ofSites, List.mapIdx_cons, h.outcome_ofSite, rest]

/-- A target has the declaration and the path of its enum, and no target before it has the path. -/
theorem parts_of_target {e : LocatedEnum} {t : EnumTarget} (h : ofSite before e = target t) :
    t.decl = e.site.decl ∧ t.path = e.site.canonicalPath ∧
      ∀ b ∈ before, b.path.path ≠ t.path.path := by
  unfold ofSite at h
  split at h
  · cases h
  · cases h
  · dsimp only at h
    split at h
    · cases h
    · rename_i unseen
      cases h
      exact ⟨rfl, rfl, by simpa using unseen⟩

theorem path_of_repeated {e : LocatedEnum} {path : String} {first : EnumTarget}
    (h : ofSite before e = repeated path first) : path = e.site.canonicalPath.path := by
  unfold ofSite at h
  split at h
  · cases h
  · cases h
  · dsimp only at h
    split at h <;> cases h
    rfl

/-- No two targets have the same path. -/
theorem pairwise_targets (es : List LocatedEnum)
    (h : before.Pairwise fun a b => a.path.path ≠ b.path.path) :
    (before ++ (ofSites before es).filterMap (·.2.target?)).Pairwise
      fun a b => a.path.path ≠ b.path.path := by
  induction es generalizing before with
  | nil => simpa [ofSites] using h
  | cons e es ih =>
    have step : (before ++ (ofSite before e).target?.toList).Pairwise
        fun a b => a.path.path ≠ b.path.path := by
      cases hv : ofSite before e with
      | target t =>
        obtain ⟨-, -, unseen⟩ := parts_of_target hv
        simpa [List.pairwise_append, target?, h] using unseen
      | hidden | malformed | repeated => simpa [target?] using h
    have rest := ih step
    cases hv : ofSite before e <;> simpa [ofSites, hv, target?] using rest

/-- Verdicts are about the enums they stand beside. -/
theorem exists_ofSite_of_mem {es : List LocatedEnum} {p : LocatedEnum × EnumVerdict}
    (h : p ∈ ofSites before es) : ∃ before', p.2 = ofSite before' p.1 := by
  induction es generalizing before with
  | nil => simp [ofSites] at h
  | cons e es ih =>
    rcases List.mem_cons.mp h with rfl | h
    · exact ⟨before, rfl⟩
    · exact ih h

/-! ## What is said about an enum -/

variable (settings : EnumSettings) (set : SourceSet) (evaluator : Evaluator)

/-- The output of a target, from its outcome. -/
theorem method?_outcome (t : EnumTarget) :
    (t.outcome evaluator).method? = t.extension? evaluator := by
  unfold EnumTarget.outcome EnumTarget.extension?
  cases t.decl.ordinals evaluator <;> rfl

theorem path_of_extension? {evaluator : Evaluator} {t : EnumTarget} {x : EnumExtension}
    (h : t.extension? evaluator = some x) : x.path = t.path := by
  unfold EnumTarget.extension? at h
  split at h
  · cases h
    rfl
  · cases h

theorem diagnostics_target (e : LocatedEnum) (t : EnumTarget) :
    (t.contribution set evaluator).diagnostics =
      ((t.outcome evaluator).diagnostic? settings set e).toList := by
  unfold EnumTarget.outcome EnumTarget.contribution EnumDecl.ordinals
  cases hf : (t.decl.numbering evaluator).failure with
  | none => simp [hf, EnumTarget.ordinalEvent, EnumOutcome.diagnostic?]
  | some failure => simp [hf, EnumTarget.ordinalEvent, EnumOutcome.diagnostic?]

theorem units_target (t : EnumTarget) : (t.contribution set evaluator).units = [] := by
  unfold EnumTarget.contribution
  cases hf : (t.decl.numbering evaluator).failure with
  | none => simp [hf, EnumTarget.ordinalEvent]
  | some failure => simp [hf, EnumTarget.ordinalEvent]

theorem units_contribution (e : LocatedEnum) (v : EnumVerdict) :
    (v.contribution settings set e).units = [] := by
  cases v with
  | repeated path first => cases h : settings.duplicatePaths <;> simp [contribution, h]
  | hidden | malformed | target => rfl

/-- Looking at an enum reports its diagnostic, unless that is about its values. -/
theorem diagnostics_contribution (e : LocatedEnum) :
    ((ofSite before e).contribution settings set e).diagnostics =
      (if !((ofSite before e).outcome evaluator).isUnresolved then
        ((ofSite before e).outcome evaluator).diagnostic? settings set e else none).toList := by
  cases hv : ofSite before e with
  | hidden => rfl
  | malformed error => rfl
  | repeated path first =>
    cases path_of_repeated hv
    cases h : settings.duplicatePaths <;>
      simp [contribution, outcome, EnumOutcome.isUnresolved, EnumOutcome.diagnostic?, h]
  | target t =>
    obtain ⟨failure, h⟩ | ⟨method, h⟩ := t.outcome_cases evaluator <;>
      simp [contribution, outcome, h, EnumOutcome.isUnresolved, EnumOutcome.diagnostic?]

/-- Computing the values of the targets reports the diagnostics that are about values. -/
theorem diagnostics_targets (ps : List (LocatedEnum × EnumVerdict)) :
    (ps.filterMap (·.2.target?)).flatMap (fun t => (t.contribution set evaluator).diagnostics) =
      ps.filterMap fun p => if (p.2.outcome evaluator).isUnresolved then
        (p.2.outcome evaluator).diagnostic? settings set p.1 else none := by
  rw [List.filterMap_eq_flatMap_toList, List.filterMap_eq_flatMap_toList, List.flatMap_assoc]
  refine List.flatMap_congr fun p _ => ?_
  cases hv : p.2 with
  | target t =>
    have said := diagnostics_target settings set evaluator p.1 t
    obtain ⟨failure, h⟩ | ⟨method, h⟩ := t.outcome_cases evaluator <;>
      simp [target?, outcome, said, h, EnumOutcome.isUnresolved, EnumOutcome.diagnostic?]
  | hidden | malformed | repeated => simp [target?, outcome, EnumOutcome.isUnresolved]

end EnumVerdict

namespace EnumNames

open EnumVerdict

def outcomes (set : SourceSet) (evaluator : Evaluator) : List (LocatedEnum × EnumOutcome) :=
  set.enums.mapIdx fun i e => (e, e.outcome evaluator (set.enums.take i))

variable (settings : EnumSettings) (set : SourceSet) (evaluator : Evaluator)

theorem outcomes_eq : outcomes set evaluator =
    (ofSites [] set.enums).map fun p => (p.1, p.2.outcome evaluator) := by
  have start : Tracks [] [] := fun path => rfl
  rw [map_outcome_ofSites start]
  rfl

theorem extensions_eq :
    extensions set evaluator = (outcomes set evaluator).filterMap (·.2.method?) := by
  rw [extensions, targets, outcomes_eq, List.filterMap_filterMap, List.filterMap_map]
  refine List.filterMap_congr fun p hp => ?_
  cases hv : p.2 with
  | target t => simp [target?, hv, outcome, method?_outcome]
  | hidden | malformed | repeated => simp [target?, hv, outcome, EnumOutcome.method?]

/-- No two methods have the same path. -/
theorem nodup_extensions : ((extensions set evaluator).map (·.path.path)).Nodup := by
  have distinct : (targets set).Pairwise fun a b => a.path.path ≠ b.path.path := by
    have h := pairwise_targets set.enums .nil
    rwa [List.nil_append] at h
  rw [List.Nodup, List.pairwise_map, extensions]
  refine distinct.filterMap _ fun t t' hne x hx x' hx' => ?_
  rw [path_of_extension? hx, path_of_extension? hx']
  exact hne

/-- The hint name is one that is accepted. -/
theorem isValidHint_hint : isValidHint hint = true := by decide +kernel

theorem units_conclusion {taken : List String} (free : hint ∉ taken) (xs : List EnumExtension) :
    (conclusion settings set taken xs).units =
      if xs.isEmpty then [] else [⟨hint, EnumExtension.render settings xs⟩] := by
  cases xs with
  | nil => rfl
  | cons x xs =>
    have events (x : EnumExtension) : (armEvents x).units = [] := by simp [armEvents]
    simp [conclusion, publishing, Publication.refusal?_eq isValidHint_hint, free, events]

theorem diagnostics_conclusion {taken : List String} (free : hint ∉ taken)
    (xs : List EnumExtension) : (conclusion settings set taken xs).diagnostics = [] := by
  cases xs with
  | nil => rfl
  | cons x xs =>
    have events (x : EnumExtension) : (armEvents x).diagnostics = [] := by simp [armEvents]
    simp [conclusion, publishing, Publication.refusal?_eq isValidHint_hint, free, events]

/-- The diagnostics of all enums, first those about declarations and then those about values, and
what is said when all targets are known. -/
theorem diagnostics_contribution (taken : List String) :
    (contribution settings set evaluator taken).diagnostics =
      ((outcomes set evaluator).filter (!·.2.isUnresolved)).filterMap
          (fun p => p.2.diagnostic? settings set p.1) ++
        ((outcomes set evaluator).filter (·.2.isUnresolved)).filterMap
          (fun p => p.2.diagnostic? settings set p.1) ++
        (conclusion settings set taken (extensions set evaluator)).diagnostics := by
  have scan : (ofSites [] set.enums).flatMap (fun p =>
      (p.2.contribution settings set p.1).diagnostics) =
      (ofSites [] set.enums).filterMap fun p => if !(p.2.outcome evaluator).isUnresolved then
        (p.2.outcome evaluator).diagnostic? settings set p.1 else none := by
    rw [List.filterMap_eq_flatMap_toList]
    refine List.flatMap_congr fun p hp => ?_
    obtain ⟨before, hv⟩ := exists_ofSite_of_mem hp
    rw [hv]
    exact EnumVerdict.diagnostics_contribution settings set evaluator p.1
  have values := diagnostics_targets settings set evaluator (ofSites [] set.enums)
  simp only [contribution, Publication.diagnostics_append, Publication.diagnostics_concat,
    List.flatMap_map, scan]
  rw [targets, values, outcomes_eq, List.filterMap_filter, List.filterMap_filter,
    List.filterMap_map, List.filterMap_map]
  rfl

/-- Where the name of the unit is free, all diagnostics are those of the enums. -/
theorem diagnostics_outcomes {taken : List String} (free : hint ∉ taken) :
    (contribution settings set evaluator taken).diagnostics =
      ((outcomes set evaluator).filter (!·.2.isUnresolved)).filterMap
          (fun p => p.2.diagnostic? settings set p.1) ++
        ((outcomes set evaluator).filter (·.2.isUnresolved)).filterMap
          (fun p => p.2.diagnostic? settings set p.1) := by
  rw [diagnostics_contribution, diagnostics_conclusion settings set free, List.append_nil]

/-- The unit holds the methods of all enums that get one. -/
theorem units_outcomes {taken : List String} (free : hint ∉ taken) :
    (contribution settings set evaluator taken).units =
      if ((outcomes set evaluator).filterMap (·.2.method?)).isEmpty then []
      else [⟨"EnumFastString.g.cs", joinLines (EnumExtension.unitLines settings
        ((outcomes set evaluator).filterMap (·.2.method?)))⟩] := by
  have none_of {α : Type} (l : List α) : l.flatMap (fun _ => ([] : List PublishedUnit)) = [] := by
    simp
  simp [contribution, List.flatMap_map, EnumVerdict.units_contribution, EnumVerdict.units_target,
    none_of, units_conclusion settings set free, extensions_eq, EnumExtension.render_eq_join, hint]

/-- Every enum of the sources, in their order, has exactly one outcome, and the output is what the
outcomes leave in it: the diagnostics, those about values last, and one unit if there is a method.
Line by line the unit is one class with the methods in the order of their enums, each with the
visibility of its enum. No enum leaves both a diagnostic and a method, and no two methods have the
same path. -/
theorem contribution_accounts {taken : List String} (free : hint ∉ taken) :
    let outcomes := set.enums.mapIdx fun i e => (e, e.outcome evaluator (set.enums.take i))
    let diagnostic? := fun p : LocatedEnum × EnumOutcome => p.2.diagnostic? settings set p.1
    let methods := outcomes.filterMap (·.2.method?)
    let added := contribution settings set evaluator taken
    added.diagnostics = (outcomes.filter (!·.2.isUnresolved)).filterMap diagnostic? ++
        (outcomes.filter (·.2.isUnresolved)).filterMap diagnostic? ∧
      (∀ p ∈ outcomes, (diagnostic? p).map (fun d => (d.code, d.severity)) =
        (p.2.report? settings).map fun r => (some r.1, r.2)) ∧
      (∀ p ∈ outcomes, p.2.method? = none ∨ diagnostic? p = none) ∧
      (methods.map (·.path.path)).Nodup ∧
      (∀ p ∈ outcomes, ∀ x, p.2.method? = some x →
        p.1.site.access = .ok (some x.visibility) ∧ x.path = p.1.site.canonicalPath) ∧
      added.units = if methods.isEmpty then []
        else [⟨"EnumFastString.g.cs", joinLines (EnumExtension.unitLines settings methods)⟩] := by
  intro outcomes diagnostic? methods added
  refine ⟨diagnostics_outcomes settings set evaluator free, fun p _ => ?_, fun p _ => ?_, ?_,
    fun p hp x hx => ?_, units_outcomes settings set evaluator free⟩
  · exact p.2.map_diagnostic? settings set p.1
  · cases h : p.2 with
    | extended method => exact .inr (by simp [diagnostic?, h, EnumOutcome.diagnostic?])
    | hidden | malformed | repeated | unresolved => exact .inl rfl
  · have distinct := nodup_extensions set evaluator
    rwa [extensions_eq] at distinct
  · obtain ⟨i, hi, rfl⟩ := List.mem_mapIdx.mp hp
    exact LocatedEnum.parts_of_method? hx

/-- A file with `public enum E { A }`, the same once more, and `enum F { }`. -/
def threeEnums : SourceSet where
  registry := .empty
  trees :=
    let e : EnumDecl :=
      { attributes := [], modifiers := [⟨.publicMod, ⟨0, 6⟩⟩], identifier := ⟨"E", ⟨12, 13⟩⟩,
        base := none, members := [⟨[], ⟨"A", ⟨16, 17⟩⟩, none, ⟨16, 17⟩⟩], span := ⟨0, 19⟩ }
    let f : EnumDecl :=
      { attributes := [], modifiers := [], identifier := ⟨"F", ⟨45, 46⟩⟩, base := none,
        members := [], span := ⟨40, 50⟩ }
    [⟨⟨0⟩, "E.cs", ⟨[], [.ofEnum e, .ofEnum e, .ofEnum f], ⟨0, 50⟩⟩⟩]

theorem contribution_accounts_threeEnums :
    hint ∉ ([] : List String) ∧
      (contribution {} threeEnums EnumDecl.constantText []).units =
        [⟨"EnumFastString.g.cs", joinLines [
          (0, "// <auto-generated/>"),
          (0, "namespace SourceGenerated"),
          (0, "\x7b"),
          (1, "public static class EnumExtensions"),
          (1, "\x7b"),
          (2, "public static string ToFastString(this global::E @enum)"),
          (2, "\x7b"),
          (3, "return @enum switch"),
          (3, "\x7b"),
          (4, "global::E.A => nameof(global::E.A),"),
          (4, "_ => throw new System.ArgumentOutOfRangeException(nameof(@enum), @enum, null)"),
          (3, "\x7d;"),
          (2, "\x7d"),
          (1, "\x7d"),
          (0, "\x7d")]⟩] ∧
      (contribution {} threeEnums EnumDecl.constantText []).diagnostics.map (·.code) =
        [some "SG1002"] := by
  have free : hint ∉ ([] : List String) := List.not_mem_nil
  obtain ⟨diagnostics, -, -, -, -, units⟩ :=
    contribution_accounts {} threeEnums EnumDecl.constantText free
  refine ⟨free, ?_, ?_⟩
  · rw [units]
    rfl
  · rw [diagnostics]
    rfl

end EnumNames

end DeclGen
