import DeclGen.Diagnostic.Catalog
import DeclGen.EnumNames.Extension
import DeclGen.EnumNames.Ordinals
import DeclGen.Publication
import DeclGen.SourceSet
import DeclGen.Syntax.Site

/-!
# Generating enum names

Every enum of the sources is looked at once, in order. One that can be seen and is the first of its
path is a target; a target whose members all have values gets a method. All methods go into one
unit.

## Main definitions

* `EnumTarget`: an enum that may get a method
* `EnumVerdict`, `EnumVerdict.ofSites`: what becomes of each enum
* `EnumNames.contribution`: the unit, diagnostics and events
-/

namespace DeclGen

structure LocatedEnum where
  tree : SyntaxTree
  site : EnumSite
deriving Inhabited

def SourceSet.enums (set : SourceSet) : List LocatedEnum :=
  set.trees.flatMap fun tree => (tree.root.sites.filterMap Site.enumSite?).map (⟨tree, ·⟩)

/-- An enum that can be seen and is the first of its path. -/
structure EnumTarget where
  tree : SyntaxTree
  decl : EnumDecl
  visibility : Visibility
  path : CanonicalPath
deriving Inhabited

def EnumTarget.location (set : SourceSet) (t : EnumTarget) : Location :=
  set.locate t.tree.file t.decl.identifier.span

/-- What becomes of an enum. -/
inductive EnumVerdict where
  /-- It cannot be seen. -/
  | hidden
  /-- Its accessibility cannot be told. -/
  | malformed (error : AccessError)
  /-- An earlier target has its path. -/
  | repeated (path : String) (first : EnumTarget)
  | target (target : EnumTarget)

namespace EnumVerdict

def target? : EnumVerdict → Option EnumTarget
  | target t => some t
  | hidden | malformed _ | repeated _ _ => none

def ofSite (before : List EnumTarget) (e : LocatedEnum) : EnumVerdict :=
  match e.site.access with
  | .error error => malformed error
  | .ok none => hidden
  | .ok (some visibility) =>
    let path := e.site.canonicalPath
    match before.find? (·.path.path == path.path) with
    | some first => repeated path.path first
    | none => target ⟨e.tree, e.site.decl, visibility, path⟩

def ofSites (before : List EnumTarget) : List LocatedEnum → List (LocatedEnum × EnumVerdict)
  | [] => []
  | e :: es =>
    let verdict := ofSite before e
    (e, verdict) :: ofSites (before ++ verdict.target?.toList) es

def contribution (settings : EnumSettings) (set : SourceSet) (e : LocatedEnum) :
    EnumVerdict → Publication
  | hidden =>
    .ofEvent .debug "generator::enum_strings"
      ("skipping enum " ++ e.site.decl.identifier.text ++ ": not accessible")
  | malformed error =>
    .ofDiagnostic (.malformedDeclaration (set.locate e.tree.file error.span)
      e.site.decl.identifier.text error.reason)
  | repeated path first =>
    .ofEvent .debug "generator::enum_strings"
      ("enum " ++ path ++ " declared again in " ++ e.tree.path)
    ++ match settings.duplicatePaths with
      | .silent => .empty
      | .warn =>
        .ofDiagnostic (.duplicatePath (set.locate e.tree.file e.site.decl.identifier.span) path
          (first.location set))
  | target t =>
    .ofEvent .debug "generator::enum_strings"
      ("enum " ++ t.path.path ++ " is " ++ t.visibility.keyword)

end EnumVerdict

namespace EnumTarget

def extension? (evaluator : Evaluator) (t : EnumTarget) : Option EnumExtension :=
  match t.decl.ordinals evaluator with
  | .ok ordinals =>
    some ⟨t.visibility, t.path, (Ordinal.distinct ordinals).map (·.member.identifier.text)⟩
  | .error _ => none

def ordinalEvent (t : EnumTarget) (o : Ordinal) : Publication :=
  .ofEvent .trace "generator::enum_strings::values"
    (t.decl.identifier.text ++ "." ++ o.member.identifier.text ++ " = " ++ toString o.value)

/-- The diagnostic of a member that has no value, at its initializer if it has one. -/
def failureDiagnostic (set : SourceSet) (t : EnumTarget) (f : OrdinalFailure) : Diagnostic :=
  let span := (f.member.initializer.map (·.span)).getD f.member.span
  .unresolvableConstant (set.locate t.tree.file span) t.decl.identifier.text
    f.member.identifier.text f.error.message

def contribution (set : SourceSet) (evaluator : Evaluator) (t : EnumTarget) : Publication :=
  let numbering := t.decl.numbering evaluator
  .concat (numbering.ordinals.map t.ordinalEvent) ++
  match numbering.failure with
  | some failure => .ofDiagnostic (t.failureDiagnostic set failure)
  | none => .empty

end EnumTarget

namespace EnumNames

def hint : String := "EnumFastString.g.cs"

def targets (set : SourceSet) : List EnumTarget :=
  (EnumVerdict.ofSites [] set.enums).filterMap (·.2.target?)

def extensions (set : SourceSet) (evaluator : Evaluator) : List EnumExtension :=
  (targets set).filterMap (·.extension? evaluator)

def armEvents (x : EnumExtension) : Publication :=
  .concat <| x.members.map fun member =>
    .ofEvent .trace "generator::enum_strings::emit" ("arm " ++ x.constant member)

/-- The unit, or the diagnostic that its name is taken, at the first target. -/
def publishing (settings : EnumSettings) (set : SourceSet) (taken : List String)
    (xs : List EnumExtension) : Publication :=
  match Publication.refusal? taken hint with
  | none => .ofUnit ⟨hint, EnumExtension.render settings xs⟩
  | some (.duplicateHint name) =>
    match targets set with
    | t :: _ => .ofDiagnostic (.duplicateHint (t.location set) name)
    | [] => .empty
  | some error => .ofEvent .error "generator::enum_strings" error.message

/-- What is said when all targets are known, and the unit if there is a method in it. -/
def conclusion (settings : EnumSettings) (set : SourceSet) (taken : List String) :
    List EnumExtension → Publication
  | [] => .ofEvent .info "generator::enum_strings" "no enums to extend"
  | xs =>
    .ofEvent .info "generator::enum_strings"
      (toString xs.length ++ " enum(s) get a " ++ settings.methodName ++ " method")
    ++ .concat (xs.map armEvents) ++ publishing settings set taken xs

def contribution (settings : EnumSettings) (set : SourceSet) (evaluator : Evaluator)
    (taken : List String) : Publication :=
  .concat ((EnumVerdict.ofSites [] set.enums).map fun (e, v) => v.contribution settings set e)
    ++ .concat ((targets set).map (·.contribution set evaluator))
    ++ conclusion settings set taken (extensions set evaluator)

end EnumNames

end DeclGen
