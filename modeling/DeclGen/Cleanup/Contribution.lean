import DeclGen.Cleanup.Override
import DeclGen.Diagnostic.Catalog
import DeclGen.Publication

/-!
# Generating cleanup overrides

Every holder is looked at once, in order. One without handles is left alone; one to which another
part cannot be added, or which declares the hook itself, is reported; any other gets a unit.

## Main definitions

* `HolderOutcome`, `HolderOutcome.ofHolders`: what becomes of each holder
* `Cleanup.contribution`: the units, diagnostics and events
-/

namespace DeclGen

/-- What becomes of a holder. -/
inductive HolderOutcome where
  /-- It has no handles. -/
  | idle
  | notPartial
  /-- A type around it is not partial. -/
  | containerNotPartial (container : TypeHead)
  /-- It declares the hook itself. -/
  | hookDefined (method : MethodDecl)
  | published (unit : PublishedUnit)
  /-- The name of its unit is not accepted. -/
  | refused (error : PublishError)

namespace HolderOutcome

def unit? : HolderOutcome → Option PublishedUnit
  | published u => some u
  | _ => none

def isHook (hook : String) (m : MethodDecl) : Bool :=
  m.explicitInterface.isNone && m.parameterCount == 0 && m.identifier.name == hook

def obstacle? (settings : CleanupSettings) (h : Holder) : Option HolderOutcome :=
  if !h.site.head.isPartial then some notPartial
  else
    match h.containers.find? (!·.isPartial) with
    | some container => some (containerNotPartial container)
    | none => (h.site.methods.find? (isHook settings.hook)).map hookDefined

def ofHolder (settings : CleanupSettings) (taken : List String) (h : Holder) : HolderOutcome :=
  if h.handles.isEmpty then idle
  else
    match obstacle? settings h with
    | some obstacle => obstacle
    | none =>
      match Publication.refusal? taken h.hint with
      | none => published ⟨h.hint, h.render settings⟩
      | some error => refused error

/-- What becomes of each of the holders; the name of a published unit is taken from then on. -/
def ofHolders (settings : CleanupSettings) (taken : List String) :
    List Holder → List (Holder × HolderOutcome)
  | [] => []
  | h :: hs =>
    let outcome := ofHolder settings taken h
    (h, outcome) :: ofHolders settings (taken ++ (outcome.unit?.map (·.hint)).toList) hs

def contribution (settings : CleanupSettings) (set : SourceSet) (h : Holder) :
    HolderOutcome → Publication
  | idle =>
    .ofEvent .debug "generator::auto_dispose" (h.identifier.text ++ " owns no handles")
  | notPartial =>
    .ofDiagnostic (.holderNotPartial (set.locate h.tree.file h.identifier.span)
      h.identifier.text settings.baseType)
  | containerNotPartial container =>
    .ofDiagnostic (.containerNotPartial (set.locate h.tree.file h.identifier.span)
      h.identifier.text container.identifier.text)
  | hookDefined method =>
    .ofDiagnostic (.cleanupHookDefined (set.locate h.tree.file method.identifier.span)
      h.identifier.text settings.hook)
  | published unit => .ofUnit unit
  | refused (.duplicateHint hint) =>
    .ofDiagnostic (.duplicateHint (set.locate h.tree.file h.identifier.span) hint)
  | refused error => .ofEvent .error "generator::auto_dispose" error.message

end HolderOutcome

namespace Cleanup

def foundEvent (settings : CleanupSettings) (h : Holder) : Publication :=
  .ofEvent .debug "generator::auto_dispose::scanner"
    (h.identifier.text ++ " derives from " ++ settings.baseType ++ " with "
      ++ toString h.handles.length ++ " handle(s)")

def summary (settings : CleanupSettings) (outcomes : List HolderOutcome) : Publication :=
  .ofEvent .info "generator::auto_dispose"
    (toString (outcomes.filterMap (·.unit?)).length ++ " of " ++ toString outcomes.length
      ++ " holder(s) get a generated " ++ settings.hook)

def contribution (settings : CleanupSettings) (set : SourceSet) (taken : List String) :
    Publication :=
  let holders := set.holders settings
  let outcomes := HolderOutcome.ofHolders settings taken holders
  .concat (holders.map (foundEvent settings))
    ++ .concat (outcomes.map fun (h, o) => o.contribution settings set h)
    ++ summary settings (outcomes.map (·.2))

end Cleanup

end DeclGen
