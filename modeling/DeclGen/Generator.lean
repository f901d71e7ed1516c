import DeclGen.Cleanup.Contribution
import DeclGen.EnumNames.Contribution

/-!
# Generators

A run lets its generators work on the same sources one after the other. Each adds to what the ones
before it have published and knows nothing of them but the names that are taken.

## Main definitions

* `Generator`: the generators
* `Generator.ofSettings`: those that settings enable
* `Generator.run`: a run
-/

namespace DeclGen

inductive Generator where
  | enumNames (settings : EnumSettings)
  | cleanup (settings : CleanupSettings)
  /-- Publishes a unit, if its name is accepted. -/
  | fixed (unit : PublishedUnit)
deriving DecidableEq, Repr, Inhabited

namespace Generator

def name : Generator → String
  | enumNames _ => "EnumFastString"
  | cleanup _ => "AutoDispose"
  | fixed _ => "Fixed"

def ofSettings (s : Settings) : List Generator :=
  (if s.enums.isEnabled then [enumNames s.enums] else [])
    ++ if s.cleanup.isEnabled then [cleanup s.cleanup] else []

/-- What a generator adds to a run in which hint names are taken. -/
def contribution (set : SourceSet) (evaluator : Evaluator) (taken : List String) :
    Generator → Publication
  | enumNames settings => EnumNames.contribution settings set evaluator taken
  | cleanup settings => Cleanup.contribution settings set taken
  | fixed unit =>
    match Publication.refusal? taken unit.hint with
    | none => .ofUnit unit
    | some _ => .empty

def summary (g : Generator) (added : Publication) : Publication :=
  .ofEvent .info "generator::driver"
    (g.name ++ ": " ++ toString added.units.length ++ " source(s), "
      ++ toString added.diagnostics.length ++ " diagnostic(s)")

/-- What is published when a generator has worked behind others. -/
def runAfter (set : SourceSet) (evaluator : Evaluator) (p : Publication) (g : Generator) :
    Publication :=
  let added := g.contribution set evaluator p.hints
  p ++ added ++ g.summary added

def run (generators : List Generator) (set : SourceSet) (evaluator : Evaluator) : Publication :=
  generators.foldl (runAfter set evaluator) .empty

end Generator

end DeclGen
