import DeclGen.Diagnostic.Basic
import DeclGen.Log
import DeclGen.Text.Blank

/-!
# Publications

What a run has brought forth so far: the published units, the diagnostics and the log events, each
in order. A publication only grows. Units are told apart by their hint names, which serve as file
names.

## Main definitions

* `PublishedUnit`, `Publication`
* `isValidHint`: the hint names that are accepted
* `Publication.publish`, `Publication.report`
-/

namespace DeclGen

/-- A generated file with its name. -/
structure PublishedUnit where
  hint : String
  text : String
deriving DecidableEq, Repr, Inhabited

/-- Why a unit cannot be published. -/
inductive PublishError where
  | duplicateHint (hint : String)
  | invalidHint (hint : String)
deriving DecidableEq, Repr, Inhabited

def PublishError.message : PublishError → String
  | duplicateHint hint => "a source named '" ++ hint ++ "' was already added"
  | invalidHint hint => "'" ++ hint ++ "' is not a valid hint name"

/-- The characters that may not occur in a hint name, besides control characters. -/
def forbiddenInHints : List Char := ['/', '\\', ':', '*', '?', '"', '<', '>', '|']

/-- Whether a text may name a unit: a plain file name that ends in `.cs`. -/
def isValidHint (hint : String) : Bool :=
  let s := hint.toList
  3 < s.length && ".cs".toList.isSuffixOf s && s.head? != some '.'
    && s.all fun c => !forbiddenInHints.contains c && !Text.isControl c

/-- What a run has brought forth. -/
structure Publication where
  units : List PublishedUnit := []
  diagnostics : List Diagnostic := []
  events : List LogEvent := []
deriving DecidableEq, Repr, Inhabited

namespace Publication

def empty : Publication := {}

instance : Append Publication :=
  ⟨fun p q => ⟨p.units ++ q.units, p.diagnostics ++ q.diagnostics, p.events ++ q.events⟩⟩

def concat (ps : List Publication) : Publication := ps.foldr (· ++ ·) empty

def hints (p : Publication) : List String := p.units.map (·.hint)

def ofEvent (level : LogLevel) (target message : String) : Publication :=
  { events := [⟨level, target, message⟩] }

def ofDiagnostic (d : Diagnostic) : Publication where
  diagnostics := [d]
  events := [⟨.debug, "generator::context", "[" ++ d.code.getD "-" ++ "] " ++ d.message⟩]

def ofUnit (u : PublishedUnit) : Publication where
  units := [u]
  events := [⟨.info, "generator::context", "publishing " ++ u.hint⟩]

/-- Why a unit with a hint name cannot be published where others are taken. -/
def refusal? (taken : List String) (hint : String) : Option PublishError :=
  if !isValidHint hint then some (.invalidHint hint)
  else if taken.contains hint then some (.duplicateHint hint)
  else none

def publish (p : Publication) (u : PublishedUnit) : Except PublishError Publication :=
  match refusal? p.hints u.hint with
  | some e => .error e
  | none => .ok (p ++ ofUnit u)

def report (p : Publication) (d : Diagnostic) : Publication := p ++ ofDiagnostic d

def unit? (p : Publication) (hint : String) : Option PublishedUnit :=
  p.units.find? (·.hint == hint)

def hasErrors (p : Publication) : Bool := Diagnostic.hasErrors p.diagnostics

@[simp] theorem units_append (p q : Publication) : (p ++ q).units = p.units ++ q.units := rfl

@[simp] theorem diagnostics_append (p q : Publication) :
    (p ++ q).diagnostics = p.diagnostics ++ q.diagnostics := rfl

@[simp] theorem hints_append (p q : Publication) : (p ++ q).hints = p.hints ++ q.hints := by
  simp [hints]

end Publication

end DeclGen
