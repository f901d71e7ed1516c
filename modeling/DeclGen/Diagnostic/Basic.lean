import DeclGen.Source.Position

/-!
# Diagnostics

A diagnostic is a message about a location, with labels on this and other locations, proposed
edits, notes and help. A run reports all it finds, in order.
-/

namespace DeclGen

/-- How bad a diagnostic is. -/
inductive Severity where
  | error | warning | info | hint
deriving DecidableEq, Repr, Inhabited

def Severity.text : Severity → String
  | error => "error"
  | warning => "warning"
  | info => "info"
  | hint => "hint"

/-- A message on a location. Only primary labels are shown under the excerpt. -/
structure Label where
  location : Location
  message : String
  isPrimary : Bool
deriving DecidableEq, Repr, Inhabited

/-- A proposed edit. -/
structure Suggestion where
  message : String
  location : Location
  replacement : String
deriving DecidableEq, Repr, Inhabited

/-- A message about a location. -/
structure Diagnostic where
  severity : Severity
  code : Option String := none
  message : String
  location : Location
  labels : List Label := []
  suggestions : List Suggestion := []
  notes : List String := []
  help : List String := []
deriving DecidableEq, Repr, Inhabited

namespace Diagnostic

def isError (d : Diagnostic) : Bool := d.severity == .error

def isWarning (d : Diagnostic) : Bool := d.severity == .warning

def hasCode (d : Diagnostic) (code : String) : Bool := d.code == some code

def hasErrors (ds : List Diagnostic) : Bool := ds.any isError

end Diagnostic

end DeclGen
