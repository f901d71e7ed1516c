import DeclGen.Diagnostic.Basic

/-!
# What can be reported

One function for each problem that reading files and generating code can find. The codes are
`SG0…` for reading files, `SG1…` for enums, `SG2…` for cleanup overrides and `SG3…` for publishing.
-/

namespace DeclGen.Diagnostic

def syntaxError (at_ : Location) (expected : String) : Diagnostic where
  severity := .error
  code := some "SG0001"
  message := "syntax error: expected " ++ expected
  location := at_
  labels := [⟨at_, "expected " ++ expected, true⟩]
  notes := ["the file is skipped by every generator in this run"]

def malformedDeclaration (at_ : Location) (name reason : String) : Diagnostic where
  severity := .error
  code := some "SG1001"
  message := "malformed declaration '" ++ name ++ "': " ++ reason
  location := at_
  labels := [⟨at_, reason, true⟩]
  help := ["declare exactly one of 'public', 'internal', 'protected' or 'private'"]

def duplicatePath (at_ : Location) (path : String) (first : Location) : Diagnostic where
  severity := .warning
  code := some "SG1002"
  message := "enum '" ++ path ++
    "' is declared more than once; only the first declaration gets a ToFastString method"
  location := at_
  labels := [⟨at_, "this declaration is skipped", true⟩, ⟨first, "first declared here", false⟩]

def unresolvableConstant (at_ : Location) (enum member reason : String) : Diagnostic where
  severity := .error
  code := some "SG1003"
  message := "cannot compute the value of '" ++ enum ++ "." ++ member ++ "': " ++ reason
  location := at_
  labels := [⟨at_, "initializer is not an integer constant", true⟩]
  notes := ["no ToFastString method is generated for '" ++ enum ++ "'"]

def holderNotPartial (at_ : Location) (name base : String) : Diagnostic where
  severity := .warning
  code := some "SG2001"
  message := "class '" ++ name ++ "' derives from '" ++ base ++ "' but is not partial"
  location := at_
  labels := [⟨at_, "generated cleanup cannot be added to this class", true⟩]
  suggestions := [⟨"declare the class partial", at_, "partial class"⟩]

def containerNotPartial (at_ : Location) (name container : String) : Diagnostic where
  severity := .warning
  code := some "SG2002"
  message := "class '" ++ name ++ "' is nested in '" ++ container ++ "', which is not partial"
  location := at_
  labels := [⟨at_, "no generated cleanup for this class", true⟩]
  help := ["declare '" ++ container ++ "' partial"]

def cleanupHookDefined (at_ : Location) (name hook : String) : Diagnostic where
  severity := .warning
  code := some "SG2003"
  message := "class '" ++ name ++ "' already declares '" ++ hook ++ "()'"
  location := at_
  labels := [⟨at_, "generated cleanup would conflict with this method", true⟩]
  help := ["release the resource handles in the existing method, or remove it"]

def duplicateHint (at_ : Location) (hint : String) : Diagnostic where
  severity := .error
  code := some "SG3001"
  message := "a generated source named '" ++ hint ++ "' was already added in this run"
  location := at_
  labels := [⟨at_, "source for this declaration was dropped", true⟩]

end DeclGen.Diagnostic
