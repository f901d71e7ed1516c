import DeclGen.Syntax.Span

/-!
# Names

An identifier keeps its text as written. A leading `@` makes any word an identifier and does not
belong to the name that the identifier binds.
-/

namespace DeclGen

/-- An identifier as written, with a leading `@` if there is one. -/
structure Identifier where
  text : String
  span : Span
deriving DecidableEq, Repr, Inhabited

/-- The name an identifier binds: its text without a leading `@`. -/
def Identifier.name (i : Identifier) : String :=
  match i.text.toList with
  | '@' :: s => String.ofList s
  | _ => i.text

/-- A dotted name such as that of a namespace. -/
structure DottedName where
  segments : List Identifier
  span : Span
deriving DecidableEq, Repr, Inhabited

def DottedName.text (n : DottedName) : String := ".".intercalate (n.segments.map (·.text))

end DeclGen
