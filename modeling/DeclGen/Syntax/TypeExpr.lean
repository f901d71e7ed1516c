import DeclGen.Syntax.Name

/-!
# Types

Type expressions as written in declarations: built-in and named types with type arguments, and the
nullable, array, pointer and tuple forms.

## Main definitions

* `TypeExpr`: a type with the span of each part
* `TypeExpr.text`: the type written out, one way for each type
* `TypeExpr.simpleName?`, `TypeExpr.plainIdentifiers`: the names a type mentions
* `TypeParameters`: the declared parameters of a generic type or method
-/

namespace DeclGen

mutual

inductive TypeExpr where
  | predefined (name : String) (span : Span)
  | named (qualifier : Option Identifier) (segments : List NameSegment) (span : Span)
  | nullable (inner : TypeExpr) (span : Span)
  | array (element : TypeExpr) (rank : Nat) (span : Span)
  | pointer (inner : TypeExpr) (span : Span)
  | tuple (elements : List TypeExpr) (span : Span)

/-- One segment of a named type, with its type arguments. -/
inductive NameSegment where
  | mk (identifier : Identifier) (arguments : List TypeExpr)

end

namespace NameSegment

def identifier : NameSegment → Identifier
  | mk i _ => i

def arguments : NameSegment → List TypeExpr
  | mk _ ts => ts

end NameSegment

instance : Inhabited TypeExpr := ⟨.predefined "" default⟩
instance : Inhabited NameSegment := ⟨.mk default []⟩

namespace TypeExpr

def span : TypeExpr → Span
  | predefined _ s | named _ _ s | nullable _ s | array _ _ s | pointer _ s | tuple _ s => s

def isPredefined : TypeExpr → Bool
  | predefined .. => true
  | _ => false

mutual

/-- The type written out, with `, ` between arguments and no other blanks. -/
def text : TypeExpr → String
  | predefined name _ => name
  | named qualifier segments _ =>
    (match qualifier with
      | some a => a.text ++ "::"
      | none => "") ++ ".".intercalate (segmentTexts segments)
  | nullable inner _ => inner.text ++ "?"
  | array element rank _ =>
    element.text ++ "[" ++ String.ofList (List.replicate (rank - 1) ',') ++ "]"
  | pointer inner _ => inner.text ++ "*"
  | tuple elements _ => "(" ++ ", ".intercalate (texts elements) ++ ")"

def texts : List TypeExpr → List String
  | [] => []
  | t :: ts => t.text :: texts ts

/-- A segment written out, with its type arguments if it has any. -/
def segmentText : NameSegment → String
  | .mk i [] => i.text
  | .mk i (t :: ts) => i.text ++ "<" ++ ", ".intercalate (texts (t :: ts)) ++ ">"

def segmentTexts : List NameSegment → List String
  | [] => []
  | s :: ss => segmentText s :: segmentTexts ss

end

/-- The last name of a named type, looking through `?`. -/
def simpleName? : TypeExpr → Option String
  | named _ segments _ => segments.getLast?.map (·.identifier.name)
  | nullable inner _ => inner.simpleName?
  | _ => none

mutual

/-- The identifiers without type arguments anywhere in a type, in order. -/
def plainIdentifiers : TypeExpr → List Identifier
  | predefined _ _ => []
  | named _ segments _ => plainInSegments segments
  | nullable inner _ | array inner _ _ | pointer inner _ => inner.plainIdentifiers
  | tuple elements _ => plainInTypes elements

def plainInTypes : List TypeExpr → List Identifier
  | [] => []
  | t :: ts => t.plainIdentifiers ++ plainInTypes ts

/-- The identifier of a segment without type arguments, else those inside its arguments. -/
def plainInSegment : NameSegment → List Identifier
  | .mk i [] => [i]
  | .mk _ (t :: ts) => plainInTypes (t :: ts)

def plainInSegments : List NameSegment → List Identifier
  | [] => []
  | s :: ss => plainInSegment s ++ plainInSegments ss

end

end TypeExpr

inductive Variance where
  | contravariant | covariant
deriving DecidableEq, Repr, Inhabited

def Variance.text : Variance → String
  | contravariant => "in"
  | covariant => "out"

structure TypeParameter where
  variance : Option Variance
  identifier : Identifier
deriving DecidableEq, Repr, Inhabited

def TypeParameter.text (p : TypeParameter) : String :=
  match p.variance with
  | some v => v.text ++ " " ++ p.identifier.text
  | none => p.identifier.text

structure TypeParameters where
  parameters : List TypeParameter
  span : Span
deriving DecidableEq, Repr, Inhabited

namespace TypeParameters

def names (ps : TypeParameters) : List String := ps.parameters.map (·.identifier.text)

def text (ps : TypeParameters) : String :=
  "<" ++ ", ".intercalate (ps.parameters.map (·.text)) ++ ">"

end TypeParameters

end DeclGen
