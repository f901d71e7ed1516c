import DeclGen.Syntax.Site

/-!
# Canonical paths

The path of an enum names everything around it, so that it can be written anywhere. The type
parameters of the types around it become parameters of its method.
-/

namespace DeclGen

/-- How an enum is written from outside, and the type parameters that this takes. -/
structure CanonicalPath where
  path : String
  typeParameters : List String
deriving DecidableEq, Repr, Inhabited

namespace CanonicalPath

def qualified (p : CanonicalPath) : String := "global::" ++ p.path

def inBrackets : List String → String
  | [] => ""
  | names => "<" ++ ", ".intercalate names ++ ">"

def genericSuffix (p : CanonicalPath) : String := inBrackets p.typeParameters

end CanonicalPath

namespace Enclosing

def typeParameterNames : Enclosing → List String
  | ofNamespace _ => []
  | ofType head => (head.typeParameters.map (·.names)).getD []

def pathSegment : Enclosing → String
  | ofNamespace head => head.name.text
  | ofType head =>
    match head.typeParameters with
    | some ps => head.identifier.text ++ "<" ++ ", ".intercalate ps.names ++ ">"
    | none => head.identifier.text

end Enclosing

def EnumSite.canonicalPath (site : EnumSite) : CanonicalPath where
  path := ".".intercalate (site.chain.map (·.pathSegment) ++ [site.decl.identifier.text])
  typeParameters := site.chain.flatMap (·.typeParameterNames)

end DeclGen
