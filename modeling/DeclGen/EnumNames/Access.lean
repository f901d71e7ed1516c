import DeclGen.Syntax.Site

/-!
# The accessibility of enums

An enum gets a method if the method can be written outside all types: if the enum is public or
internal and no type around it keeps it from being seen.

## Main definitions

* `Visibility`: the accessibility of a method
* `AccessError`: why the accessibility of an enum cannot be told
* `EnumSite.access`: the visibility of an enum
-/

namespace DeclGen

/-- The accessibility of a generated method. -/
inductive Visibility where
  | publicMethod | internalMethod
deriving DecidableEq, Repr, Inhabited

def Visibility.keyword : Visibility → String
  | publicMethod => "public"
  | internalMethod => "internal"

/-- Why the accessibility of an enum cannot be told. -/
inductive AccessError where
  /-- The enum is declared both public and internal. -/
  | contradictory (enum : Identifier)
  /-- A type around the enum has no accessibility modifier. -/
  | unmarked (container : Identifier)
deriving DecidableEq, Repr, Inhabited

namespace AccessError

def span : AccessError → Span
  | contradictory enum => enum.span
  | unmarked container => container.span

def reason : AccessError → String
  | contradictory _ => "declares both 'public' and 'internal'"
  | unmarked container => "enclosing type '" ++ container.text ++ "' has no accessibility modifier"

end AccessError

/-- Whether a modifier keeps a type from being seen everywhere in its assembly. -/
def ModifierKind.isRestricting : ModifierKind → Bool
  | privateMod | protectedMod | fileMod => true
  | _ => false

/-- The visibility that is left of `v` inside the types around an enum, the innermost first. -/
def Visibility.within (v : Visibility) :
    (containers : List TypeHead) → Except AccessError (Option Visibility)
  | [] => .ok (some v)
  | t :: ts =>
    let access := Modifier.access t.modifiers
    if access.isEmpty then .error (.unmarked t.identifier)
    else if access.any (·.kind.isRestricting) then .ok none
    else within (if Modifier.has access .internalMod then .internalMethod else v) ts

/-- The visibility of the method of an enum; there is none for an enum that cannot be seen. -/
def EnumSite.access (site : EnumSite) : Except AccessError (Option Visibility) :=
  let isPublic := Modifier.has site.decl.modifiers .publicMod
  let isInternal := Modifier.has site.decl.modifiers .internalMod
  if isPublic && isInternal then .error (.contradictory site.decl.identifier)
  else if isInternal then Visibility.internalMethod.within (Enclosing.types site.chain).reverse
  else if isPublic then Visibility.publicMethod.within (Enclosing.types site.chain).reverse
  else .ok none

end DeclGen
