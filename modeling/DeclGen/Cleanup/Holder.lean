import DeclGen.Settings.Basic
import DeclGen.SourceSet
import DeclGen.Syntax.Site

/-!
# Holders

A holder is a class whose base list names the configured base type. Its fields and auto-properties
of a handle type are the handles that it has to release.

## Main definitions

* `TypeHead.derivesFrom`: whether a type names a base type
* `Member.handles`: the handles that a member declares
* `Holder`, `SourceSet.holders`: the holders of a run
-/

namespace DeclGen

/-- Whether the base list mentions a type by a name without type arguments. -/
def TypeHead.derivesFrom (h : TypeHead) (base : String) : Bool :=
  h.bases.any fun t => t.plainIdentifiers.any (·.name == base)

/-- Whether the type is one of the handle types by its simple name. -/
def TypeExpr.isHandle (handleTypes : List String) (t : TypeExpr) : Bool :=
  match t.simpleName? with
  | some name => handleTypes.contains name
  | none => false

/-- The handles that a member declares: the variables of a field, or an auto-property that
implements no interface explicitly. -/
def Member.handles (handleTypes : List String) : Member → List Identifier
  | .ofField f => if f.type.isHandle handleTypes then f.declarators.map (·.identifier) else []
  | .ofProperty p =>
    if p.isAuto && p.explicitInterface.isNone && p.type.isHandle handleTypes then [p.identifier]
    else []
  | _ => []

namespace TypeSite

def handles (site : TypeSite) (handleTypes : List String) : List Identifier :=
  site.members.flatMap (·.handles handleTypes)

def methods (site : TypeSite) : List MethodDecl := site.members.filterMap (·.method?)

/-- Whether the type is a class that names the base type. -/
def isHolder (site : TypeSite) (settings : CleanupSettings) : Bool :=
  site.head.kind == .classType && site.head.derivesFrom settings.baseType

end TypeSite

/-- A class that names the base type, in its file. -/
structure Holder where
  tree : SyntaxTree
  site : TypeSite
  /-- The handles to release, in order. -/
  handles : List Identifier
deriving Inhabited

namespace Holder

def identifier (h : Holder) : Identifier := h.site.head.identifier

def containers (h : Holder) : List TypeHead := Enclosing.types h.site.chain

def namespaceName? (h : Holder) : Option String := Enclosing.namespaceName? h.site.chain

def ofTree (settings : CleanupSettings) (tree : SyntaxTree) : List Holder :=
  ((tree.root.sites.filterMap Site.typeSite?).filter (·.isHolder settings)).map fun site =>
    ⟨tree, site, site.handles settings.handleTypes⟩

end Holder

def SourceSet.holders (set : SourceSet) (settings : CleanupSettings) : List Holder :=
  set.trees.flatMap (Holder.ofTree settings)

end DeclGen
