import DeclGen.Syntax.Member

/-!
# Declaration sites

Every type and enum of a tree with the declarations around it. Bodies of methods are not part of
the tree, so local declarations are out of reach.

## Main definitions

* `Enclosing`: a namespace or type around a declaration
* `TypeSite`, `EnumSite`, `Site`: a declaration and what is around it
* `CompilationUnit.sites`: all sites of a file in the order of their declarations
-/

namespace DeclGen

/-- A declaration around another one. -/
inductive Enclosing where
  | ofNamespace (head : NamespaceHead)
  | ofType (head : TypeHead)
deriving Inhabited

namespace Enclosing

def namespace? : Enclosing → Option NamespaceHead
  | ofNamespace head => some head
  | ofType _ => none

def type? : Enclosing → Option TypeHead
  | ofNamespace _ => none
  | ofType head => some head

def types (chain : List Enclosing) : List TypeHead := chain.filterMap type?

/-- The name of the namespace that a chain leads to, if it has one. -/
def namespaceName? (chain : List Enclosing) : Option String :=
  match chain.filterMap namespace? with
  | [] => none
  | heads => some (".".intercalate (heads.map (·.name.text)))

end Enclosing

/-- A type and the declarations around it, the outermost first. -/
structure TypeSite where
  chain : List Enclosing
  head : TypeHead
  members : List Member
deriving Inhabited

/-- An enum and the declarations around it, the outermost first. -/
structure EnumSite where
  chain : List Enclosing
  decl : EnumDecl
deriving Inhabited

/-- A type or enum and the declarations around it. -/
inductive Site where
  | ofType (site : TypeSite)
  | ofEnum (site : EnumSite)

namespace Site

def typeSite? : Site → Option TypeSite
  | ofType site => some site
  | ofEnum _ => none

def enumSite? : Site → Option EnumSite
  | ofType _ => none
  | ofEnum site => some site

end Site

mutual

/-- The sites in a declaration that `chain` encloses; a type comes before what it contains. -/
def Member.sites (chain : List Enclosing) : Member → List Site
  | .ofNamespace head members => sitesIn (chain ++ [.ofNamespace head]) members
  | .ofType head members =>
    .ofType ⟨chain, head, members⟩ :: sitesIn (chain ++ [.ofType head]) members
  | .ofEnum decl => [.ofEnum ⟨chain, decl⟩]
  | .ofField _ | .ofProperty _ | .ofMethod _ | .other _ _ => []

/-- The sites in declarations that `chain` encloses. -/
def sitesIn (chain : List Enclosing) : List Member → List Site
  | [] => []
  | m :: ms => m.sites chain ++ sitesIn chain ms

end

def CompilationUnit.sites (u : CompilationUnit) : List Site := sitesIn [] u.members

end DeclGen
