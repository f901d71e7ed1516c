import DeclGen.Syntax.Expr
import DeclGen.Syntax.Modifier

/-!
# Declarations

The tree of a file: namespaces, types and enums with their members. Bodies and field initializers
are not part of it. A namespace or type is its head, which says all about it but its members, and
the list of its members.

## Main definitions

* `NamespaceHead`, `TypeHead`: what a namespace or type declares besides its members
* `EnumDecl`, `FieldDecl`, `PropertyDecl`, `MethodDecl`: the members that are looked into
* `Member`, `CompilationUnit`: the tree
-/

namespace DeclGen

/-- A using directive; the name after it is kept as text. -/
structure UsingDirective where
  isGlobal : Bool
  isStatic : Bool
  aliasName : Option Identifier
  name : String
  span : Span
deriving DecidableEq, Repr, Inhabited

/-- An attribute list, kept as text with its brackets. -/
structure AttributeList where
  text : String
  span : Span
deriving DecidableEq, Repr, Inhabited

/-- What a namespace declares besides its members. -/
structure NamespaceHead where
  name : DottedName
  isFileScoped : Bool
  usings : List UsingDirective
  span : Span
deriving DecidableEq, Repr, Inhabited

/-- The kinds of type declaration other than enums and delegates. -/
inductive TypeKind where
  | classType | structType | interfaceType | recordClass | recordStruct
deriving DecidableEq, Repr, Inhabited

def TypeKind.keyword : TypeKind → String
  | classType => "class"
  | structType => "struct"
  | interfaceType => "interface"
  | recordClass => "record"
  | recordStruct => "record struct"

/-- What a type declares besides its members. -/
structure TypeHead where
  attributes : List AttributeList
  modifiers : List Modifier
  kind : TypeKind
  identifier : Identifier
  typeParameters : Option TypeParameters
  /-- The number of parameters of the primary constructor. -/
  primaryConstructor : Option Nat
  bases : List TypeExpr
  span : Span
deriving Inhabited

namespace TypeHead

def displayName (h : TypeHead) : String :=
  match h.typeParameters with
  | some ps => h.identifier.text ++ ps.text
  | none => h.identifier.text

def isPartial (h : TypeHead) : Bool := Modifier.has h.modifiers .partialMod

end TypeHead

structure EnumMember where
  attributes : List AttributeList
  identifier : Identifier
  initializer : Option Expr
  span : Span
deriving Inhabited

structure EnumDecl where
  attributes : List AttributeList
  modifiers : List Modifier
  identifier : Identifier
  /-- The underlying integral type, if one is named. -/
  base : Option TypeExpr
  members : List EnumMember
  span : Span
deriving Inhabited

/-- One variable of a field declaration. -/
structure Declarator where
  identifier : Identifier
  /-- Where the initializer stands. -/
  initializer : Option Span
  span : Span
deriving DecidableEq, Repr, Inhabited

structure FieldDecl where
  attributes : List AttributeList
  modifiers : List Modifier
  type : TypeExpr
  declarators : List Declarator
  span : Span
deriving Inhabited

structure PropertyDecl where
  attributes : List AttributeList
  modifiers : List Modifier
  type : TypeExpr
  /-- The interface that the property implements explicitly. -/
  explicitInterface : Option String
  identifier : Identifier
  /-- Whether the property has storage of its own. -/
  isAuto : Bool
  span : Span
deriving Inhabited

structure MethodDecl where
  attributes : List AttributeList
  modifiers : List Modifier
  returnType : TypeExpr
  /-- The interface that the method implements explicitly. -/
  explicitInterface : Option String
  identifier : Identifier
  typeParameters : Option TypeParameters
  parameterCount : Nat
  hasBody : Bool
  span : Span
deriving Inhabited

/-- The kinds of member of which only the extent is kept. -/
inductive OtherKind where
  | constructor | destructor | operator | conversion | indexer | event | delegate
deriving DecidableEq, Repr, Inhabited

/-- A declaration in a file, namespace or type. -/
inductive Member where
  | ofNamespace (head : NamespaceHead) (members : List Member)
  | ofType (head : TypeHead) (members : List Member)
  | ofEnum (decl : EnumDecl)
  | ofField (decl : FieldDecl)
  | ofProperty (decl : PropertyDecl)
  | ofMethod (decl : MethodDecl)
  | other (kind : OtherKind) (span : Span)
deriving Inhabited

namespace Member

def span : Member → Span
  | ofNamespace head _ => head.span
  | ofType head _ => head.span
  | ofEnum decl => decl.span
  | ofField decl => decl.span
  | ofProperty decl => decl.span
  | ofMethod decl => decl.span
  | other _ span => span

def method? : Member → Option MethodDecl
  | ofMethod decl => some decl
  | _ => none

end Member

/-- The tree of a file. -/
structure CompilationUnit where
  usings : List UsingDirective
  members : List Member
  span : Span
deriving Inhabited

end DeclGen
