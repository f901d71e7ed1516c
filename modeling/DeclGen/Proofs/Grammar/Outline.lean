import DeclGen.Proofs.Grammar.LiteralText

/-!
# Outlines of files

The skeleton of a file: block namespaces, types and enums, with everything that a tree tells about
them when nothing else is declared. An outline says which tokens the file is written with and which
tree it stands for.

## Main definitions

* `Outline`: a declaration
* `Outline.tokens`: the tokens it is written with
* `Outline.member`: the tree it stands for, without places
-/

namespace DeclGen

open Grammar Text

def TypeKind.words : TypeKind → List String
  | classType => ["class"]
  | structType => ["struct"]
  | interfaceType => ["interface"]
  | recordClass => ["record"]
  | recordStruct => ["record", "struct"]

namespace Outline

/-- A name: the text of one identifier. -/
structure Name where
  text : String
  isIdentifier : IsIdentifier text.toList

/-- The literal that gives an enum member its value. -/
structure Literal where
  text : String
  isDecimal : IsDecimal text.toList

structure Parameter where
  variance : Option Variance
  name : Name

/-- A type without its members. Without type parameters or bases there is no list of them. -/
structure Head where
  modifiers : List ModifierKind
  kind : TypeKind
  name : Name
  parameters : List Parameter
  bases : List {t : TypeExpr // t.Readable}

structure EnumItem where
  name : Name
  value : Option Literal

structure Enum where
  modifiers : List ModifierKind
  name : Name
  base : Option {word : String // isPredefinedType word = true}
  items : List EnumItem

end Outline

/-- A declaration of the skeleton. The parser does not ask where a namespace stands, so it may
stand anywhere. -/
inductive Outline where
  | ofNamespace (first : Outline.Name) (others : List Outline.Name) (members : List Outline)
  | ofType (head : Outline.Head) (members : List Outline)
  | ofEnum (decl : Outline.Enum)

namespace Outline

/-! ## What an outline is written with -/

def commas : List (List String) → List String
  | [] => []
  | [ts] => ts
  | ts :: us :: groups => ts ++ "," :: commas (us :: groups)

def Parameter.tokens (p : Parameter) : List String :=
  (p.variance.map (·.text)).toList ++ [p.name.text]

def parameterTokens : List Parameter → List String
  | [] => []
  | p :: ps => "<" :: (commas ((p :: ps).map (·.tokens)) ++ [">"])

/-- Base types behind a colon. The text of each of them is one token. -/
def baseTokens : List {t : TypeExpr // t.Readable} → List String
  | [] => []
  | t :: ts => ":" :: commas ((t :: ts).map fun u => [u.val.text])

/-- The tokens of a type behind its modifiers and before its members. -/
def Head.tokens (h : Head) : List String :=
  h.kind.words ++ h.name.text :: (parameterTokens h.parameters ++ baseTokens h.bases)

def EnumItem.tokens (i : EnumItem) : List String :=
  i.name.text :: (match i.value with
    | some v => ["=", v.text]
    | none => [])

def underlyingTokens : Option {word : String // isPredefinedType word = true} → List String
  | none => []
  | some word => [":", word.val]

def Enum.tokens (e : Enum) : List String :=
  "enum" :: e.name.text :: (underlyingTokens e.base ++
    "\x7b" :: (commas (e.items.map (·.tokens)) ++ ["\x7d"]))

def dotTokens (names : List Name) : List String := names.flatMap fun n => [".", n.text]

mutual

def tokens : Outline → List String
  | ofNamespace first others members =>
    "namespace" :: first.text :: (dotTokens others ++ "\x7b" :: (forestTokens members ++ ["\x7d"]))
  | ofType head members =>
    head.modifiers.map (·.text) ++
      (head.tokens ++ "\x7b" :: (forestTokens members ++ ["\x7d"]))
  | ofEnum decl => decl.modifiers.map (·.text) ++ decl.tokens

def forestTokens : List Outline → List String
  | [] => []
  | o :: os => o.tokens ++ forestTokens os

end

/-! ## What an outline stands for -/

def Name.identifier (n : Name) : Identifier := ⟨n.text, default⟩

def Parameter.parameter (p : Parameter) : TypeParameter := ⟨p.variance, p.name.identifier⟩

def modifiers (ks : List ModifierKind) : List Modifier := ks.map fun k => ⟨k, default⟩

def parameters? : List Parameter → Option TypeParameters
  | [] => none
  | p :: ps => some ⟨(p :: ps).map (·.parameter), default⟩

def Head.head (h : Head) : TypeHead where
  attributes := []
  modifiers := Outline.modifiers h.modifiers
  kind := h.kind
  identifier := h.name.identifier
  typeParameters := parameters? h.parameters
  primaryConstructor := none
  bases := h.bases.map (·.val.bare)
  span := default

def EnumItem.member (i : EnumItem) : EnumMember where
  attributes := []
  identifier := i.name.identifier
  initializer := i.value.map fun v => .integer v.text default
  span := default

def Enum.decl (e : Enum) : EnumDecl where
  attributes := []
  modifiers := Outline.modifiers e.modifiers
  identifier := e.name.identifier
  base := e.base.map fun word => .predefined word.val default
  members := e.items.map (·.member)
  span := default

def namespaceHead (first : Name) (others : List Name) : NamespaceHead where
  name := ⟨(first :: others).map (·.identifier), default⟩
  isFileScoped := false
  usings := []
  span := default

mutual

/-- The tree that the declaration stands for, without places. -/
def member : Outline → Member
  | ofNamespace first others members => .ofNamespace (namespaceHead first others) (forest members)
  | ofType head members => .ofType head.head (forest members)
  | ofEnum decl => .ofEnum decl.decl

def forest : List Outline → List Member
  | [] => []
  | o :: os => o.member :: forest os

end

end Outline

end DeclGen
