import DeclGen.Syntax.Member

/-!
# Trees without places

What a tree says when it is forgotten where in the file each part of it stands: every span becomes
the default one, and nothing else changes.

## Main definitions

* `TypeExpr.bare`, `Expr.bare`, `Member.bare`: the tree without its spans

## Main statements

* `TypeExpr.simpleName?_bare`, `TypeExpr.plainIdentifiers_bare`: the names a type mentions
-/

namespace DeclGen

/-! ## Names, modifiers and directives -/

def Identifier.bare (i : Identifier) : Identifier := { i with span := default }

def DottedName.bare (n : DottedName) : DottedName := ⟨n.segments.map (·.bare), default⟩

def Modifier.bare (m : Modifier) : Modifier := { m with span := default }

def AttributeList.bare (a : AttributeList) : AttributeList := { a with span := default }

def UsingDirective.bare (u : UsingDirective) : UsingDirective :=
  { u with aliasName := u.aliasName.map (·.bare), span := default }

def TypeParameter.bare (p : TypeParameter) : TypeParameter :=
  { p with identifier := p.identifier.bare }

def TypeParameters.bare (ps : TypeParameters) : TypeParameters :=
  ⟨ps.parameters.map (·.bare), default⟩

theorem Identifier.bare_eq (i : Identifier) : i.bare = ⟨i.text, default⟩ := rfl

/-! ## Types and expressions -/

namespace TypeExpr

mutual

def bare : TypeExpr → TypeExpr
  | predefined name _ => .predefined name default
  | named qualifier segments _ =>
    .named (qualifier.map (·.bare)) (bareSegments segments) default
  | nullable inner _ => .nullable inner.bare default
  | array element rank _ => .array element.bare rank default
  | pointer inner _ => .pointer inner.bare default
  | tuple elements _ => .tuple (bareTypes elements) default

def bareTypes : List TypeExpr → List TypeExpr
  | [] => []
  | t :: ts => t.bare :: bareTypes ts

def bareSegment : NameSegment → NameSegment
  | .mk i arguments => .mk i.bare (bareTypes arguments)

def bareSegments : List NameSegment → List NameSegment
  | [] => []
  | s :: ss => bareSegment s :: bareSegments ss

end

@[simp] theorem bareTypes_eq (ts : List TypeExpr) : bareTypes ts = ts.map (·.bare) := by
  induction ts with
  | nil => rfl
  | cons t ts ih => rw [bareTypes, ih, List.map_cons]

@[simp] theorem bareSegments_eq (ss : List NameSegment) : bareSegments ss = ss.map bareSegment := by
  induction ss with
  | nil => rfl
  | cons s ss ih => rw [bareSegments, ih, List.map_cons]

/-! ### The names a type mentions -/

theorem identifier_bareSegment (g : NameSegment) :
    (bareSegment g).identifier = g.identifier.bare := by
  cases g
  rfl

theorem simpleName?_bare : ∀ t : TypeExpr, t.bare.simpleName? = t.simpleName?
  | .predefined .. | .array .. | .pointer .. | .tuple .. => rfl
  | .nullable inner _ => inner.simpleName?_bare
  | .named _ segments _ => by
    simp only [bare, simpleName?, bareSegments_eq, List.getLast?_map, Option.map_map]
    congr 1
    funext g
    simp only [Function.comp_apply, identifier_bareSegment]
    rfl

mutual

theorem plainIdentifiers_bare :
    ∀ t : TypeExpr, t.bare.plainIdentifiers = t.plainIdentifiers.map (·.bare)
  | .predefined .. => rfl
  | .named _ segments _ => plainInSegments_bare segments
  | .nullable inner _ | .array inner _ _ | .pointer inner _ => plainIdentifiers_bare inner
  | .tuple elements _ => plainInTypes_bare elements

theorem plainInTypes_bare :
    ∀ ts : List TypeExpr, plainInTypes (bareTypes ts) = (plainInTypes ts).map (·.bare)
  | [] => rfl
  | t :: ts => by
    rw [bareTypes, plainInTypes, plainInTypes, List.map_append, plainIdentifiers_bare t,
      plainInTypes_bare ts]

theorem plainInSegment_bare :
    ∀ g : NameSegment, plainInSegment (bareSegment g) = (plainInSegment g).map (·.bare)
  | .mk _ [] => rfl
  | .mk _ (t :: ts) => plainInTypes_bare (t :: ts)

theorem plainInSegments_bare :
    ∀ gs : List NameSegment,
      plainInSegments (bareSegments gs) = (plainInSegments gs).map (·.bare)
  | [] => rfl
  | g :: gs => by
    rw [bareSegments, plainInSegments, plainInSegments, List.map_append, plainInSegment_bare g,
      plainInSegments_bare gs]

end

end TypeExpr

def Expr.bare : Expr → Expr
  | integer text _ => .integer text default
  | character value _ => .character value default
  | name segments _ => .name (segments.map (·.bare)) default
  | unary op operand _ => .unary op operand.bare default
  | binary op left right _ => .binary op left.bare right.bare default
  | parenthesized inner _ => .parenthesized inner.bare default
  | cast type operand _ => .cast type.bare operand.bare default
  | overflowContext isChecked inner _ => .overflowContext isChecked inner.bare default
  | unsupported text _ => .unsupported text default

/-! ## Declarations -/

def EnumMember.bare (m : EnumMember) : EnumMember :=
  ⟨m.attributes.map (·.bare), m.identifier.bare, m.initializer.map (·.bare), default⟩

def EnumDecl.bare (d : EnumDecl) : EnumDecl :=
  ⟨d.attributes.map (·.bare), d.modifiers.map (·.bare), d.identifier.bare, d.base.map (·.bare),
    d.members.map (·.bare), default⟩

/-- The declarator without its places; that it has an initializer is still told. -/
def Declarator.bare (d : Declarator) : Declarator :=
  ⟨d.identifier.bare, d.initializer.map fun _ => default, default⟩

def FieldDecl.bare (d : FieldDecl) : FieldDecl :=
  ⟨d.attributes.map (·.bare), d.modifiers.map (·.bare), d.type.bare, d.declarators.map (·.bare),
    default⟩

def PropertyDecl.bare (d : PropertyDecl) : PropertyDecl :=
  { d with
    attributes := d.attributes.map (·.bare), modifiers := d.modifiers.map (·.bare)
    type := d.type.bare, identifier := d.identifier.bare, span := default }

def MethodDecl.bare (d : MethodDecl) : MethodDecl :=
  { d with
    attributes := d.attributes.map (·.bare), modifiers := d.modifiers.map (·.bare)
    returnType := d.returnType.bare, identifier := d.identifier.bare
    typeParameters := d.typeParameters.map (·.bare), span := default }

def TypeHead.bare (h : TypeHead) : TypeHead :=
  { h with
    attributes := h.attributes.map (·.bare), modifiers := h.modifiers.map (·.bare)
    identifier := h.identifier.bare, typeParameters := h.typeParameters.map (·.bare)
    bases := h.bases.map (·.bare), span := default }

def NamespaceHead.bare (h : NamespaceHead) : NamespaceHead :=
  { h with name := h.name.bare, usings := h.usings.map (·.bare), span := default }

mutual

def Member.bare : Member → Member
  | .ofNamespace head members => .ofNamespace head.bare (bareMembers members)
  | .ofType head members => .ofType head.bare (bareMembers members)
  | .ofEnum decl => .ofEnum decl.bare
  | .ofField decl => .ofField decl.bare
  | .ofProperty decl => .ofProperty decl.bare
  | .ofMethod decl => .ofMethod decl.bare
  | .other kind _ => .other kind default

def bareMembers : List Member → List Member
  | [] => []
  | m :: ms => m.bare :: bareMembers ms

end

@[simp] theorem bareMembers_eq (ms : List Member) : bareMembers ms = ms.map (·.bare) := by
  induction ms with
  | nil => rfl
  | cons m ms ih => rw [bareMembers, ih, List.map_cons]

end DeclGen
