import DeclGen.Grammar.Unit
import DeclGen.Proofs.Grammar.Headers
import DeclGen.Proofs.Grammar.Yields
import DeclGen.Syntax.Site

/-!
# The names in parsed trees

Every name in a tree that was read from a text can be read again: identifiers are identifiers,
dotted names have identifiers between their dots, and lists of type parameters are not empty.

## Main definitions

* `DottedName.WellNamed`: the parts of a dotted name
* `TypeHead.WellNamed`, `EnumDecl.WellNamed`, `Member.WellNamed`: the names of declarations
* `Member.IsSimple`: fields, properties, methods and members of which only the extent is kept
* `Inherited`: properties that declarations have if those inside them have them
* `Site.WellNamed`: the names of a type or enum and of the declarations around it

## Main statements

* `Inherited.forall_members`: inherited properties of what is read
* `wellNamed_of_parse`: what is read is well-named
-/

namespace DeclGen

open DeclGen.Grammar

/-- The text of the identifier can be read back. -/
def Identifier.WellNamed (i : Identifier) : Prop := IsIdentifier i.text.toList

/-- The name has parts, and each of them can be read back. -/
def DottedName.WellNamed (n : DottedName) : Prop :=
  n.segments ≠ [] ∧ ∀ i ∈ n.segments, i.WellNamed

def TypeHead.WellNamed (h : TypeHead) : Prop :=
  h.identifier.WellNamed ∧ ∀ ps ∈ h.typeParameters, IsParameterList ps

/-- The names of the enum and its members can be read back. -/
def EnumDecl.WellNamed (d : EnumDecl) : Prop :=
  d.identifier.WellNamed ∧ ∀ m ∈ d.members, m.identifier.WellNamed

/-- The names of namespaces, types, enums, fields and properties in the declaration can be read
back. -/
inductive Member.WellNamed : Member → Prop where
  | ofNamespace {head : NamespaceHead} {members : List Member}
      (hname : IsDottedName head.name.text.toList) (h : ∀ m ∈ members, m.WellNamed) :
      WellNamed (.ofNamespace head members)
  | ofType {head : TypeHead} {members : List Member} (hhead : head.WellNamed)
      (h : ∀ m ∈ members, m.WellNamed) : WellNamed (.ofType head members)
  | ofEnum {decl : EnumDecl} (h : decl.WellNamed) : WellNamed (.ofEnum decl)
  | ofField {decl : FieldDecl} (h : ∀ d ∈ decl.declarators, d.identifier.WellNamed) :
      WellNamed (.ofField decl)
  | ofProperty {decl : PropertyDecl} (h : decl.identifier.WellNamed) : WellNamed (.ofProperty decl)
  | ofMethod (decl : MethodDecl) : WellNamed (.ofMethod decl)
  | other (kind : OtherKind) (span : Span) : WellNamed (.other kind span)

/-- The declaration is one of a field, property or method, or only its extent is kept. -/
def Member.IsSimple : Member → Prop
  | .ofField _ | .ofProperty _ | .ofMethod _ | .other _ _ => True
  | .ofNamespace _ _ | .ofType _ _ | .ofEnum _ => False

/-- The text of a name with parts that can be read back is a dotted name. -/
theorem DottedName.WellNamed.isDottedName {n : DottedName} (h : n.WellNamed) :
    IsDottedName n.text.toList := by
  refine .intercalate (by simpa using h.1) fun s hs => ?_
  obtain ⟨i, hi, rfl⟩ := List.mem_map.mp hs
  exact IsIdentifier.isDottedName (h.2 i hi)

namespace Grammar

open DeclGen.Grammar.Parser DeclGen.Text

/-! ## Words and names -/

theorem isWord_take_wordLength {s : List Char} {n : Nat} (h : wordLength s = n + 1) :
    IsWord (s.take (n + 1)) := by
  cases s with
  | nil => cases h
  | cons c s =>
    rw [wordLength] at h
    split at h
    next hc =>
      obtain rfl : (s.takeWhile isWordPart).length = n := by omega
      rw [List.take_succ_cons, ← List.prefix_iff_eq_take.mp (List.takeWhile_prefix isWordPart)]
      exact ⟨hc, fun d hd => List.all_eq_true.mp List.all_takeWhile d hd⟩
    next => cases h

theorem yields_word : Yields word fun w => IsWord w.toList := by
  intro c w c' h
  rw [word, Parser.bind_apply] at h
  cases hn : wordLength c.rest with
  | zero =>
    simp only [Parser.ahead, hn] at h
    cases h
  | succ n =>
    simp only [Parser.ahead, hn] at h
    cases h
    rw [String.toList_ofList]
    exact isWord_take_wordLength hn

theorem yields_identifier : Yields identifier Identifier.WellNamed := by
  refine .bind_right fun _ => .bind_right fun start => .bind_right fun isVerbatim => ?_
  refine yields_word.bind fun found hfound => ?_
  split
  next => exact .failAt start _
  next hkeyword =>
    refine .bind_right fun span => .pure ?_
    cases isVerbatim with
    | false => exact .inl ⟨hfound, by simpa using hkeyword⟩
    | true => exact .inr ⟨found.toList, by simp, hfound⟩

theorem yields_dottedName : Yields dottedName DottedName.WellNamed := by
  have htail : Yields dottedTail fun is => ∀ i ∈ is, i.WellNamed := by
    refine .many (.bind_right fun isDot => ?_)
    split
    next => exact yields_identifier.bind fun i hi => .pure (by rintro _ ⟨⟩; exact hi)
    next => exact .pure (by rintro _ ⟨⟩)
  refine yields_identifier.bind fun i hi => htail.bind fun is his => .pure ⟨by simp, ?_⟩
  exact List.forall_mem_cons.mpr ⟨hi, his⟩

theorem yields_typeParameter : Yields typeParameter IsParameter := by
  have hname (v : Option Variance) :
      Yields (do return (⟨v, ← label "type parameter" identifier⟩ : TypeParameter)) IsParameter :=
    (Yields.label yields_identifier).bind fun i hi => .pure hi
  refine .bind_right fun _ => .bind_right fun isIn => ?_
  split
  next => exact .bind_right hname
  next =>
    refine .bind_right fun isOut => ?_
    split
    next => exact .bind_right hname
    next => exact .bind_right hname

theorem yields_typeParameters? :
    Yields typeParameters? fun r => ∀ ps ∈ r, IsParameterList ps := by
  refine .bind_right fun _ => .bind_right fun start => .bind_right fun isOpen => ?_
  split
  next =>
    refine (Yields.sepBy_ne_nil.and (.sepBy yields_typeParameter)).bind fun ps hps => ?_
    refine .bind_right fun _ => .bind_right fun span => .pure ?_
    rintro _ ⟨⟩
    exact hps
  next => exact .pure (by rintro _ ⟨⟩)

/-! ## Members -/

theorem yields_memberName : Yields memberName fun n => n.identifier.WellNamed := by
  have hsegment : Yields nameSegment fun r => r.1.WellNamed := by
    refine yields_identifier.bind fun i hi => ?_
    exact .bind_right fun _ => .bind_right fun ps => .pure hi
  refine (Yields.sepBy (.bind_right fun _ => hsegment.withText)).bind fun segments hsegments => ?_
  dsimp only
  split
  next name ps text hlast => exact .pure (hsegments _ (List.mem_of_getLast? hlast))
  next => exact .fail

theorem yields_otherMember (start : Nat) (kind : OtherKind) :
    Yields (otherMember start kind) Member.WellNamed := by
  refine .bind_right fun _ => .bind_right fun _ => .bind_right fun isAssignment => ?_
  split
  next => exact .bind_right fun _ => .bind_right fun _ => .bind_right fun _ => .pure (.other _ _)
  next => exact .bind_right fun _ => .bind_right fun _ => .pure (.other _ _)

theorem yields_declarator {name : Identifier} (hname : name.WellNamed) :
    Yields (declarator name) fun d => d.identifier.WellNamed := by
  have hrest : Yields (do
      trivia
      if ← acceptHere "=" then
        let initializer ← fieldInitializer
        return (⟨name, some initializer, ⟨name.span.start, initializer.stop⟩⟩ : Declarator)
      else return ⟨name, none, name.span⟩) fun d => d.identifier.WellNamed := by
    refine .bind_right fun _ => .bind_right fun isAssignment => ?_
    split
    next => exact .bind_right fun _ => .pure hname
    next => exact .pure hname
  refine .bind_right fun _ => .bind_right fun isBracket => ?_
  split
  next => exact .bind_right fun _ => hrest
  next => exact hrest

theorem yields_fieldDeclaration {h : DeclHeader} {type : TypeExpr} {name : MemberName}
    (hname : name.identifier.WellNamed) :
    Yields (fieldDeclaration h type name) Member.WellNamed := by
  refine (yields_declarator hname).bind fun first hfirst => ?_
  refine (Yields.many (P := fun d => d.identifier.WellNamed) (.bind_right fun isComma => ?_)).bind
    fun others hothers => .bind_right fun _ => .bind_right fun span => .pure (.ofField ?_)
  · split
    next =>
      refine (Yields.label yields_identifier).bind fun i hi => ?_
      exact (yields_declarator hi).bind fun d hd => .pure (by rintro _ ⟨⟩; exact hd)
    next => exact .pure (by rintro _ ⟨⟩)
  · intro d hd
    rcases List.mem_cons.mp hd with rfl | hd
    · exact hfirst
    · exact hothers d hd

theorem yields_typedMember (h : DeclHeader) : Yields (typedMember h) Member.WellNamed := by
  refine .bind_right fun type => .bind_right fun isOperator => ?_
  split
  next => exact .bind_right fun _ => yields_otherMember _ _
  refine .bind_right fun isIndexer => ?_
  split
  next => exact .bind_right fun _ => .bind_right fun _ => yields_otherMember _ _
  refine (Yields.label yields_memberName).bind fun name hname => ?_
  refine .bind_right fun _ => .bind_right fun isMethod => ?_
  split
  next =>
    refine .bind_right fun _ => .bind_right fun _ => .bind_right fun _ => ?_
    exact .bind_right fun _ => .pure (.ofMethod _)
  refine .bind_right fun isBrace => .bind_right fun isArrow => ?_
  split
  next => exact .bind_right fun _ => .bind_right fun _ => .pure (.ofProperty hname)
  next => exact yields_fieldDeclaration hname

theorem yields_enumMember : Yields enumMember fun m => m.identifier.WellNamed := by
  refine .bind_right fun _ => .bind_right fun _ => .bind_right fun _ => ?_
  refine yields_identifier.bind fun i hi => .bind_right fun hasInitializer => ?_
  split
  next => exact .bind_right fun _ => .bind_right fun _ => .pure hi
  next => exact .bind_right fun _ => .bind_right fun _ => .pure hi

theorem yields_enumMembers : Yields enumMembers fun ms => ∀ m ∈ ms, m.identifier.WellNamed := by
  refine .rounds (.bind_right fun _ => .bind_right fun isEnd => ?_)
  split
  next => exact .pure trivial
  refine (Yields.label yields_enumMember).bind fun m hm => .bind_right fun isComma => ?_
  split
  next => exact .pure hm
  next => exact .bind_right fun _ => .pure hm

theorem yields_enumDeclaration (h : DeclHeader) :
    Yields (enumDeclaration h) Member.WellNamed := by
  refine .bind_right fun _ => (Yields.label yields_identifier).bind fun name hname => ?_
  refine .bind_right fun _ => .bind_right fun hasBase => ?_
  have hrest (base : Option TypeExpr) : Yields (do
      label "'\x7b' opening the enum body" (symbol "\x7b")
      let members ← enumMembers
      let _ ← accept ";"
      return Member.ofEnum ⟨h.attributes, h.modifiers, name, base, members, ← spanFrom h.start⟩)
      Member.WellNamed := by
    refine .bind_right fun _ => yields_enumMembers.bind fun members hmembers => ?_
    exact .bind_right fun _ => .bind_right fun _ => .pure (.ofEnum ⟨hname, hmembers⟩)
  split
  next => exact .bind_right hrest
  next => exact .bind_right hrest

theorem simple_otherMember (start : Nat) (kind : OtherKind) :
    Yields (otherMember start kind) Member.IsSimple := by
  refine .bind_right fun _ => .bind_right fun _ => .bind_right fun isAssignment => ?_
  split
  next => exact .bind_right fun _ => .bind_right fun _ => .bind_right fun _ => .pure trivial
  next => exact .bind_right fun _ => .bind_right fun _ => .pure trivial

/-- A member that starts with a type declares no type and no namespace. -/
theorem simple_typedMember (h : DeclHeader) : Yields (typedMember h) Member.IsSimple := by
  refine .bind_right fun type => .bind_right fun isOperator => ?_
  split
  next => exact .bind_right fun _ => simple_otherMember _ _
  refine .bind_right fun isIndexer => ?_
  split
  next => exact .bind_right fun _ => .bind_right fun _ => simple_otherMember _ _
  refine .bind_right fun name => .bind_right fun _ => .bind_right fun isMethod => ?_
  split
  next =>
    refine .bind_right fun _ => .bind_right fun _ => .bind_right fun _ => ?_
    exact .bind_right fun _ => .pure trivial
  refine .bind_right fun isBrace => .bind_right fun isArrow => ?_
  split
  next => exact .bind_right fun _ => .bind_right fun _ => .pure trivial
  next =>
    refine .bind_right fun _ => .bind_right fun _ => .bind_right fun _ => ?_
    exact .bind_right fun _ => .pure trivial

/-! ## Declarations -/

/-- A property that single members have when they are read, and that a namespace or type with names
that can be read back has if all declarations in it have it. -/
structure Inherited (P : Member → Prop) : Prop where
  ofNamespace : ∀ head members, head.name.WellNamed → (∀ m ∈ members, P m) →
    P (.ofNamespace head members)
  ofType : ∀ head members, head.WellNamed → (∀ m ∈ members, P m) → P (.ofType head members)
  ofEnum : ∀ h, Yields (enumDeclaration h) P
  other : ∀ start kind, Yields (otherMember start kind) P
  typed : ∀ h, Yields (typedMember h) P

namespace Inherited

variable {P : Member → Prop}

section

variable (hP : Inherited P) {self : Option String → Parser (List Member)}
  (hself : ∀ c, Yields (self c) fun ms => ∀ m ∈ ms, P m)

include hP hself

theorem typeDeclaration (h : DeclHeader) : Yields (typeDeclaration self h) P := by
  have hbody (name : Identifier) : Yields (typeBody self name) fun ms => ∀ m ∈ ms, P m := by
    refine .bind_right fun isEmpty => ?_
    split
    next => exact .pure (by rintro m ⟨⟩)
    refine .bind_right fun _ => (hself _).bind fun members hmembers => ?_
    exact .bind_right fun _ => .pure hmembers
  refine .bind_right fun kind => (Yields.label yields_identifier).bind fun name hname => ?_
  refine yields_typeParameters?.bind fun ps hps => .bind_right fun _ => .bind_right fun _ => ?_
  refine .bind_right fun _ => .bind_right fun _ => .bind_right fun _ => ?_
  refine (hbody name).bind fun members hmembers => .bind_right fun _ => .pure ?_
  exact hP.ofType _ _ ⟨hname, hps⟩ hmembers

theorem namespaceDeclaration (start : Nat) : Yields (namespaceDeclaration self start) P := by
  have hscoped : Yields (fileScopedBody self) fun r => ∀ m ∈ r.2, P m :=
    .bind_right fun _ => (hself none).bind fun members hmembers =>
      .bind_right fun _ => .pure hmembers
  have hblock : Yields (blockBody self) fun r => ∀ m ∈ r.2, P m := by
    refine .bind_right fun _ => .bind_right fun _ => (hself none).bind fun members hmembers => ?_
    exact .bind_right fun _ => .bind_right fun _ => .pure hmembers
  refine .bind_right fun _ => (Yields.label yields_dottedName).bind fun name hname => ?_
  refine .bind_right fun _ => .bind_right fun isFileScoped => ?_
  have hrest (r : List UsingDirective × List Member) (hr : ∀ m ∈ r.2, P m) :
      Yields (do return .ofNamespace ⟨name, isFileScoped, r.1, ← spanFrom start⟩ r.2) P :=
    .bind_right fun _ => .pure (hP.ofNamespace _ _ hname hr)
  split
  next => exact hscoped.bind hrest
  next => exact hblock.bind hrest

theorem memberDeclarationOf (container : Option String) :
    Yields (memberDeclarationOf self container) P := by
  refine .bind_right fun _ => .bind_right fun start => .bind_right fun as => ?_
  refine .bind_right fun ms => .bind_right fun next => ?_
  split
  next => exact hP.namespaceDeclaration hself start
  next => exact hP.typeDeclaration hself _
  next => exact hP.typeDeclaration hself _
  next => exact hP.typeDeclaration hself _
  next => exact hP.typeDeclaration hself _
  next => exact hP.ofEnum _
  next => exact hP.other _ _
  next => exact hP.other _ _
  next => exact .bind_right fun _ => hP.other _ _
  next => exact .bind_right fun _ => hP.other _ _
  refine .bind_right fun isDestructor => ?_
  split
  next => exact .bind_right fun _ => .bind_right fun _ => hP.other _ _
  refine .bind_right fun isConstructor => ?_
  split
  next => exact .bind_right fun _ => hP.other _ _
  next => exact hP.typed _

theorem membersOf (container : Option String) :
    Yields (membersOf self container) fun ms => ∀ m ∈ ms, P m := by
  refine .many (.bind_right fun _ => .bind_right fun s => ?_)
  split
  next => exact .pure (by rintro _ ⟨⟩)
  next => exact .pure (by rintro _ ⟨⟩)
  next =>
    refine (hP.memberDeclarationOf hself container).bind fun m hm => .pure ?_
    rintro _ ⟨⟩
    exact hm

end

theorem membersIn (hP : Inherited P) (container : Option String) :
    Yields (membersIn container) fun ms => ∀ m ∈ ms, P m :=
  .fix (fun _ hself => hP.membersOf hself) container

/-- All declarations of a file that is read have an inherited property. -/
theorem forall_members {text : String} {u : CompilationUnit} (hP : Inherited P)
    (h : CompilationUnit.parse text = .ok u) : ∀ m ∈ u.members, P m := by
  have hunit : Yields compilationUnit fun u => ∀ m ∈ u.members, P m := by
    refine .bind_right fun _ => .bind_right fun _ => .bind_right fun _ => ?_
    refine (hP.membersIn none).bind fun members hmembers => ?_
    exact .bind_right fun _ => .bind_right fun _ => .pure hmembers
  obtain ⟨c, hread⟩ := CompilationUnit.exists_of_parse h
  exact hunit _ u c hread

end Inherited

theorem inherited_wellNamed : Inherited Member.WellNamed where
  ofNamespace _ _ hname := .ofNamespace hname.isDottedName
  ofType _ _ hhead := .ofType hhead
  ofEnum := yields_enumDeclaration
  other := yields_otherMember
  typed := yields_typedMember

def AllWellNamed (ms : List Member) : Prop := ∀ m ∈ ms, m.WellNamed

/-- What is read from a text is well-named. -/
theorem wellNamed_of_parse {text : String} {u : CompilationUnit}
    (h : CompilationUnit.parse text = .ok u) : AllWellNamed u.members :=
  inherited_wellNamed.forall_members h

end Grammar

end DeclGen
