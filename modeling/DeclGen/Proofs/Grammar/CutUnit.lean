import DeclGen.Proofs.Grammar.CutMembers

/-!
# Cutting out files

Types, namespaces and files, read by cutting at byte offsets throughout.

## Main definitions

* `membersIn`: the declarations of a file, namespace or type
* `compilationUnit`: a file

## Main statements

* `compilationUnit_eq`: the cuts have an outcome
-/

namespace DeclGen.Grammar.Cutting

open DeclGen.Grammar.Parser DeclGen.Text

def baseType : Cutting TypeExpr := do
  let base ← label "base type" typeExpr
  trivia
  if ← nextIs '(' then
    let _ ← parenthesized
  trivia
  return base

def baseList : Cutting (List TypeExpr) := do
  trivia
  if ← acceptHere ":" then sepBy baseType (acceptHere ",") else return []

def primaryConstructor : Cutting (Option Nat) := do
  if ← nextIs '(' then return some (← ofOption (parameterCount (← parenthesized))) else return none

def constructorName (container : String) : Cutting Unit := do
  let name ← identifier
  trivia
  if name.name == container && (← nextIs '(') then return () else fail

def acceptConstructor : Option String → Cutting Bool
  | some container => return (← attempt (constructorName container)).isSome
  | none => return false

section

variable (self : Option String → Cutting (List Member))

def typeBody (name : Identifier) : Cutting (List Member) := do
  if ← acceptHere ";" then return []
  else
    Parser.label "'\x7b' opening the type body" (symbol "\x7b")
    let members ← self (some name.name)
    Parser.label "'\x7d' closing the type body" (symbol "\x7d")
    return members

def typeDeclaration (h : DeclHeader) : Cutting Member := do
  let kind ← typeKind
  let name ← label "type name" identifier
  let parameters ← typeParameters?
  trivia
  let constructor ← primaryConstructor
  let bases ← baseList
  constraintClauses
  trivia
  let members ← typeBody self name
  return .ofType ⟨h.attributes, h.modifiers, kind, name, parameters, constructor, bases,
    ← spanFrom h.start⟩ members

def fileScopedBody : Cutting (List UsingDirective × List Member) := do
  let usings ← usingDirectives
  let members ← self none
  Parser.label "a declaration" endOfText
  return (usings, members)

def blockBody : Cutting (List UsingDirective × List Member) := do
  Parser.label "'\x7b' or ';' after the namespace name" (symbol "\x7b")
  let usings ← usingDirectives
  let members ← self none
  Parser.label "'\x7d' closing the namespace" (symbol "\x7d")
  let _ ← accept ";"
  return (usings, members)

def namespaceDeclaration (start : Nat) : Cutting Member := do
  keyword "namespace"
  let name ← label "namespace name" dottedName
  trivia
  let isFileScoped ← acceptHere ";"
  let (usings, members) ← if isFileScoped then fileScopedBody self else blockBody self
  return .ofNamespace ⟨name, isFileScoped, usings, ← spanFrom start⟩ members

def memberDeclarationOf (container : Option String) : Cutting Member := do
  trivia
  let start ← offset
  let attributes ← attributeLists
  let modifiers ← modifiers
  let h : DeclHeader := ⟨start, attributes, modifiers⟩
  match ← peekWord with
  | some "namespace" => namespaceDeclaration self start
  | some "class" | some "struct" | some "interface" | some "record" => typeDeclaration self h
  | some "enum" => enumDeclaration h
  | some "delegate" => otherMember start .delegate
  | some "event" => otherMember start .event
  | some "implicit" | some "explicit" =>
    throughParameters
    otherMember start .conversion
  | _ =>
    if ← nextIs '~' then
      let _ ← label "destructor" (takeUntil (· == '('))
      let _ ← parenthesized
      otherMember start .destructor
    else if ← acceptConstructor container then
      let _ ← parenthesized
      otherMember start .constructor
    else typedMember h

def member? (container : Option String) : Cutting (Option Member) := do
  straySemicolons
  match ← ahead with
  | [] => return none
  | '}' :: _ => return none
  | _ :: _ => return some (← memberDeclarationOf self container)

def membersOf (container : Option String) : Cutting (List Member) := many (member? self container)

end

def membersIn (container : Option String) : Cutting (List Member) := fix membersOf container

def compilationUnit : Cutting CompilationUnit := do
  let start ← offset
  externAliases
  let usings ← usingDirectives
  let members ← membersIn none
  Parser.label "a declaration" endOfText
  return ⟨usings, members, ← spanFrom start⟩

/-! ## What has an outcome -/

theorem baseList_eq : baseList = ofParser Grammar.baseList := by
  have hbase : baseType = ofParser Grammar.baseType :=
    bind_eq (label_eq typeExpr_eq) fun _ => bind_eq rfl fun _ => bind_eq rfl fun _ =>
      ite_eq (bind_eq parenthesized_eq fun _ => bind_eq rfl fun _ => rfl)
        (bind_eq rfl fun _ => rfl)
  exact bind_eq rfl fun _ => bind_eq rfl fun _ => ite_eq (sepBy_eq hbase rfl) rfl

theorem primaryConstructor_eq : primaryConstructor = ofParser Grammar.primaryConstructor := by
  refine bind_eq rfl fun _ => ite_eq (bind_eq_of parenthesized_eq fun c list c' hlist => ?_) rfl
  obtain ⟨x, rfl⟩ := exists_of_delimited hlist
  rw [parameterCount_eq, ofOption_some_bind]
  rfl

theorem acceptConstructor_eq (container : Option String) :
    acceptConstructor container = ofParser (Grammar.acceptConstructor container) := by
  cases container with
  | none => rfl
  | some container =>
    have hname : constructorName container = ofParser (Grammar.constructorName container) :=
      bind_eq identifier_eq fun _ => bind_eq rfl fun _ => bind_eq rfl fun _ => ite_eq rfl rfl
    exact bind_eq (attempt_eq hname) fun _ => rfl

section

variable {self : Option String → Cutting (List Member)}
variable {self' : Option String → Parser (List Member)}

theorem typeDeclaration_eq (hself : ∀ container, self container = ofParser (self' container))
    (h : DeclHeader) :
    typeDeclaration self h = ofParser (Grammar.typeDeclaration self' h) := by
  have hbody (name : Identifier) :
      typeBody self name = ofParser (Grammar.typeBody self' name) :=
    bind_eq rfl fun _ => ite_eq rfl (bind_eq rfl fun _ => bind_eq (hself _) fun _ =>
      bind_eq rfl fun _ => rfl)
  refine bind_eq rfl fun kind => bind_eq (label_eq identifier_eq) fun name => ?_
  refine bind_eq typeParameters?_eq fun _ => bind_eq rfl fun _ => ?_
  refine bind_eq primaryConstructor_eq fun _ => bind_eq baseList_eq fun _ => ?_
  refine bind_eq constraintClauses_eq fun _ => bind_eq rfl fun _ => ?_
  exact bind_eq (hbody name) fun _ => bind_eq rfl fun _ => rfl

theorem namespaceDeclaration_eq (hself : ∀ container, self container = ofParser (self' container))
    (start : Nat) :
    namespaceDeclaration self start = ofParser (Grammar.namespaceDeclaration self' start) := by
  have hfile : fileScopedBody self = ofParser (Grammar.fileScopedBody self') :=
    bind_eq usingDirectives_eq fun _ => bind_eq (hself none) fun _ => bind_eq rfl fun _ => rfl
  have hblock : blockBody self = ofParser (Grammar.blockBody self') :=
    bind_eq rfl fun _ => bind_eq usingDirectives_eq fun _ => bind_eq (hself none) fun _ =>
      bind_eq rfl fun _ => bind_eq rfl fun _ => rfl
  refine bind_eq rfl fun _ => bind_eq (label_eq dottedName_eq) fun _ => bind_eq rfl fun _ => ?_
  refine bind_eq rfl fun isFileScoped => ?_
  exact ite_eq (bind_eq hfile fun _ => bind_eq rfl fun _ => rfl)
    (bind_eq hblock fun _ => bind_eq rfl fun _ => rfl)

/-- A declaration that no word of its own starts. -/
theorem memberWithoutWord_eq (start : Nat) (container : Option String) (h : DeclHeader) :
    (do
      if ← nextIs '~' then
        let _ ← label "destructor" (takeUntil (· == '('))
        let _ ← parenthesized
        otherMember start .destructor
      else if ← acceptConstructor container then
        let _ ← parenthesized
        otherMember start .constructor
      else typedMember h : Cutting Member) =
      ofParser (do
        if ← nextIs '~' then
          let _ ← Parser.label "destructor" (Grammar.takeUntil (· == '('))
          let _ ← Grammar.parenthesized
          Grammar.otherMember start .destructor
        else if ← Grammar.acceptConstructor container then
          let _ ← Grammar.parenthesized
          Grammar.otherMember start .constructor
        else Grammar.typedMember h) := by
  refine bind_eq rfl fun _ => ite_eq ?_ ?_
  · exact bind_eq (label_eq (takeUntil_eq (.beq (by decide)))) fun _ =>
      bind_eq parenthesized_eq fun _ => otherMember_eq start _
  refine bind_eq (acceptConstructor_eq container) fun _ => ite_eq ?_ (typedMember_eq h)
  exact bind_eq parenthesized_eq fun _ => otherMember_eq start _

theorem memberDeclarationOf_eq (hself : ∀ container, self container = ofParser (self' container))
    (container : Option String) :
    memberDeclarationOf self container =
      ofParser (Grammar.memberDeclarationOf self' container) := by
  refine bind_eq rfl fun _ => bind_eq rfl fun start => bind_eq attributeLists_eq fun _ => ?_
  refine bind_eq rfl fun _ => bind_eq rfl fun found => ?_
  split
  next => exact namespaceDeclaration_eq hself start
  next => exact typeDeclaration_eq hself _
  next => exact typeDeclaration_eq hself _
  next => exact typeDeclaration_eq hself _
  next => exact typeDeclaration_eq hself _
  next => exact enumDeclaration_eq _
  next => exact otherMember_eq start _
  next => exact otherMember_eq start _
  next => exact bind_eq throughParameters_eq fun _ => otherMember_eq start _
  next => exact bind_eq throughParameters_eq fun _ => otherMember_eq start _
  next => simpa only using memberWithoutWord_eq start container _

theorem member?_eq (hself : ∀ container, self container = ofParser (self' container))
    (container : Option String) :
    member? self container = ofParser (Grammar.member? self' container) := by
  refine bind_eq rfl fun _ => bind_eq rfl fun s => ?_
  cases s with
  | nil => rfl
  | cons c s =>
    by_cases hc : c = '}'
    · subst hc
      rfl
    · simp only
      exact bind_eq (memberDeclarationOf_eq hself container) fun _ => rfl

end

theorem membersIn_eq (container : Option String) :
    membersIn container = ofParser (Grammar.membersIn container) :=
  fix_eq (fun _ container => many_eq (member?_eq (fun _ => rfl) container)) container

theorem compilationUnit_eq : compilationUnit = ofParser Grammar.compilationUnit :=
  bind_eq rfl fun _ => bind_eq rfl fun _ => bind_eq usingDirectives_eq fun _ =>
    bind_eq (membersIn_eq none) fun _ => bind_eq rfl fun _ => bind_eq rfl fun _ => rfl

end DeclGen.Grammar.Cutting
