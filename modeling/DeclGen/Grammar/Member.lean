import DeclGen.Grammar.Commas
import DeclGen.Grammar.Expr

/-!
# Reading declarations

Every declaration starts with attribute lists and modifiers; the word behind them decides what is
declared. Fields, properties, methods, operators and indexers all start with a type. Bodies are
stepped over.

Namespaces and types hold declarations again: their parsers take the parser of a list of
declarations as `self`, and `membersIn` ties them together. The list parser is told the name of the
type it is in, by which constructors are recognised.

## Main definitions

* `membersIn`: the declarations of a file, namespace or type
* `memberDeclaration`: one declaration
-/

namespace DeclGen.Grammar

open DeclGen.Grammar.Parser

/-- What stands before the word that decides what is declared. -/
structure DeclHeader where
  start : Nat
  attributes : List AttributeList
  modifiers : List Modifier

/-- Reads up to `;` and the `;` itself; says what is looked for. -/
def throughSemicolon (what : String) : Parser Unit := do
  let _ ← label what (takeUntil (· == ';'))
  let _ ← take 1

/-- Whether a single `=` that is not part of `=>` comes next. -/
def nextIsAssignment : Parser Bool := return (← nextIs '=') && !(← startsWith "=>")

/-- A body in braces, behind `=>`, or just `;`. Tells whether there is a body. -/
def memberBody : Parser Bool := do
  trivia
  if ← nextIs '{' then
    let _ ← braced
    return true
  else if ← acceptHere "=>" then
    throughSemicolon "';' after the expression body"
    return true
  else
    label "member body or ';'" (symbol ";")
    return false

/-- Whether the character ends the head of a member whose details are not looked into. -/
def endsHead (c : Char) : Bool := c == '{' || c == ';' || c == '='

/-- The rest of a member of which only the extent is kept. -/
def otherMember (start : Nat) (kind : OtherKind) : Parser Member := do
  let _ ← label "member declaration" (takeUntil endsHead)
  trivia
  if ← nextIsAssignment then
    let _ ← take 1
    throughSemicolon "';'"
  else
    let _ ← memberBody
  return .other kind (← spanFrom start)

def throughParameters : Parser Unit := do
  let _ ← takeUntil (· == '(')
  let _ ← parenthesized

def constraintClauses : Parser Unit := do
  if ← acceptKeyword "where" then
    let _ ← label "type parameter constraints" (takeUntil endsHead)

/-! ### Members that start with a type -/

/-- The name of a member: perhaps the interface it belongs to, an identifier and type
parameters. -/
structure MemberName where
  explicitInterface : Option String
  identifier : Identifier
  typeParameters : Option TypeParameters

/-- The angle brackets behind a name: type parameters, else type arguments. -/
def nameBrackets : Parser (Option TypeParameters) := do
  if ← nextIs '<' then
    match ← attempt typeParameters? with
    | some parameters => return parameters
    | none =>
      let _ ← typeArguments
      return none
  else return none

/-- A segment of a member name with what stands in angle brackets behind it. -/
def nameSegment : Parser (Identifier × Option TypeParameters) := do
  let name ← identifier
  trivia
  return (name, ← nameBrackets)

def nameSegmentText : Parser ((Identifier × Option TypeParameters) × List Char) := do
  trivia
  withText nameSegment

/-- A member name. The segments before the last one are the interface. -/
def memberName : Parser MemberName := do
  let segments ← sepBy nameSegmentText (accept ".")
  let qualifiers := segments.dropLast.map fun s => String.ofList (Text.trimEnd s.2)
  match segments.getLast? with
  | some ((name, parameters), _) =>
    let qualifier := if qualifiers.isEmpty then none else some (".".intercalate qualifiers)
    return ⟨qualifier, name, parameters⟩
  | none => fail

def parameterCount (list : List Char) : Nat := (splitCommas (inner list)).length

def methodDeclaration (h : DeclHeader) (type : TypeExpr) (name : MemberName) : Parser Member := do
  let parameters ← label "parameter list" parenthesized
  constraintClauses
  let hasBody ← memberBody
  return .ofMethod ⟨h.attributes, h.modifiers, type, name.explicitInterface, name.identifier,
    name.typeParameters, parameterCount parameters, hasBody, ← spanFrom h.start⟩

def hasArrow : List Char → Bool
  | '=' :: '>' :: _ => true
  | _ :: s => hasArrow s
  | [] => false

def isAutoAccessors (modifiers : List Modifier) (accessors : List Char) : Bool :=
  !(inner accessors).contains '{' && !hasArrow (inner accessors)
    && !Modifier.has modifiers .abstractMod && !Modifier.has modifiers .externMod

/-- The accessors of a property and its initializer. Tells whether it has storage of its own. -/
def propertyBody (modifiers : List Modifier) : Parser Bool := do
  if ← nextIs '{' then
    let accessors ← braced
    trivia
    if ← nextIsAssignment then
      let _ ← take 1
      throughSemicolon "';' after the property initializer"
    return isAutoAccessors modifiers accessors
  else
    let _ ← memberBody
    return false

def propertyDeclaration (h : DeclHeader) (type : TypeExpr) (name : MemberName) : Parser Member := do
  let isAuto ← propertyBody h.modifiers
  return .ofProperty ⟨h.attributes, h.modifiers, type, name.explicitInterface, name.identifier,
    isAuto, ← spanFrom h.start⟩

/-- A word that is no keyword, perhaps behind `@`, and what follows it: `=`, `,` or `;`. -/
def declaratorStart : Parser Unit := do
  trivia
  let _ ← acceptHere "@"
  let name ← word
  trivia
  match isKeyword name, ← ahead with
  | false, ';' :: _ => return ()
  | false, ',' :: _ => return ()
  | false, '=' :: '=' :: _ => fail
  | false, '=' :: '>' :: _ => fail
  | false, '=' :: _ => return ()
  | _, _ => fail

/-- Reads a piece of a field initializer up to `,` or `;`. The piece is the last one unless the
`,` starts no further declarator, as in an argument list. -/
def initializerPiece : Parser (Round Unit) := do
  let _ ← label "field initializer" (takeUntil fun c => c == ',' || c == ';')
  if ← nextIs ',' then
    match ← lookahead (do let _ ← take 1; declaratorStart) with
    | some () => return .last ()
    | none =>
      let _ ← take 1
      return .more ()
  else return .last ()

/-- The span of a field initializer without the blanks at its end. -/
def fieldInitializer : Parser Span := do
  trivia
  let start ← offset
  let (_, skipped) ← withText (rounds initializerPiece)
  if (Text.trim skipped).isEmpty then failAt start "field initializer"
  else return ⟨start, start + Text.size (Text.trimEnd skipped)⟩

/-- A declarator behind its name: perhaps brackets with a size, perhaps an initializer. -/
def declarator (name : Identifier) : Parser Declarator := do
  trivia
  if ← nextIs '[' then
    let _ ← bracketed
  trivia
  if ← acceptHere "=" then
    let initializer ← fieldInitializer
    return ⟨name, some initializer, ⟨name.span.start, initializer.stop⟩⟩
  else return ⟨name, none, name.span⟩

def declarator? : Parser (Option Declarator) := do
  if ← accept "," then
    let next ← label "variable name" identifier
    return some (← declarator next)
  else return none

def fieldDeclaration (h : DeclHeader) (type : TypeExpr) (name : MemberName) : Parser Member := do
  let first ← declarator name.identifier
  let others ← many declarator?
  label "';' after the field declaration" (symbol ";")
  return .ofField ⟨h.attributes, h.modifiers, type, first :: others, ← spanFrom h.start⟩

def typedMember (h : DeclHeader) : Parser Member := do
  let type ← label "a member declaration" typeExpr
  if ← acceptKeyword "operator" then
    throughParameters
    otherMember h.start .operator
  else if ← acceptKeyword "this" then
    trivia
    let _ ← label "indexer parameters" bracketed
    otherMember h.start .indexer
  else
    let name ← label "member name" memberName
    trivia
    if ← nextIs '(' then methodDeclaration h type name
    else if (← nextIs '{') || (← startsWith "=>") then propertyDeclaration h type name
    else fieldDeclaration h type name

/-! ### Enums -/

def enumMember : Parser EnumMember := do
  trivia
  let start ← offset
  let attributes ← attributeLists
  let name ← identifier
  let hasInitializer ← accept "="
  let initializer ← if hasInitializer then some <$> initializerExpr else pure none
  return ⟨attributes, name, initializer, ← spanFrom start⟩

/-- A member of an enum with the comma or brace behind it, or the brace that closes the enum. -/
def enumMemberRound : Parser (Round EnumMember) := do
  trivia
  if ← acceptHere "\x7d" then return .stop
  else
    let member ← label "enum member" enumMember
    if ← accept "," then return .more member
    else
      label "',' or '\x7d' after the enum member" (symbol "\x7d")
      return .last member

/-- The members of an enum and the brace that closes it. A comma may follow the last member. -/
def enumMembers : Parser (List EnumMember) := rounds enumMemberRound

def enumDeclaration (h : DeclHeader) : Parser Member := do
  keyword "enum"
  let name ← label "enum name" identifier
  trivia
  let hasBase ← acceptHere ":"
  let base ← if hasBase then some <$> label "underlying enum type" typeExpr else pure none
  label "'\x7b' opening the enum body" (symbol "\x7b")
  let members ← enumMembers
  let _ ← accept ";"
  return .ofEnum ⟨h.attributes, h.modifiers, name, base, members, ← spanFrom h.start⟩

/-! ### Types -/

def typeKind : Parser TypeKind := do
  trivia
  let start ← offset
  match ← word with
  | "class" => return .classType
  | "struct" => return .structType
  | "interface" => return .interfaceType
  | "record" =>
    if ← acceptKeyword "struct" then return .recordStruct
    else
      let _ ← acceptKeyword "class"
      return .recordClass
  | _ => failAt start "a type declaration"

/-- A base type; the arguments of a base constructor are skipped. -/
def baseType : Parser TypeExpr := do
  let base ← label "base type" typeExpr
  trivia
  if ← nextIs '(' then
    let _ ← parenthesized
  trivia
  return base

/-- The base types, if a colon comes next. The trivia before and behind them is read too. -/
def baseList : Parser (List TypeExpr) := do
  trivia
  if ← acceptHere ":" then sepBy baseType (acceptHere ",") else return []

/-- The parameter count of a primary constructor, if a parameter list comes next. -/
def primaryConstructor : Parser (Option Nat) := do
  if ← nextIs '(' then return some (parameterCount (← parenthesized)) else return none

def typeBody (self : Option String → Parser (List Member)) (name : Identifier) :
    Parser (List Member) := do
  if ← acceptHere ";" then return []
  else
    label "'\x7b' opening the type body" (symbol "\x7b")
    let members ← self (some name.name)
    label "'\x7d' closing the type body" (symbol "\x7d")
    return members

def typeDeclaration (self : Option String → Parser (List Member)) (h : DeclHeader) :
    Parser Member := do
  let kind ← typeKind
  let name ← label "type name" identifier
  let parameters ← typeParameters?
  trivia
  let constructor ← primaryConstructor
  let bases ← baseList
  constraintClauses
  trivia
  let members ← typeBody self name
  return .ofType ⟨h.attributes, h.modifiers, kind, name, parameters, constructor, bases,
    ← spanFrom h.start⟩ members

/-! ### Namespaces -/

def endOfText : Parser Unit := do
  match ← ahead with
  | [] => return ()
  | _ :: _ => fail

/-- The using directives and members of a namespace that extends to the end of the file. -/
def fileScopedBody (self : Option String → Parser (List Member)) :
    Parser (List UsingDirective × List Member) := do
  let usings ← usingDirectives
  let members ← self none
  label "a declaration" endOfText
  return (usings, members)

def blockBody (self : Option String → Parser (List Member)) :
    Parser (List UsingDirective × List Member) := do
  label "'\x7b' or ';' after the namespace name" (symbol "\x7b")
  let usings ← usingDirectives
  let members ← self none
  label "'\x7d' closing the namespace" (symbol "\x7d")
  let _ ← accept ";"
  return (usings, members)

def namespaceDeclaration (self : Option String → Parser (List Member)) (start : Nat) :
    Parser Member := do
  keyword "namespace"
  let name ← label "namespace name" dottedName
  trivia
  let isFileScoped ← acceptHere ";"
  let (usings, members) ← if isFileScoped then fileScopedBody self else blockBody self
  return .ofNamespace ⟨name, isFileScoped, usings, ← spanFrom start⟩ members

/-! ### All declarations -/

/-- The name of a constructor of `container`; its parameter list comes next. -/
def constructorName (container : String) : Parser Unit := do
  let name ← identifier
  trivia
  if name.name == container && (← nextIs '(') then return () else fail

/-- Whether a constructor of the container starts here; its name is read if so. -/
def acceptConstructor : Option String → Parser Bool
  | some container => return (← attempt (constructorName container)).isSome
  | none => return false

def memberDeclarationOf (self : Option String → Parser (List Member)) (container : Option String) :
    Parser Member := do
  trivia
  let start ← offset
  let attributes ← attributeLists
  let modifiers ← modifiers
  let h : DeclHeader := ⟨start, attributes, modifiers⟩
  match ← peekWord with
  | some "namespace" => namespaceDeclaration self start
  | some "class" | some "struct" | some "interface" | some "record" => typeDeclaration self h
  | some "enum" => enumDeclaration h
  | some "delegate" => otherMember start .delegate
  | some "event" => otherMember start .event
  | some "implicit" | some "explicit" =>
    throughParameters
    otherMember start .conversion
  | _ =>
    if ← nextIs '~' then
      let _ ← label "destructor" (takeUntil (· == '('))
      let _ ← parenthesized
      otherMember start .destructor
    else if ← acceptConstructor container then
      let _ ← parenthesized
      otherMember start .constructor
    else typedMember h

def straySemicolon? : Parser (Option Unit) := do
  trivia
  attempt (literal ";")

def straySemicolons : Parser Unit := do
  let _ ← many straySemicolon?

/-- A declaration, unless the text ends or a closing brace comes next. -/
def member? (self : Option String → Parser (List Member)) (container : Option String) :
    Parser (Option Member) := do
  straySemicolons
  match ← ahead with
  | [] => return none
  | '}' :: _ => return none
  | _ :: _ => return some (← memberDeclarationOf self container)

/-- The declarations up to the end of the text or a closing brace, which is not read. -/
def membersOf (self : Option String → Parser (List Member)) (container : Option String) :
    Parser (List Member) := many (member? self container)

/-- The declarations in a container up to the end of the text or a closing brace. -/
def membersIn (container : Option String) : Parser (List Member) := fix membersOf container

def memberDeclaration (container : Option String) : Parser Member :=
  memberDeclarationOf membersIn container

end DeclGen.Grammar
