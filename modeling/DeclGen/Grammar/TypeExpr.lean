import DeclGen.Grammar.Header

/-!
# Reading types

Built-in types, named types with type arguments, tuples, and the suffixes `?`, `*` and `[,]`, of
which any number may follow. The parsers take the parser of types as `self` where types occur in
types, and `typeExpr` ties them together.

## Main definitions

* `typeExpr`, `namedType`, `typeArguments`: types
* `typeParameters?`: declared type parameters
-/

namespace DeclGen.Grammar

open DeclGen.Grammar.Parser

def predefinedType : Parser TypeExpr := do
  let start ← offset
  let name ← word
  if isPredefinedType name then return .predefined name (← spanFrom start)
  else failAt start "a type"

def typeArgumentsOf (self : Parser TypeExpr) : Parser (List TypeExpr) := do
  symbol "<"
  let arguments ← sepBy self (accept ",")
  label "'>' closing the type argument list" (symbol ">")
  return arguments

/-- The type arguments ahead; without a well-formed list nothing is read. -/
def optionalTypeArguments (self : Parser TypeExpr) : Parser (List TypeExpr) :=
  return (← attempt (typeArgumentsOf self)).getD []

def dottedIdentifier : Parser Identifier := do
  symbol "."
  identifier

/-- A further segment with its type arguments, if a dot and an identifier come next. -/
def segment? (self : Parser TypeExpr) : Parser (Option NameSegment) := do
  match ← attempt dottedIdentifier with
  | none => return none
  | some name => return some (.mk name (← optionalTypeArguments self))

def segmentTail (self : Parser TypeExpr) : Parser (List NameSegment) := many (segment? self)

def namedTypeOf (self : Parser TypeExpr) : Parser TypeExpr := do
  trivia
  let start ← offset
  let first ← label "a type" identifier
  let isAliased ← accept "::"
  let head ← if isAliased then label "a type" identifier else pure first
  let arguments ← optionalTypeArguments self
  let others ← segmentTail self
  return .named (if isAliased then some first else none) (.mk head arguments :: others)
    (← spanFrom start)

/-- A tuple element; its name is skipped. -/
def tupleElement (self : Parser TypeExpr) : Parser TypeExpr := do
  let element ← self
  let _ ← attempt identifier
  return element

def tupleType (self : Parser TypeExpr) : Parser TypeExpr := do
  let start ← offset
  symbol "("
  let first ← offset
  let elements ← sepBy (tupleElement self) (accept ",")
  label "')' closing the tuple type" (symbol ")")
  if elements.length < 2 then failAt first "a tuple type"
  else return .tuple elements (← spanFrom start)

/-- What may follow a type and make another type of it. -/
inductive TypeSuffix where
  | nullable
  | pointer
  | array (rank : Nat)
deriving DecidableEq, Repr

/-- The rank of the array brackets that are open before a text, and the number of characters up to
their end. Only commas and blanks may stand in them. -/
def arrayRank (rank seen : Nat) : List Char → Option (Nat × Nat)
  | [] => none
  | c :: s =>
    if c == ',' then arrayRank (rank + 1) (seen + 1) s
    else if c == ']' then some (rank, seen + 1)
    else if Text.isBlank c then arrayRank rank (seen + 1) s
    else none

/-- A type suffix behind trivia, with the offset of its end. -/
def typeSuffix : Parser (TypeSuffix × Nat) := do
  trivia
  match ← ahead with
  | '?' :: _ =>
    let _ ← take 1
    return (.nullable, ← offset)
  | '*' :: _ =>
    let _ ← take 1
    return (.pointer, ← offset)
  | '[' :: s =>
    match arrayRank 1 0 s with
    | some (rank, n) =>
      let _ ← take (n + 1)
      return (.array rank, ← offset)
    | none => fail
  | _ => fail

/-- The type that a suffix makes of a type that starts at an offset. -/
def TypeSuffix.apply (start : Nat) (t : TypeExpr) : TypeSuffix × Nat → TypeExpr
  | (.nullable, stop) => .nullable t ⟨start, stop⟩
  | (.pointer, stop) => .pointer t ⟨start, stop⟩
  | (.array rank, stop) => .array t rank ⟨start, stop⟩

/-- A type without its suffixes. -/
def coreType (self : Parser TypeExpr) : Parser TypeExpr := do
  if ← nextIs '(' then tupleType self
  else
    match ← attempt predefinedType with
    | some t => return t
    | none => namedTypeOf self

def suffixedType (self : Parser TypeExpr) : Parser TypeExpr := do
  trivia
  let start ← offset
  let t ← coreType self
  let suffixes ← many (attempt typeSuffix)
  return suffixes.foldl (TypeSuffix.apply start) t

def typeExpr : Parser TypeExpr := fix (fun self _ => suffixedType (self ())) ()

def namedType : Parser TypeExpr := namedTypeOf typeExpr

def typeArguments : Parser (List TypeExpr) := typeArgumentsOf typeExpr

/-- A declared type parameter; its attributes are skipped. -/
def typeParameter : Parser TypeParameter := do
  let _ ← attributeLists
  let variance ← do
    if ← acceptKeyword "in" then pure (some Variance.contravariant)
    else if ← acceptKeyword "out" then pure (some Variance.covariant)
    else pure none
  return ⟨variance, ← label "type parameter" identifier⟩

/-- The declared type parameters, if an angle bracket comes next. The trivia before it is read in
any case. -/
def typeParameters? : Parser (Option TypeParameters) := do
  trivia
  let start ← offset
  if ← acceptHere "<" then
    let parameters ← sepBy typeParameter (accept ",")
    label "'>' closing the type parameter list" (symbol ">")
    return some ⟨parameters, ← spanFrom start⟩
  else return none

end DeclGen.Grammar
