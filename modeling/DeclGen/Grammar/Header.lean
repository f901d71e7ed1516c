import DeclGen.Grammar.Region
import DeclGen.Grammar.Token
import DeclGen.Syntax.Member
import DeclGen.Text.Blank

/-!
# What stands before and between declarations

Dotted names, attribute lists, modifiers and using directives.
-/

namespace DeclGen.Grammar

open DeclGen.Grammar.Parser

def dottedPart? : Parser (Option Identifier) := do
  if ← accept "." then return some (← identifier) else return none

def dottedTail : Parser (List Identifier) := many dottedPart?

def dottedName : Parser DottedName := do
  let first ← identifier
  let others ← dottedTail
  let last := others.getLast?.getD first
  return ⟨first :: others, ⟨first.span.start, last.span.stop⟩⟩

/-- An attribute list behind trivia, if a bracket comes next. -/
def attributeList? : Parser (Option AttributeList) := do
  trivia
  if ← nextIs '[' then
    let start ← offset
    let text ← label "attribute list" bracketed
    return some ⟨String.ofList text, ← spanFrom start⟩
  else return none

def attributeLists : Parser (List AttributeList) := many attributeList?

/-- A modifier. Some words are modifiers only if another word follows them. -/
def modifier : Parser Modifier := do
  let start ← offset
  match ModifierKind.ofText? (← word) with
  | none => fail
  | some kind =>
    if kind.isContextual && (← peekWord).isNone then fail
    else return ⟨kind, ← spanFrom start⟩

def modifier? : Parser (Option Modifier) := do
  trivia
  attempt modifier

def modifiers : Parser (List Modifier) := many modifier?

/-- The words that open a using directive; tells whether `global` is among them. -/
def usingOpening : Parser Bool := do
  let isGlobal ← acceptKeyword "global"
  keyword "using"
  return isGlobal

def usingAlias : Parser Identifier := do
  let name ← identifier
  symbol "="
  return name

/-- A using directive behind trivia, if its words come next. -/
def usingDirective? : Parser (Option UsingDirective) := do
  trivia
  let start ← offset
  match ← attempt usingOpening with
  | none => return none
  | some isGlobal =>
    let isStatic ← acceptKeyword "static"
    let aliasName ← attempt usingAlias
    trivia
    let name ← label "using directive" (takeUntil (· == ';'))
    symbol ";"
    return some ⟨isGlobal, isStatic, aliasName, String.ofList (Text.trim name), ← spanFrom start⟩

def usingDirectives : Parser (List UsingDirective) := many usingDirective?

end DeclGen.Grammar
