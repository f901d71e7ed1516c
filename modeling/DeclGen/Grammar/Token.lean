import DeclGen.Grammar.Keyword
import DeclGen.Grammar.Trivia
import DeclGen.Syntax.Name
import DeclGen.Text.Word

/-!
# Tokens

Words, identifiers and symbols. Each parser skips the trivia before its token, but for `word`,
`literal` and `nextIs`, which look at the next character.

## Main definitions

* `word`, `keyword`, `identifier`: words
* `literal`, `symbol`, `accept`: fixed texts
* `nextIs`, `startsWith`: what comes next
* `spanFrom`: the span from an offset to the current place
-/

namespace DeclGen.Grammar

open DeclGen.Grammar.Parser DeclGen.Text

def spanFrom (start : Nat) : Parser Span := return ⟨start, ← offset⟩

/-- The number of characters of the word at the start of a text, zero if there is none. -/
def wordLength : List Char → Nat
  | [] => 0
  | c :: s => if isWordStart c then (s.takeWhile isWordPart).length + 1 else 0

/-- A word, reserved or not. No trivia is skipped before it. -/
def word : Parser String := do
  match wordLength (← ahead) with
  | 0 => fail
  | n + 1 => return String.ofList (← take (n + 1))

/-- The next word behind trivia, without reading it. -/
def peekWord : Parser (Option String) := lookahead (do trivia; word)

def keyword (kw : String) : Parser Unit := do
  trivia
  let start ← offset
  let found ← word
  if found == kw then return () else failAt start kw

def acceptKeyword (kw : String) : Parser Bool := return (← attempt (keyword kw)).isSome

def startsWith (s : String) : Parser Bool := return s.toList.isPrefixOf (← ahead)

def nextIs (c : Char) : Parser Bool := return (← ahead).head? == some c

/-- A given text. No trivia is skipped before it. -/
def literal (s : String) : Parser Unit := do
  if ← startsWith s then
    let _ ← take s.length
  else fail

def symbol (s : String) : Parser Unit := do
  trivia
  literal s

/-- A given text behind trivia, if it comes next; otherwise nothing is read. -/
def accept (s : String) : Parser Bool := return (← attempt (symbol s)).isSome

def acceptHere (s : String) : Parser Bool := return (← attempt (literal s)).isSome

/-- An identifier: a word that is not reserved, or any word behind `@`. -/
def identifier : Parser Identifier := do
  trivia
  let start ← offset
  let isVerbatim ← acceptHere "@"
  let found ← word
  if !isVerbatim && isKeyword found then failAt start "an identifier"
  else return ⟨if isVerbatim then "@" ++ found else found, ← spanFrom start⟩

end DeclGen.Grammar
