import DeclGen.Grammar.Parser

/-!
# Trivia

What may stand between two tokens: blanks, comments and lines that start with `#`. A block comment
that is not closed is no trivia.

## Main definitions

* `triviaTail`: how far a piece of trivia extends behind its first character
* `triviaLength`: the number of characters of trivia at the start of a text
* `trivia`: reads them
-/

namespace DeclGen.Grammar

/-- The blanks between tokens. -/
def isSpace (c : Char) : Bool := c == ' ' || c == '\t' || c == '\r' || c == '\n'

def lineLength (s : List Char) : Nat := (s.takeWhile (· != '\n')).length

/-- The number of characters up to the end of the next `*/`. -/
def commentLength : List Char → Option Nat
  | '*' :: '/' :: _ => some 2
  | _ :: s => (commentLength s).map (· + 1)
  | [] => none

/-- If `c` opens a piece of trivia before `s`, the number of characters of `s` that belong
to it. -/
def triviaTail (c : Char) (s : List Char) : Option Nat :=
  if isSpace c then some 0
  else if c == '#' then some (lineLength s)
  else if c == '/' then
    match s with
    | '/' :: s' => some (lineLength s' + 1)
    | '*' :: s' => (commentLength s').map (· + 1)
    | _ => none
  else none

/-- The number of characters of trivia at the start of a text. -/
def triviaLength : List Char → Nat
  | [] => 0
  | c :: s =>
    match triviaTail c s with
    | some n => 1 + n + triviaLength (s.drop n)
    | none => 0
termination_by s => s.length
decreasing_by
  simp only [List.length_drop, List.length_cons]
  omega

def trivia : Parser Unit := do
  let _ ← Parser.take (triviaLength (← Parser.ahead))

end DeclGen.Grammar
