import DeclGen.Grammar.Trivia
import DeclGen.Text.Word

/-!
# Skipped regions

Bodies, attribute arguments and initializers are not parsed. They are stepped over by counting
brackets of all three kinds together and stepping over comments and every form of character and
string literal, so that a bracket inside one of these does not count.

A quote that opens no closed literal makes the whole region fail. A `/`, `@` or `$` that opens
nothing is an ordinary character.

## Main definitions

* `scan`: the number of characters before a stop character outside brackets and literals
* `literalTail`: how far a comment or literal extends behind its first character
* `region`: a bracketed region
* `takeUntil`: everything before a stop character
-/

namespace DeclGen.Grammar

def isOpening (c : Char) : Bool := c == '(' || c == '[' || c == '{'

def isClosing (c : Char) : Bool := c == ')' || c == ']' || c == '}'

/-- How far a comment extends behind its `/`. A line comment includes the line feed that
ends it. -/
def commentTail : List Char → Option Nat
  | '/' :: s =>
    match s.drop (lineLength s) with
    | [] => some (lineLength s + 1)
    | _ :: _ => some (lineLength s + 2)
  | '*' :: s => (commentLength s).map (· + 1)
  | _ => none

/-- How far a character literal extends behind its quote. The character after a backslash never
ends it, and neither may a line feed stand in it. -/
def charTail (s : List Char) : Option Nat :=
  let escape := if s.head? == some '\\' then 2 else 0
  let body := (s.drop escape).takeWhile fun c => c != '\'' && c != '\n'
  let n := escape + body.length
  if (s.drop n).head? == some '\'' then some (n + 1) else none

/-- How far a raw string extends behind its `quotes` opening quotes, when the last `run`
characters were quotes: up to the end of the first run of at least as many quotes. -/
def rawTail (quotes : Nat) : (run : Nat) → List Char → Option Nat
  | run, [] => if quotes ≤ run then some 0 else none
  | run, c :: s =>
    if c == '"' then (rawTail quotes (run + 1) s).map (· + 1)
    else if quotes ≤ run then some 0
    else (rawTail quotes 0 s).map (· + 1)

mutual

/-- The number of characters before the first one that satisfies `stop` outside brackets and
literals, when `depth` brackets are open; `seen` characters are counted already. A closing bracket
without an opening one ends the search. -/
def scan (stop : Char → Bool) (depth seen : Nat) : List Char → Option Nat
  | [] => none
  | c :: s =>
    if depth == 0 && stop c then some seen
    else if isOpening c then scan stop (depth + 1) (seen + 1) s
    else if isClosing c then if depth == 0 then none else scan stop (depth - 1) (seen + 1) s
    else
      match literalTail c s with
      | some n => scan stop depth (seen + (n + 1)) (s.drop n)
      | none => if c == '"' || c == '\'' then none else scan stop depth (seen + 1) s
termination_by s => 3 * s.length
decreasing_by all_goals (try simp only [List.length_cons, List.length_drop]); omega

/-- If `c` opens a comment or literal before `s`, the number of characters of `s` that belong
to it. -/
def literalTail (c : Char) (s : List Char) : Option Nat :=
  if c == '/' then commentTail s
  else if c == '\'' then charTail s
  else if c == '"' then stringTail false false s
  else if c == '@' || c == '$' then
    let marks := s.takeWhile fun c => c == '@' || c == '$'
    if (s.drop marks.length).head? == some '"' then
      (stringTail ((c :: marks).contains '@') ((c :: marks).contains '$')
        (s.drop (marks.length + 1))).map (· + (marks.length + 1))
    else none
  else none
termination_by 3 * s.length + 2
decreasing_by
  · omega
  · simp only [List.length_drop]
    omega

/-- How far a string extends behind its first quote. Three quotes or more open a raw string. -/
def stringTail (isVerbatim isInterpolated : Bool) (s : List Char) : Option Nat :=
  let quotes := (s.takeWhile (· == '"')).length
  if 2 ≤ quotes then (rawTail (quotes + 1) 0 (s.drop quotes)).map (· + quotes)
  else stringBody isVerbatim isInterpolated 0 s
termination_by 3 * s.length + 1
decreasing_by omega

/-- How far a string that is not raw extends behind its quote; `seen` characters are counted
already. In a verbatim string a quote is written twice, in any other a backslash takes the next
character along and a line feed may not occur. An interpolated string has holes in braces. -/
def stringBody (isVerbatim isInterpolated : Bool) (seen : Nat) : List Char → Option Nat
  | [] => none
  | c :: s =>
    if c == '\\' && !isVerbatim then stringBody isVerbatim isInterpolated (seen + 2) (s.drop 1)
    else if c == '"' then
      if isVerbatim && s.head? == some '"' then
        stringBody isVerbatim isInterpolated (seen + 2) (s.drop 1)
      else some (seen + 1)
    else if c == '{' && isInterpolated then
      if s.head? == some '{' then stringBody isVerbatim isInterpolated (seen + 2) (s.drop 1)
      else
        match scan (· == '}') 0 0 s with
        | some n => stringBody isVerbatim isInterpolated (seen + (n + 2)) (s.drop (n + 1))
        | none => none
    else if c == '\n' && !isVerbatim then none
    else stringBody isVerbatim isInterpolated (seen + 1) s
termination_by s => 3 * s.length
decreasing_by all_goals (try simp only [List.length_cons, List.length_drop]); omega

end

open DeclGen.Grammar.Parser

/-- Reads a region from `opening`, which has to come next, to the matching `closing`. -/
def delimited (opening closing : Char) : Parser (List Char) := do
  match ← ahead with
  | [] => fail
  | c :: s =>
    if c == opening then
      match scan (· == closing) 0 0 s with
      | some n => take (n + 2)
      | none => fail
    else fail

def braced : Parser (List Char) := delimited '{' '}'

def parenthesized : Parser (List Char) := delimited '(' ')'

def bracketed : Parser (List Char) := delimited '[' ']'

/-- Reads everything before the first character outside brackets and literals that satisfies
`stop`. -/
def takeUntil (stop : Char → Bool) : Parser (List Char) := do
  match scan stop 0 0 (← ahead) with
  | some n => take n
  | none => fail

def inner (region : List Char) : List Char := (region.drop 1).dropLast

end DeclGen.Grammar
