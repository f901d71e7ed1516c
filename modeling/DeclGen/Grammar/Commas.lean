import DeclGen.Grammar.Region
import DeclGen.Text.Blank

/-!
# Comma-separated lists

The parts of a parameter list. A comma inside brackets, literals or comments does not separate, nor
does one inside angle brackets that open right behind a word.
-/

namespace DeclGen.Grammar

def prependPart (s : List Char) : List (List Char) → List (List Char)
  | [] => [s]
  | part :: parts => (s ++ part) :: parts

def closingOf (c : Char) : Char := if c == '(' then ')' else if c == '[' then ']' else '}'

/-- The parts between separating commas, when `angles` angle brackets are open and `afterWord`
tells whether the character before is one of a word. -/
def commaParts (angles : Nat) (afterWord : Bool) : List Char → List (List Char)
  | [] => [[]]
  | c :: s =>
    if c == '<' && afterWord then prependPart [c] (commaParts (angles + 1) false s)
    else if c == '>' && angles != 0 then prependPart [c] (commaParts (angles - 1) false s)
    else if c == ',' && angles == 0 then [] :: commaParts angles false s
    else if isOpening c then
      match scan (· == closingOf c) 0 0 s with
      | some n => prependPart (c :: s.take (n + 1)) (commaParts angles false (s.drop (n + 1)))
      | none => [c :: s]
    else
      match literalTail c s with
      | some n => prependPart (c :: s.take n) (commaParts angles false (s.drop n))
      | none => prependPart [c] (commaParts angles (Text.isAsciiWordPart c) s)
termination_by s => s.length
decreasing_by all_goals (try simp only [List.length_cons, List.length_drop]); omega

/-- The parts of a list between its separating commas; a list of blanks has none. -/
def splitCommas (s : List Char) : List (List Char) :=
  match commaParts 0 false s with
  | [part] => if (Text.trim part).isEmpty then [] else [part]
  | parts => parts

end DeclGen.Grammar
