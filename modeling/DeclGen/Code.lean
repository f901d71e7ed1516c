/-!
# Generated code

Code is written as a list of steps, each a line or a change of the indentation. Braces stand on
lines of their own.

## Main definitions

* `CodeStep`: a step
* `CodeStep.textAt`, `CodeStep.levelAfter`: what a step writes and the indentation behind it
* `CodeStep.render`: the text of a list of steps
-/

namespace DeclGen

/-- The first line of every generated file. -/
def generatedHeader : String := "// <auto-generated/>"

/-- A step of writing code. -/
inductive CodeStep where
  /-- A line; an empty one is not indented. -/
  | line (text : String)
  | blank
  /-- A line, an opening brace below it, and one level more behind it. -/
  | openBlock (header : String)
  /-- One level less, and a closing brace with a text behind it. -/
  | closeBlock (suffix : String)
  | indent
  | dedent
deriving DecidableEq, Repr, Inhabited

namespace CodeStep

def indentation (level : Nat) : String := String.ofList (List.replicate (4 * level) ' ')

def lineAt (level : Nat) (text : String) : String :=
  (if text.isEmpty then "" else indentation level ++ text) ++ "\n"

def textAt (level : Nat) : CodeStep → String
  | line text => lineAt level text
  | blank => "\n"
  | openBlock header => lineAt level header ++ lineAt level "\x7b"
  | closeBlock suffix => indentation (level - 1) ++ "\x7d" ++ suffix ++ "\n"
  | indent | dedent => ""

/-- The level behind the step; it does not go below zero. -/
def levelAfter (level : Nat) : CodeStep → Nat
  | openBlock _ | indent => level + 1
  | closeBlock _ | dedent => level - 1
  | line _ | blank => level

def renderAt (level : Nat) : List CodeStep → String
  | [] => ""
  | s :: ss => s.textAt level ++ renderAt (s.levelAfter level) ss

def render (steps : List CodeStep) : String := renderAt 0 steps

def levelAfterAll (level : Nat) (steps : List CodeStep) : Nat := steps.foldl levelAfter level

def block (header : String) (body : List CodeStep) : List CodeStep :=
  openBlock header :: body ++ [closeBlock ""]

theorem renderAt_append (level : Nat) (ss ts : List CodeStep) :
    renderAt level (ss ++ ts) = renderAt level ss ++ renderAt (levelAfterAll level ss) ts := by
  induction ss generalizing level with
  | nil => simp [renderAt, levelAfterAll]
  | cons s ss ih => simp [renderAt, ih, levelAfterAll, String.append_assoc]

end CodeStep

end DeclGen
