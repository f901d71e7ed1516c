import DeclGen.Diagnostic.Basic
import DeclGen.Source.Registry

/-!
# How diagnostics are shown

A header, the place, the line it is on with carets under the marked characters, further places, and
then suggestions, help and notes. The layout is a list of pieces, some of them painted; plain and
coloured output differ in how a piece is written and in nothing else.

## Main definitions

* `Piece`: a text with its paint
* `Diagnostic.layout`: the pieces of a diagnostic
* `Diagnostic.render`, `Diagnostic.renderAll`: the text
-/

namespace DeclGen

/-- The paints of a terminal. -/
inductive Paint where
  | red | yellow | cyan | green | boldWhite | brightCyan | orange | blue
deriving DecidableEq, Repr, Inhabited

def Paint.parameters : Paint → String
  | red => "31"
  | yellow => "33"
  | cyan => "36"
  | green => "32"
  | boldWhite => "1;97"
  | brightCyan => "96"
  | orange => "38;5;208"
  | blue => "34"

/-- A stretch of output, painted or not. -/
structure Piece where
  paint : Option Paint
  text : String
deriving DecidableEq, Repr, Inhabited

namespace Piece

def plain (text : String) : Piece := ⟨none, text⟩

def painted (paint : Paint) (text : String) : Piece := ⟨some paint, text⟩

/-- The piece as it is written, with its paint if colours are wanted. -/
def render (inColor : Bool) (p : Piece) : String :=
  match p.paint with
  | some paint =>
    if inColor then "\x1b[" ++ paint.parameters ++ "m" ++ p.text ++ "\x1b[0m" else p.text
  | none => p.text

def renderAll (inColor : Bool) (ps : List Piece) : String := String.join (ps.map (render inColor))

end Piece

def Severity.paint : Severity → Paint
  | error => .red
  | warning => .yellow
  | info => .cyan
  | hint => .green

namespace Diagnostic

def repeated (n : Nat) (c : Char) : String := String.ofList (List.replicate n c)

/-- The number of carets under a line for a location that starts on it: its characters, those up
to the end of the line if it goes on behind it, and at least one. -/
def caretCount (location : Location) (line : List Char) : Nat :=
  let marked :=
    if location.start.line = location.stop.line then location.stop.column - location.start.column
    else if location.start.column = 0 then 0
    else line.length - (location.start.column - 1)
  max marked 1

def header (d : Diagnostic) : List Piece :=
  let code := match d.code with
    | some code => "[" ++ code ++ "]"
    | none => ""
  [.painted d.severity.paint (d.severity.text ++ code), .plain ": ", .painted .boldWhite d.message,
    .plain "\n"]

def placeText (name : String) (p : Position) : String :=
  name ++ ":" ++ toString p.line ++ ":" ++ toString p.column

/-- The line that a diagnostic starts on, with its carets and first primary label. -/
def excerpt (d : Diagnostic) (line : List Char) : List Piece :=
  let number := toString d.location.start.line
  let margin := Piece.plain (repeated number.length ' ' ++ " ")
  let bar := Piece.painted .brightCyan "|"
  let carets := repeated (caretCount d.location line) '^'
  let label := match d.labels.find? (·.isPrimary) with
    | some l => [.plain " ", .painted d.severity.paint l.message]
    | none => []
  [margin, bar, .plain "\n",
    .painted .brightCyan number, .plain " ", bar, .plain (" " ++ String.ofList line ++ "\n"),
    margin, bar, .plain (" " ++ repeated (d.location.start.column - 1) ' '),
    .painted d.severity.paint carets] ++ label ++ [.plain "\n"]

def placePieces (d : Diagnostic) (files : Registry) : List Piece :=
  match files.file? d.location.file with
  | none => []
  | some f =>
    [.plain "  ", .painted .brightCyan "-->",
      .plain (" " ++ placeText f.name d.location.start ++ "\n")] ++
    match f.line? d.location.start.line with
    | some line => excerpt d line
    | none => []

/-- The place and message of a label that is not primary, if its file is known. -/
def furtherPlace (files : Registry) (l : Label) : List Piece :=
  match files.file? l.location.file with
  | some f =>
    [.plain "  ", .painted .brightCyan "-->",
      .plain (" " ++ placeText f.name l.location.start ++ ": " ++ l.message ++ "\n")]
  | none => []

def remark (indent : String) (paint : Paint) (word message : String) : List Piece :=
  [.plain indent, .painted paint word, .plain (": " ++ message ++ "\n")]

def layout (d : Diagnostic) (files : Registry) : List Piece :=
  header d ++ placePieces d files
    ++ (d.labels.filter (!·.isPrimary)).flatMap (furtherPlace files)
    ++ d.suggestions.flatMap (remark "" .orange "suggestion" ·.message)
    ++ d.help.flatMap (remark "     " .green "help")
    ++ d.notes.flatMap (remark "" .blue "note")

def render (inColor : Bool) (d : Diagnostic) (files : Registry) : String :=
  Piece.renderAll inColor (d.layout files)

def renderAll (inColor : Bool) (ds : List Diagnostic) (files : Registry) : String :=
  "\n".intercalate (ds.map (·.render inColor files))

end Diagnostic

end DeclGen
