import DeclGen.Source.Position
import DeclGen.Text.Blank
import DeclGen.Text.Size
import DeclGen.Text.Split

/-!
# Source files

A file is a name and a text. Line feeds end its lines; the carriage returns before them belong to
no line.

## Main definitions

* `Text.lines`: the pieces of a text between line feeds
* `Text.lineColumn`: the line and column of a byte offset
* `SourceFile.line?`, `SourceFile.position`: the same of a file
-/

namespace DeclGen

namespace Text

def lines (s : List Char) : List (List Char) := splitAt '\n' s

/-- The line and column of the place `n` bytes further on, where `chars` characters and `bytes`
bytes precede on the current line. A place inside a character has its distance in bytes for
a column. -/
def lineColumnFrom (line chars bytes : Nat) : (n : Nat) → List Char → Nat × Nat
  | 0, _ | _, [] => (line, chars + 1)
  | n + 1, c :: s =>
    if n + 1 < c.utf8Size then (line, bytes + (n + 1) + 1)
    else if c == '\n' then lineColumnFrom (line + 1) 0 0 (n + 1 - c.utf8Size) s
    else lineColumnFrom line (chars + 1) (bytes + c.utf8Size) (n + 1 - c.utf8Size) s

/-- The line and column of a byte offset; past the end, those of the end. -/
def lineColumn (offset : Nat) (s : List Char) : Nat × Nat := lineColumnFrom 1 0 0 offset s

end Text

/-- A file with its text. -/
structure SourceFile where
  name : String
  text : String
deriving DecidableEq, Repr, Inhabited

namespace SourceFile

def size (f : SourceFile) : Nat := Text.size f.text.toList

/-- A line of the file by its number, without the carriage returns at its end. -/
def line? (f : SourceFile) (number : Nat) : Option (List Char) :=
  if number = 0 then none
  else (Text.lines f.text.toList)[number - 1]?.map (Text.dropTrailing (· == '\r'))

def lineColumn (f : SourceFile) (offset : Nat) : Nat × Nat := Text.lineColumn offset f.text.toList

def position (f : SourceFile) (offset : Nat) : Position :=
  let (line, column) := f.lineColumn offset
  ⟨line, column, min offset f.size⟩

end SourceFile

end DeclGen
