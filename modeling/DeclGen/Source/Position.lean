/-!
# Positions in source files

A position is a line and a column, both counted from one, with the byte offset they stand for. A
location is a stretch between two positions of one file.

## Main definitions

* `Position`, `FileId`, `Location`
* `Location.merge`: the smallest location that covers two
-/

namespace DeclGen

/-- A place in a file. Columns count characters. -/
structure Position where
  line : Nat
  column : Nat
  offset : Nat
deriving DecidableEq, Repr, Inhabited

/-- The number of a file in its registry, from zero on. -/
structure FileId where
  index : Nat
deriving DecidableEq, Repr, Inhabited

/-- A stretch of one file, without its end. -/
structure Location where
  file : FileId
  start : Position
  stop : Position
deriving DecidableEq, Repr, Inhabited

namespace Location

def origin (file : FileId) : Location := ⟨file, ⟨1, 1, 0⟩, ⟨1, 1, 0⟩⟩

/-- The smallest location that covers both; the first one if they are of different files. -/
def merge (a b : Location) : Location :=
  if a.file ≠ b.file then a
  else
    { file := a.file
      start := if a.start.offset ≤ b.start.offset then a.start else b.start
      stop := if b.stop.offset ≤ a.stop.offset then a.stop else b.stop }

def length (a : Location) : Nat := a.stop.offset - a.start.offset

def isEmpty (a : Location) : Bool := a.length == 0

end Location

end DeclGen
