import DeclGen.Toml.Statement

/-!
# TOML documents

The statements of a document build its table one after the other. A key-value pair belongs to the
table of the header before it.

## Main definitions

* `Toml.build`: the table that statements make
* `Toml.parse?`: the table of a text
-/

namespace DeclGen.Toml

/-- A table under construction, and the path of the last header. -/
structure Draft where
  table : Table
  current : List String

/-- The draft after one more statement, unless it contradicts the ones before. -/
def Draft.add (d : Draft) : Statement → Option Draft
  | .header path key =>
    (updateAt (openTable key) path d.table).map (⟨·, path ++ [key]⟩)
  | .nextHeader path key =>
    (updateAt (openNextTable key) path d.table).map (⟨·, path ++ [key]⟩)
  | .entry path key v =>
    (updateAt (insertAt · path key v) d.current d.table).map (⟨·, d.current⟩)

def build (ss : List Statement) : Option Table := (ss.foldlM Draft.add ⟨[], []⟩).map (·.table)

def parse? (text : String) : Option Table :=
  match statements (.ofString text) with
  | .ok (ss, _) => build ss
  | .error _ => none

end DeclGen.Toml
