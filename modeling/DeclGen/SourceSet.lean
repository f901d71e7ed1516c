import DeclGen.Diagnostic.Catalog
import DeclGen.Grammar.Unit
import DeclGen.Source.Registry

/-!
# The sources of a run

All files of a run and the trees of those that could be read. A file that cannot be read stays
registered, so that its diagnostic can show the offending line, and has no tree.

## Main definitions

* `SyntaxTree`: the tree of a file
* `SourceSet.add`, `SourceSet.ofFiles`: reading files
* `SourceSet.locate`: the location of a span
-/

namespace DeclGen

/-- The tree of a registered file. -/
structure SyntaxTree where
  file : FileId
  path : String
  root : CompilationUnit
deriving Inhabited

/-- The files of a run and the trees of those that could be read. -/
structure SourceSet where
  registry : Registry
  trees : List SyntaxTree
deriving Inhabited

namespace SourceSet

def empty : SourceSet := ⟨.empty, []⟩

def locate (set : SourceSet) (file : FileId) (span : Span) : Location :=
  (set.registry.locate? file span.start span.stop).getD (.origin file)

/-- Registers and reads a file. If it cannot be read, the diagnostic says where. -/
def add (set : SourceSet) (path text : String) : SourceSet × Except Diagnostic FileId :=
  let file := set.registry.nextId
  let registered := { set with registry := set.registry.add ⟨path, text⟩ }
  match CompilationUnit.parse text with
  | .ok root => ({ registered with trees := set.trees ++ [⟨file, path, root⟩] }, .ok file)
  | .error e =>
    let place := registered.locate file ⟨e.offset, e.offset + 1⟩
    (registered, .error (.syntaxError place e.expected))

/-- Registers and reads files in order, where some were read before. -/
def addAll (set : SourceSet) : (files : List (String × String)) → SourceSet × List Diagnostic
  | [] => (set, [])
  | (path, text) :: files =>
    match set.add path text with
    | (set', .ok _) => addAll set' files
    | (set', .error d) =>
      let (set'', ds) := addAll set' files
      (set'', d :: ds)

def ofFiles (files : List (String × String)) : SourceSet × List Diagnostic := empty.addAll files

end SourceSet

end DeclGen
