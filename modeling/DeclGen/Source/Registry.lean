import DeclGen.Source.File

/-!
# The files of a run

Files are registered in order and known by their number from then on.
-/

namespace DeclGen

/-- The registered files, in order. -/
structure Registry where
  files : List SourceFile
deriving DecidableEq, Repr, Inhabited

namespace Registry

def empty : Registry := ⟨[]⟩

def add (r : Registry) (file : SourceFile) : Registry := ⟨r.files ++ [file]⟩

def nextId (r : Registry) : FileId := ⟨r.files.length⟩

def file? (r : Registry) (id : FileId) : Option SourceFile := r.files[id.index]?

def ids (r : Registry) : List FileId := (List.range r.files.length).map (⟨·⟩)

def locate? (r : Registry) (id : FileId) (start stop : Nat) : Option Location :=
  (r.file? id).map fun f => ⟨id, f.position start, f.position (max stop start)⟩

end Registry

end DeclGen
