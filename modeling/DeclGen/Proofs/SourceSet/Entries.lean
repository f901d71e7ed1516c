import DeclGen.SourceSet

/-!
# Files in their registry

What reading a list of files gives, entry by entry. The number of a file is its place in the list,
whether the files before it can be read or not, and a file leaves either its tree or a diagnostic.

## Main definitions

* `SourceSet.entryTree?`, `SourceSet.entryFault?`: what a file at a place of the list leaves

## Main statements

* `SourceSet.addAll_eq`: the registry, the trees and the diagnostics
-/

namespace DeclGen

namespace SourceSet

/-- The tree of a file with its number, if it can be read. -/
def entryTree? (entry : (String × String) × Nat) : Option SyntaxTree :=
  (CompilationUnit.parse entry.1.2).toOption.map (⟨⟨entry.2⟩, entry.1.1, ·⟩)

/-- The diagnostic about a file with its number, if it cannot be read. -/
def entryFault? (entry : (String × String) × Nat) : Option Diagnostic :=
  match CompilationUnit.parse entry.1.2 with
  | .ok _ => none
  | .error e =>
    let file : SourceFile := ⟨entry.1.1, entry.1.2⟩
    let place := ⟨⟨entry.2⟩, file.position e.offset, file.position (e.offset + 1)⟩
    some (.syntaxError place e.expected)

def registered (files : List (String × String)) : List SourceFile :=
  files.map fun file => ⟨file.1, file.2⟩

variable (set : SourceSet) (path text : String)

theorem add_of_ok {root : CompilationUnit} (h : CompilationUnit.parse text = .ok root) :
    set.add path text =
      (⟨set.registry.add ⟨path, text⟩, set.trees ++ [⟨set.registry.nextId, path, root⟩]⟩,
        .ok set.registry.nextId) := by
  rw [add, h]

theorem add_of_error {e : Grammar.SyntaxError} (h : CompilationUnit.parse text = .error e) :
    set.add path text =
      (⟨set.registry.add ⟨path, text⟩, set.trees⟩,
        .error (.syntaxError ⟨set.registry.nextId, SourceFile.position ⟨path, text⟩ e.offset,
          SourceFile.position ⟨path, text⟩ (e.offset + 1)⟩ e.expected)) := by
  rw [add, h]
  simp [locate, Registry.locate?, Registry.file?, Registry.add, Registry.nextId]

/-- Further files are registered behind those that are there, and each leaves its tree or its
diagnostic. -/
theorem addAll_eq (set : SourceSet) (files : List (String × String)) :
    set.addAll files =
      (⟨⟨set.registry.files ++ registered files⟩,
          set.trees ++ (files.zipIdx set.registry.files.length).filterMap entryTree?⟩,
        (files.zipIdx set.registry.files.length).filterMap entryFault?) := by
  induction files generalizing set with
  | nil => simp [addAll, registered]
  | cons file files ih =>
    obtain ⟨path, text⟩ := file
    cases h : CompilationUnit.parse text with
    | ok root =>
      have htree : entryTree? ((path, text), set.registry.files.length) =
          some ⟨set.registry.nextId, path, root⟩ := by
        simp [entryTree?, h, Except.toOption, Registry.nextId]
      have hfault : entryFault? ((path, text), set.registry.files.length) = none := by
        simp [entryFault?, h]
      simp [addAll, add_of_ok set path text h, ih, htree, hfault, registered, Registry.add]
    | error e =>
      have htree : entryTree? ((path, text), set.registry.files.length) = none := by
        simp [entryTree?, h, Except.toOption]
      simp [addAll, add_of_error set path text h, ih, htree, entryFault?, h, registered,
        Registry.add, Registry.nextId]

theorem files_ofFiles (files : List (String × String)) :
    (ofFiles files).1.registry.files = registered files := by
  simp [ofFiles, addAll_eq, empty, Registry.empty]

theorem trees_ofFiles (files : List (String × String)) :
    (ofFiles files).1.trees = files.zipIdx.filterMap entryTree? := by
  simp [ofFiles, addAll_eq, empty, Registry.empty]

theorem faults_ofFiles (files : List (String × String)) :
    (ofFiles files).2 = files.zipIdx.filterMap entryFault? := by
  simp [ofFiles, addAll_eq, empty, Registry.empty]

theorem file?_ofFiles (files : List (String × String)) (id : FileId) :
    (ofFiles files).1.registry.file? id =
      files[id.index]?.map fun file => ⟨file.1, file.2⟩ := by
  rw [Registry.file?, files_ofFiles, registered, List.getElem?_map]

/-- A tree is the tree of the file that is registered under its number. -/
theorem exists_text_of_mem_trees {files : List (String × String)} {tree : SyntaxTree}
    (h : tree ∈ (ofFiles files).1.trees) :
    ∃ text, (ofFiles files).1.registry.file? tree.file = some ⟨tree.path, text⟩ ∧
      CompilationUnit.parse text = .ok tree.root := by
  rw [trees_ofFiles] at h
  obtain ⟨⟨⟨path, text⟩, i⟩, hmem, hsome⟩ := List.mem_filterMap.mp h
  obtain ⟨root, hroot, rfl⟩ := Option.map_eq_some_iff.mp hsome
  have hfile : files[i]? = some (path, text) := List.mem_zipIdx_iff_getElem?.mp hmem
  refine ⟨text, by rw [file?_ofFiles, hfile]; rfl, ?_⟩
  cases hparse : CompilationUnit.parse text with
  | ok u => simpa [hparse, Except.toOption] using hroot
  | error e => simp [hparse, Except.toOption] at hroot

end SourceSet

end DeclGen
