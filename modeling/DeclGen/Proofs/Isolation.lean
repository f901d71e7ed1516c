import DeclGen.Proofs.Renumbering
import DeclGen.Proofs.SourceSet.Entries

/-!
# Files that cannot be read

A file that cannot be read is registered under its number and leaves one diagnostic. Apart from
that, a run is the same as without it: only the numbers of the files behind it differ.

## Main definitions

* `SourceSet.isReadable`: the files that have a tree
* `SourceSet.numberAmong`: the number that a file has where only those are registered

## Main statements

* `SourceSet.renumbers_readable`: leaving out the other files only changes numbers
* `Generator.run_without_unreadable`: so a run is the same without them
-/

namespace DeclGen

namespace SourceSet

def isReadable (file : String × String) : Bool := (CompilationUnit.parse file.2).toOption.isSome

/-- The number of a file among those that can be read. -/
def numberAmong (files : List (String × String)) (id : FileId) : FileId :=
  ⟨(files.take id.index).countP isReadable⟩

variable {file : String × String}

theorem isSome_entryTree? (file : String × String) (i : Nat) :
    (entryTree? (file, i)).isSome = isReadable file := by
  simp [entryTree?, isReadable]

/-- Entries keep their numbers. -/
theorem le_index_of_mem {files : List (String × String)} {n : Nat} {tree : SyntaxTree}
    (h : tree ∈ (files.zipIdx n).filterMap entryTree?) : n ≤ tree.file.index := by
  obtain ⟨⟨file, i⟩, hmem, hsome⟩ := List.mem_filterMap.mp h
  obtain ⟨root, -, rfl⟩ := Option.map_eq_some_iff.mp hsome
  exact (List.mem_zipIdx hmem).1

/-- The trees of the files that can be read, counted from `m` on, are those of all files, counted
from `n` on, up to their numbers. -/
theorem trees_filter (files : List (String × String)) (m n : Nat) :
    ((files.filter isReadable).zipIdx m).filterMap entryTree? =
      ((files.zipIdx n).filterMap entryTree?).map
        (·.renumber fun id => ⟨m + (files.take (id.index - n)).countP isReadable⟩) := by
  induction files generalizing m n with
  | nil => rfl
  | cons file files ih =>
    have hrest : (((files.zipIdx (n + 1)).filterMap entryTree?).map (·.renumber fun id =>
          ⟨m + ((file :: files).take (id.index - n)).countP isReadable⟩)) =
        ((files.zipIdx (n + 1)).filterMap entryTree?).map (·.renumber fun id =>
          ⟨(m + [file].countP isReadable) +
            (files.take (id.index - (n + 1))).countP isReadable⟩) := by
      refine List.map_congr_left fun tree htree => ?_
      have hle := le_index_of_mem htree
      obtain ⟨k, hk⟩ : ∃ k, tree.file.index - n = k + 1 := ⟨tree.file.index - n - 1, by omega⟩
      have hk' : tree.file.index - (n + 1) = k := by omega
      have hcount : ((file :: files).take (k + 1)).countP isReadable =
          [file].countP isReadable + (files.take k).countP isReadable := by
        rw [List.take_succ_cons, ← List.singleton_append, List.countP_append]
      simp only [SyntaxTree.renumber, hk, hk', hcount, Nat.add_assoc]
    cases hfile : isReadable file with
    | true =>
      obtain ⟨root, hroot⟩ := Option.isSome_iff_exists.mp hfile
      have htree (i : Nat) : entryTree? (file, i) = some ⟨⟨i⟩, file.1, root⟩ := by
        simp [entryTree?, hroot]
      have hone : [file].countP isReadable = 1 := by simp [hfile]
      rw [hone] at hrest
      simp only [List.filter_cons_of_pos hfile, List.zipIdx_cons, List.filterMap_cons, htree,
        List.map_cons, hrest, ih (m + 1) (n + 1)]
      simp [SyntaxTree.renumber]
    | false =>
      have htree : entryTree? (file, n) = none := by
        rw [← Option.not_isSome_iff_eq_none, isSome_entryTree?, hfile]
        exact Bool.false_ne_true
      have hzero : [file].countP isReadable = 0 := by simp [hfile]
      rw [hzero] at hrest
      simp only [List.filter_cons_of_neg (Bool.eq_false_iff.mp hfile), List.zipIdx_cons,
        List.filterMap_cons, htree, hrest, ih m (n + 1), Nat.add_zero]

/-- A file that can be read has its number among those. -/
theorem getElem?_filter_isReadable {files : List (String × String)} {i : Nat}
    (h : files[i]? = some file) (hfile : isReadable file = true) :
    (files.filter isReadable)[(files.take i).countP isReadable]? = some file := by
  obtain ⟨hlt, rfl⟩ := List.getElem?_eq_some_iff.mp h
  have hsplit : files = files.take i ++ files[i] :: files.drop (i + 1) := by simp
  have hfilter : files.filter isReadable =
      (files.take i).filter isReadable ++ files[i] :: (files.drop (i + 1)).filter isReadable := by
    rw [← List.filter_cons_of_pos hfile, ← List.filter_append, ← hsplit]
  rw [hfilter, List.countP_eq_length_filter, List.getElem?_append_right (Nat.le_refl _),
    Nat.sub_self, List.getElem?_cons_zero]

/-- Leaving out the files that cannot be read only changes numbers. -/
theorem renumbers_readable (files : List (String × String)) :
    (ofFiles files).1.Renumbers (numberAmong files) (ofFiles (files.filter isReadable)).1 := by
  refine ⟨?_, fun tree htree => ?_⟩
  · rw [trees_ofFiles, trees_ofFiles, trees_filter files 0 0]
    simp only [Nat.zero_add, Nat.sub_zero]
    rfl
  · rw [trees_ofFiles] at htree
    obtain ⟨⟨file, i⟩, hmem, hsome⟩ := List.mem_filterMap.mp htree
    have hfile : files[i]? = some file := List.mem_zipIdx_iff_getElem?.mp hmem
    have hreadable : isReadable file = true := by
      rw [← isSome_entryTree? file i, hsome]
      rfl
    obtain ⟨root, -, rfl⟩ := Option.map_eq_some_iff.mp hsome
    rw [file?_ofFiles, file?_ofFiles, hfile]
    exact congrArg _ (getElem?_filter_isReadable hfile hreadable)

/-! ## What a file leaves -/

/-- Under the number of an entry stands what this entry leaves, and nothing else. -/
theorem filter_filterMap_zipIdx {α β : Type} {f : α × Nat → Option β} {number : β → Nat}
    (hf : ∀ a i b, f (a, i) = some b → number b = i) {as : List α} {i : Nat} {a : α} (n : Nat)
    (h : as[i]? = some a) :
    ((as.zipIdx n).filterMap f).filter (number · = n + i) = (f (a, n + i)).toList := by
  induction as generalizing n i with
  | nil => cases h
  | cons a' as ih =>
    rw [List.zipIdx_cons, List.filterMap_cons]
    cases i with
    | zero =>
      obtain rfl : a' = a := by simpa using h
      have hrest : ((as.zipIdx (n + 1)).filterMap f).filter (number · = n) = [] := by
        refine List.filter_eq_nil_iff.mpr fun b hb => ?_
        obtain ⟨⟨a, j⟩, hmem, hsome⟩ := List.mem_filterMap.mp hb
        have := (List.mem_zipIdx hmem).1
        have := hf a j b hsome
        simp only [decide_eq_true_eq]
        omega
      cases hfa : f (a', n) with
      | none => simp [hrest]
      | some b => simp [hrest, hf a' n b hfa]
    | succ i =>
      have hrest := ih (n + 1) (by simpa using h)
      rw [Nat.add_assoc, Nat.add_comm 1 i] at hrest
      cases hfa : f (a', n) with
      | none => exact hrest
      | some b =>
        have hne : ¬ number b = n + (i + 1) := by
          have := hf a' n b hfa
          omega
        simpa [hne] using hrest

variable {files : List (String × String)} {i : Nat}

theorem filter_trees_ofFiles (h : files[i]? = some file) :
    (ofFiles files).1.trees.filter (·.file.index = i) = (entryTree? (file, i)).toList := by
  have hnumber (file : String × String) (i : Nat) (tree : SyntaxTree)
      (htree : entryTree? (file, i) = some tree) : tree.file.index = i := by
    obtain ⟨root, -, rfl⟩ := Option.map_eq_some_iff.mp htree
    rfl
  have hone := filter_filterMap_zipIdx hnumber 0 h
  rwa [Nat.zero_add, ← trees_ofFiles] at hone

/-- The diagnostics about a file are its own fault, if there is one, whatever the other files are.
-/
theorem filter_faults_ofFiles (h : files[i]? = some file) :
    (ofFiles files).2.filter (·.location.file.index = i) = (entryFault? (file, i)).toList := by
  have hnumber (file : String × String) (i : Nat) (d : Diagnostic)
      (hd : entryFault? (file, i) = some d) : d.location.file.index = i := by
    unfold entryFault? at hd
    split at hd
    · cases hd
    · cases hd
      rfl
  have hone := filter_filterMap_zipIdx hnumber 0 h
  rwa [Nat.zero_add, ← faults_ofFiles] at hone

theorem pairwise_trees_ofFiles (files : List (String × String)) :
    (ofFiles files).1.trees.Pairwise fun a b => a.file.index < b.file.index := by
  rw [trees_ofFiles]
  have hentries : files.zipIdx.Pairwise fun a b => a.2 < b.2 := by
    rw [← List.pairwise_map, List.zipIdx_map_snd]
    exact List.pairwise_lt_range'
  refine hentries.filterMap _ fun a b hlt tree htree tree' htree' => ?_
  obtain ⟨root, -, rfl⟩ := Option.map_eq_some_iff.mp htree
  obtain ⟨root', -, rfl⟩ := Option.map_eq_some_iff.mp htree'
  exact hlt

/-- Together, entries leave as many trees and diagnostics as there are entries. -/
theorem length_filterMap_entries (entries : List ((String × String) × Nat)) :
    (entries.filterMap entryTree?).length + (entries.filterMap entryFault?).length =
      entries.length := by
  induction entries with
  | nil => rfl
  | cons entry entries ih =>
    rw [List.filterMap_cons, List.filterMap_cons, List.length_cons, ← ih]
    cases hparse : CompilationUnit.parse entry.1.2 with
    | ok root =>
      simp only [entryTree?, entryFault?, hparse, Except.toOption, Option.map_some,
        List.length_cons]
      omega
    | error e =>
      simp only [entryTree?, entryFault?, hparse, Except.toOption, Option.map_none,
        List.length_cons]
      omega

/-- A file leaves its tree, or one diagnostic if it has none. -/
theorem leaves_one (h : files[i]? = some file) :
    (∃ root, CompilationUnit.parse file.2 = .ok root ∧
        (ofFiles files).1.trees.filter (·.file.index = i) = [⟨⟨i⟩, file.1, root⟩] ∧
        (ofFiles files).2.filter (·.location.file.index = i) = []) ∨
      ∃ e d, CompilationUnit.parse file.2 = .error e ∧ d.code = some "SG0001" ∧
        (ofFiles files).1.trees.filter (·.file.index = i) = [] ∧
        (ofFiles files).2.filter (·.location.file.index = i) = [d] := by
  rw [filter_trees_ofFiles h, filter_faults_ofFiles h]
  cases hparse : CompilationUnit.parse file.2 with
  | ok root => exact .inl ⟨root, rfl, by simp [entryTree?, hparse, Except.toOption], by
      simp [entryFault?, hparse]⟩
  | error e =>
    refine .inr ⟨e, _, rfl, ?_, by simp [entryTree?, hparse, Except.toOption], by
      simp only [entryFault?, hparse]; rfl⟩
    rfl

end SourceSet

namespace Generator

open SourceSet

/-- Every file is registered under its place in the list and leaves either its tree or one syntax
error there, the trees in the order of the files. Whatever generators run, they publish the same
units as on the files that can be read alone, and report the same about the same files, which only
have other numbers there. -/
theorem run_without_unreadable (files : List (String × String)) (generators : List Generator)
    (evaluator : Evaluator) :
    let set := (ofFiles files).1
    let faults := (ofFiles files).2
    let readable := (ofFiles (files.filter isReadable)).1
    let reported := (run generators set evaluator).diagnostics
    (∀ i, set.registry.file? ⟨i⟩ = files[i]?.map fun file => ⟨file.1, file.2⟩) ∧
      (∀ i file, files[i]? = some file →
        (∃ root, CompilationUnit.parse file.2 = .ok root ∧
            set.trees.filter (·.file.index = i) = [⟨⟨i⟩, file.1, root⟩] ∧
            faults.filter (·.location.file.index = i) = []) ∨
          ∃ e d, CompilationUnit.parse file.2 = .error e ∧ d.code = some "SG0001" ∧
            set.trees.filter (·.file.index = i) = [] ∧
            faults.filter (·.location.file.index = i) = [d]) ∧
      set.trees.length + faults.length = files.length ∧
      set.trees.Pairwise (fun a b => a.file.index < b.file.index) ∧
      (run generators readable evaluator).units = (run generators set evaluator).units ∧
      (run generators readable evaluator).diagnostics =
        reported.map (·.renumber (numberAmong files)) ∧
      ∀ d ∈ reported, ∀ l ∈ d.locations, ∃ f, set.registry.file? l.file = some f ∧
        readable.registry.file? (numberAmong files l.file) = some f := by
  intro set faults readable reported
  have hnumbers := renumbers_readable files
  have hrun := run_renumber hnumbers generators evaluator
  refine ⟨fun i => file?_ofFiles files ⟨i⟩, fun i file => leaves_one, ?_,
    pairwise_trees_ofFiles files, congrArg (·.units) hrun, congrArg (·.diagnostics) hrun, ?_⟩
  · simp only [set, faults, trees_ofFiles, faults_ofFiles]
    rw [length_filterMap_entries, List.length_zipIdx]
  · intro d hd l hl
    obtain ⟨tree, htree, hfile⟩ := (origin_of_mem_diagnostics hd).exists_tree l hl
    obtain ⟨text, hregistered, -⟩ := exists_text_of_mem_trees htree
    rw [hfile]
    exact ⟨_, hregistered, (hnumbers.file? tree htree).trans hregistered⟩

end Generator

end DeclGen
