import DeclGen.Proofs.CommandLine.Trees
import Mathlib.Data.List.Sort

/-!
# The source files of a tree

The source files below a directory are listed by name, so the list depends on nothing but which
files with the names of sources there are. Further directories and generated files do not show.

## Main definitions

* `IsSourcePath`: the path of a source file
* `FileTree.SameSources`: two trees have the same source files

## Main statements

* `FileTree.sources_eq`: trees with the same source files list them alike
* `FileTree.exists_of_mem_sources`: all that are listed have the names of sources
-/

namespace DeclGen.CommandLine

def IsSourcePath (names : List String) : Prop :=
  ∃ name ∈ names.getLast?, isSourceName name = true

theorem IsSourcePath.ne_nil {names : List String} (h : IsSourcePath names) : names ≠ [] := by
  obtain ⟨name, hname, -⟩ := h
  rintro rfl
  cases hname

theorem IsSourcePath.append {path : List String} (h : IsSourcePath path) (names : List String) :
    IsSourcePath (names ++ path) := by
  obtain ⟨last, hlast, hsource⟩ := h
  refine ⟨last, ?_, hsource⟩
  rw [Option.mem_def] at hlast ⊢
  rw [List.getLast?_append, hlast]
  rfl

theorem IsSourcePath.cons {names : List String} (h : IsSourcePath names) (name : String) :
    IsSourcePath (name :: names) := h.append [name]

/-! ## Sorting by name -/

def nameLe (a b : String × List String) : Bool := !decide (b.1 < a.1)

theorem nameLe_iff (a b : String × List String) : nameLe a b = true ↔ a.1 ≤ b.1 := by
  rw [nameLe, Bool.not_eq_true', decide_eq_false_iff_not, String.not_lt]

theorem pairwise_nameLe (l : List (String × List String)) :
    (l.mergeSort nameLe).Pairwise fun a b => nameLe a b = true := by
  refine List.pairwise_mergeSort (fun a b c hab hbc => ?_) (fun a b => ?_) l
  · rw [nameLe_iff] at hab hbc ⊢
    exact String.le_trans hab hbc
  · rw [Bool.or_eq_true, nameLe_iff, nameLe_iff]
    exact String.le_total a.1 b.1

theorem eq_of_fst_eq {l : List (String × List String)} (hnames : (l.map (·.1)).Nodup)
    {a b : String × List String} (ha : a ∈ l) (hb : b ∈ l) (h : a.1 = b.1) : a = b :=
  List.inj_on_of_nodup_map hnames ha hb h

theorem flatMap_filter_ne_nil (l : List (String × List String)) :
    (l.filter fun p => !p.2.isEmpty).flatMap (·.2) = l.flatMap (·.2) := by
  induction l with
  | nil => rfl
  | cons p l ih =>
    rw [List.filter_cons, List.flatMap_cons, ← ih]
    cases hp : p.2 <;> simp [hp]

/-- Lists by name that differ in nothing but names without files come out alike when sorted. -/
theorem flatMap_mergeSort_eq {l l' : List (String × List String)}
    (hnames : (l.map (·.1)).Nodup) (hnames' : (l'.map (·.1)).Nodup)
    (hsame : ∀ p, p.2 ≠ [] → (p ∈ l ↔ p ∈ l')) :
    (l.mergeSort nameLe).flatMap (·.2) = (l'.mergeSort nameLe).flatMap (·.2) := by
  rw [← flatMap_filter_ne_nil (l.mergeSort nameLe), ← flatMap_filter_ne_nil (l'.mergeSort nameLe)]
  have hmem (l : List (String × List String)) (p : String × List String) :
      p ∈ (l.mergeSort nameLe).filter (fun p => !p.2.isEmpty) ↔ p ∈ l ∧ p.2 ≠ [] := by
    rw [List.mem_filter, List.mem_mergeSort]
    simp
  have hnodup {l : List (String × List String)} (h : (l.map (·.1)).Nodup) :
      ((l.mergeSort nameLe).filter fun p => !p.2.isEmpty).Nodup :=
    List.Nodup.filter _ ((List.mergeSort_perm l nameLe).nodup_iff.mpr (List.Nodup.of_map _ h))
  have hperm : ((l.mergeSort nameLe).filter fun p => !p.2.isEmpty).Perm
      ((l'.mergeSort nameLe).filter fun p => !p.2.isEmpty) := by
    rw [List.perm_ext_iff_of_nodup (hnodup hnames) (hnodup hnames')]
    intro p
    rw [hmem, hmem]
    exact and_congr_left (hsame p)
  congr 1
  refine hperm.eq_of_pairwise (fun a b ha hb hab hba => ?_)
    ((pairwise_nameLe l).filter _) ((pairwise_nameLe l').filter _)
  have ha := (hmem l a).mp ha
  have hb := (hmem l' b).mp hb
  rw [nameLe_iff] at hab hba
  exact eq_of_fst_eq hnames ha.1 ((hsame b hb.2).mpr hb.1) (String.le_antisymm hab hba)

namespace FileTree

variable {α : Type} {t t' : FileTree α} {entries entries' : List (String × FileTree α)}

/-- The source files that an entry of the directory at a path is or contains. -/
def entrySources (path name : String) : FileTree α → List String
  | file _ => if isSourceName name then [joinPath path name] else []
  | directory entries => (directory entries).sources (joinPath path name)

theorem sourcesByName_eq (path : String) (entries : List (String × FileTree α)) :
    sourcesByName path entries = entries.map fun e => (e.1, e.2.entrySources path e.1) := by
  induction entries with
  | nil => rfl
  | cons e entries ih =>
    obtain ⟨name, u⟩ := e
    cases u <;> rw [sourcesByName, ih] <;> rfl

theorem sources_directory (path : String) (entries : List (String × FileTree α)) :
    (directory entries).sources path =
      ((sourcesByName path entries).mergeSort nameLe).flatMap (·.2) := by
  rw [sources]
  rfl

/-- The same files with the same contents have the names of sources in both trees. -/
def SameSources (t t' : FileTree α) : Prop :=
  ∀ names content, IsSourcePath names →
    (t'.kind? names = some (.file content) ↔ t.kind? names = some (.file content))

/-- What stands at a path from an entry of a directory on, if there is one. -/
def entryKind? (entry : Option (FileTree α)) (names : List String) : Option (Kind α) :=
  entry.bind (·.kind? names)

/-- Neither the entry nor anything below it is a source file. -/
def Sourceless (name : String) (entry : Option (FileTree α)) : Prop :=
  ∀ names content, IsSourcePath (name :: names) → entryKind? entry names ≠ some (.file content)

theorem kind?_directory_cons (entries : List (String × FileTree α)) (name : String)
    (names : List String) :
    (directory entries).kind? (name :: names) = entryKind? (entries.lookup name) names := by
  rw [kind?, lookup?_directory_cons, entryKind?]
  cases entries.lookup name <;> rfl

/-- The source files that an entry is or contains, if there is one. -/
def entrySources? (path name : String) (entry : Option (FileTree α)) : List String :=
  (entry.map (·.entrySources path name)).getD []

/-- Where no file has the name of a source, no input stands for one. -/
theorem sources_eq_nil (ht : t.WellFormed)
    (hnone : ∀ names content, IsSourcePath names → t.kind? names ≠ some (.file content))
    (path : String) : t.sources path = [] := by
  induction ht generalizing path with
  | file content => rfl
  | @directory entries hnames hentries ih =>
    rw [sources_directory, List.flatMap_eq_nil_iff]
    intro p hp
    rw [List.mem_mergeSort, sourcesByName_eq] at hp
    obtain ⟨⟨name, u⟩, he, rfl⟩ := List.mem_map.mp hp
    have hlookup (names : List String) : (directory entries).kind? (name :: names) =
        u.kind? names := by
      rw [kind?_directory_cons, lookup_of_mem hnames he]
      rfl
    cases u with
    | file content =>
      refine if_neg fun hsource => hnone [name] content ⟨name, rfl, hsource⟩ ?_
      rw [hlookup]
      rfl
    | directory es =>
      refine ih _ he (fun names content hsource => ?_) _
      rw [← hlookup]
      exact hnone _ content (hsource.cons name)

theorem Sourceless.entrySources?_eq {name : String} {entry : Option (FileTree α)}
    (h : Sourceless name entry) (hwf : ∀ u ∈ entry, u.WellFormed) (path : String) :
    entrySources? path name entry = [] := by
  cases entry with
  | none => rfl
  | some u =>
    cases u with
    | file content =>
      exact if_neg fun hsource => h [] content ⟨name, rfl, hsource⟩ rfl
    | directory es =>
      exact sources_eq_nil (hwf _ rfl)
        (fun names content hsource => h names content (hsource.cons name)) _

/-- An entry that is a source file or has some below it is one of the entries by name. -/
theorem mem_sourcesByName_iff (hnames : (entries.map (·.1)).Nodup) (path : String)
    {p : String × List String} (hp : p.2 ≠ []) :
    p ∈ sourcesByName path entries ↔ p.2 = entrySources? path p.1 (entries.lookup p.1) := by
  rw [sourcesByName_eq, List.mem_map]
  constructor
  · rintro ⟨⟨name, u⟩, he, rfl⟩
    rw [lookup_of_mem hnames he]
    rfl
  · intro hsources
    cases hu : entries.lookup p.1 with
    | none =>
      rw [hu] at hsources
      exact absurd hsources hp
    | some u =>
      rw [hu] at hsources
      exact ⟨(p.1, u), mem_of_lookup hu, Prod.ext rfl hsources.symm⟩

theorem map_fst_sourcesByName (path : String) (entries : List (String × FileTree α)) :
    (sourcesByName path entries).map (·.1) = entries.map (·.1) := by
  rw [sourcesByName_eq, List.map_map]
  rfl

/-- Two entries of one name that have the same source files, but no source file in common. -/
theorem sourceless_of_apart {name : String} {entry entry' : Option (FileTree α)}
    (hsame : ∀ names content, IsSourcePath (name :: names) →
      (entryKind? entry' names = some (.file content) ↔
        entryKind? entry names = some (.file content)))
    (hapart : ∀ names content, entryKind? entry names = some (.file content) →
      entryKind? entry' names ≠ some (.file content)) :
    Sourceless name entry ∧ Sourceless name entry' :=
  ⟨fun names content hsource hfile =>
      hapart names content hfile ((hsame names content hsource).mpr hfile),
    fun names content hsource hfile =>
      hapart names content ((hsame names content hsource).mp hfile) hfile⟩

/-- A file and a directory have no files at the same paths. -/
theorem kind?_file_apart {content content' content'' : α} {entries : List (String × FileTree α)}
    {names : List String} (h : (file content).kind? names = some (.file content')) :
    (directory entries).kind? names ≠ some (.file content'') := by
  cases names with
  | nil => simp [kind?]
  | cons name names => cases h

/-- Entries of one name with the same source files come out alike if directories do. -/
theorem entrySources?_eq {name : String} {entry entry' : Option (FileTree α)}
    (hwf : ∀ u ∈ entry, u.WellFormed) (hwf' : ∀ u ∈ entry', u.WellFormed)
    (hsame : ∀ names content, IsSourcePath (name :: names) →
      (entryKind? entry' names = some (.file content) ↔
        entryKind? entry names = some (.file content))) (path : String)
    (hdirs : ∀ es es', entry = some (directory es) → entry' = some (directory es') →
      (directory es).sources (joinPath path name) = (directory es').sources (joinPath path name)) :
    entrySources? path name entry = entrySources? path name entry' := by
  have hempty (hapart : ∀ names content, entryKind? entry names = some (.file content) →
      entryKind? entry' names ≠ some (.file content)) :
      entrySources? path name entry = entrySources? path name entry' := by
    obtain ⟨hnone, hnone'⟩ := sourceless_of_apart hsame hapart
    rw [hnone.entrySources?_eq hwf, hnone'.entrySources?_eq hwf']
  rcases entry with _ | ⟨content⟩ | ⟨es⟩
  · exact hempty (by simp [entryKind?])
  · rcases entry' with _ | ⟨content'⟩ | ⟨es'⟩
    · exact hempty (by simp [entryKind?])
    · rfl
    · exact hempty fun names c => kind?_file_apart
  · rcases entry' with _ | ⟨content'⟩ | ⟨es'⟩
    · exact hempty (by simp [entryKind?])
    · exact hempty fun names c hc hc' => kind?_file_apart hc' hc
    · exact hdirs es es' rfl rfl

/-- A tree with the same source files as a file lists none. -/
theorem sources_eq_nil_of_file {content : α} (ht : t.WellFormed)
    (h : SameSources (file content) t) (path : String) : t.sources path = [] := by
  refine sources_eq_nil ht (fun names content' hsource hfile => ?_) path
  rw [h names content' hsource] at hfile
  cases names with
  | nil => exact hsource.ne_nil rfl
  | cons name names => cases hfile

/-- Trees with the same source files list them alike. -/
theorem sources_eq (ht : t.WellFormed) (ht' : t'.WellFormed) (h : SameSources t t')
    (path : String) : t.sources path = t'.sources path := by
  induction ht generalizing t' path with
  | file content => exact (sources_eq_nil_of_file ht' h path).symm
  | @directory entries hnames hentries ih =>
    cases ht' with
    | file content =>
      exact sources_eq_nil_of_file (.directory hnames hentries)
        (fun names c hsource => (h names c hsource).symm) path
    | @directory entries' hnames' hentries' =>
      have hentry (name : String) : entrySources? path name (entries.lookup name) =
          entrySources? path name (entries'.lookup name) := by
        have hsame (names : List String) (content : α) (hsource : IsSourcePath (name :: names)) :
            entryKind? (entries'.lookup name) names = some (.file content) ↔
              entryKind? (entries.lookup name) names = some (.file content) := by
          rw [← kind?_directory_cons, ← kind?_directory_cons]
          exact h (name :: names) content hsource
        refine entrySources?_eq (fun u hu => hentries _ (mem_of_lookup hu))
          (fun u hu => hentries' _ (mem_of_lookup hu)) hsame path fun es es' hu hu' => ?_
        apply ih _ (mem_of_lookup hu) (hentries' _ (mem_of_lookup hu'))
        intro names c hsource
        have hbelow := hsame names c (hsource.cons name)
        rwa [hu, hu'] at hbelow
      rw [sources_directory, sources_directory]
      refine flatMap_mergeSort_eq (by rwa [map_fst_sourcesByName])
        (by rwa [map_fst_sourcesByName]) fun p hp => ?_
      rw [mem_sourcesByName_iff hnames path hp, mem_sourcesByName_iff hnames' path hp, hentry]

/-! ## Names and contents -/

mutual

/-- The contents of the files do not matter. -/
theorem sources_shape : ∀ (t : FileTree α) (path : String), t.shape.sources path = t.sources path
  | file content, path => rfl
  | directory entries, path => by
    rw [shape, sources_directory, sources_directory, sourcesByName_shapes entries path]

theorem sourcesByName_shapes : ∀ (entries : List (String × FileTree α)) (path : String),
    sourcesByName path (shapes entries) = sourcesByName path entries
  | [], path => rfl
  | (name, file content) :: es, path => by
    rw [shapes, shape, sourcesByName, sourcesByName, sourcesByName_shapes es path]
  | (name, directory entries) :: es, path => by
    have hinside := sources_shape (directory entries) (joinPath path name)
    rw [shape] at hinside
    rw [shapes, shape, sourcesByName, sourcesByName, sourcesByName_shapes es path, hinside]

end

/-- Every source file below a directory has the name of a source. -/
theorem exists_of_mem_sources {p path : String} (ht : t.WellFormed) (hp : p ∈ t.sources path) :
    ∃ front name, p = joinPath front name ∧ isSourceName name = true := by
  induction ht generalizing path with
  | file content => cases hp
  | @directory entries hnames hentries ih =>
    rw [sources_directory] at hp
    obtain ⟨q, hq, hp⟩ := List.mem_flatMap.mp hp
    rw [List.mem_mergeSort, sourcesByName_eq] at hq
    obtain ⟨⟨name, u⟩, he, rfl⟩ := List.mem_map.mp hq
    cases u with
    | file content =>
      dsimp only [entrySources] at hp
      split at hp
      next hsource =>
        obtain rfl := List.mem_singleton.mp hp
        exact ⟨path, name, rfl, hsource⟩
      next => cases hp
    | directory es => exact ih _ he hp

end FileTree

end DeclGen.CommandLine
