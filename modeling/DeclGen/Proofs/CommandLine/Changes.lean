import DeclGen.Proofs.CommandLine.Paths
import DeclGen.Publication

/-!
# Directories and files that are written

A directory is created with those around it, and units are written to it. The tree only grows by
this, and doing the same again from the tree that is left changes nothing.

## Main definitions

* `FileTree.writeUnits`: writes units to a directory, one after the other

## Main statements

* `FileTree.makeDirectories_again`: directories that were created are there
* `FileTree.writeUnits_again`: units that were written are there
-/

namespace DeclGen.CommandLine

namespace FileTree

variable {α : Type} {t t' t'' : FileTree α} {written : List String → Prop}
  {names steps : List String} {name directory : String} {content : α}

theorem isDirectoryAt_iff : t.isDirectoryAt steps = true ↔
    ∃ names, t.resolve [] steps = .ok names ∧ t.kind? names = some .directory := by
  rw [isDirectoryAt]
  cases hnames : t.resolve [] steps with
  | error fault => simp
  | ok names =>
    simp only [Option.any_eq_true, Except.ok.injEq, exists_eq_left', kind?_eq_directory]
    constructor
    · rintro ⟨u, hu, hdir⟩
      cases u with
      | file content => cases hdir
      | directory entries => exact ⟨entries, hu⟩
    · rintro ⟨entries, hu⟩
      exact ⟨_, hu, rfl⟩

theorem Grows.isDirectoryAt (h : Grows written t t') (hdir : t.isDirectoryAt steps = true) :
    t'.isDirectoryAt steps = true := by
  obtain ⟨names, hnames, hkind⟩ := isDirectoryAt_iff.mp hdir
  exact isDirectoryAt_iff.mpr ⟨names, h.resolve hnames, h.directory hkind⟩

/-! ## Creating directories -/

/-- A directory that is created is new in a directory that was there. -/
theorem exists_of_makeDirectory (h : t.makeDirectory steps = .ok t') :
    ∃ front name names, steps = front ++ [name] ∧ IsPlainStep name ∧
      t.resolve [] front = .ok names ∧ t.kind? names = some .directory ∧
      t.kind? (names ++ [name]) = none ∧ t' = t.put (names ++ [name]) (.directory []) := by
  rw [makeDirectory] at h
  split at h
  next => cases h
  next fault hsteps =>
    split at h
    next names name hfront hlast =>
      obtain ⟨front, rfl⟩ := List.getLast?_eq_some_iff.mp hlast
      rw [List.dropLast_concat] at hfront
      split at h
      next => cases h
      next hname =>
        have hplain : IsPlainStep name := by simpa [IsPlainStep] using hname
        split at h
        next hdir =>
          cases h
          have hkind : t.kind? names = some .directory := by
            obtain ⟨names', hnames', hkind⟩ :=
              isDirectoryAt_iff.mp (show t.isDirectoryAt front = true by
                rwa [isDirectoryAt, hfront])
            rw [hfront] at hnames'
            cases hnames'
            exact hkind
          refine ⟨front, name, names, rfl, hplain, hfront, hkind, ?_, rfl⟩
          have hstep : t.resolve names [name] = .error fault := by
            rwa [resolve_append, hfront] at hsteps
          rw [resolve_plain hkind hplain] at hstep
          split at hstep
          next => cases hstep
          next hnone => exact Option.not_isSome_iff_eq_none.mp hnone
        next => cases h
    next => cases h
    next => cases h

theorem grows_of_makeDirectory (h : t.makeDirectory steps = .ok t') :
    Grows (fun _ => False) t t' := by
  obtain ⟨front, name, names, -, -, -, hdir, hplace, rfl⟩ := exists_of_makeDirectory h
  exact Grows.put_directory hdir hplace

theorem WellFormed.makeDirectory (ht : t.WellFormed) (h : t.makeDirectory steps = .ok t') :
    t'.WellFormed := by
  obtain ⟨front, name, names, -, -, -, -, -, rfl⟩ := exists_of_makeDirectory h
  exact ht.put .nil _

theorem isDirectoryAt_of_makeDirectory (h : t.makeDirectory steps = .ok t') :
    t'.isDirectoryAt steps = true := by
  have hgrows := grows_of_makeDirectory h
  obtain ⟨front, name, names, rfl, hplain, hfront, hdir, hplace, rfl⟩ := exists_of_makeDirectory h
  have hplace' : t.kind? (names ++ [name]) ≠ some .directory := by simp [hplace]
  have hnew : (t.put (names ++ [name]) (.directory [])).kind? (names ++ [name]) =
      some .directory := by
    rw [kind?_put hdir hplace' (fun _ _ => rfl), if_pos rfl]
    rfl
  refine isDirectoryAt_iff.mpr ⟨names ++ [name], ?_, hnew⟩
  rw [resolve_append, hgrows.resolve hfront]
  change FileTree.resolve _ names [name] = _
  rw [resolve_plain (hgrows.directory hdir) hplain, hnew]
  rfl

/-- What creating directories leaves. -/
structure Created (t : FileTree α) (steps : List String) (t' : FileTree α) : Prop where
  grows : Grows (fun _ => False) t t'
  wellFormed : t.WellFormed → t'.WellFormed
  isDirectoryAt : steps ≠ [] → t'.isDirectoryAt steps = true

theorem created_of_makeDirectory (h : t.makeDirectory steps = .ok t') : Created t steps t' :=
  ⟨grows_of_makeDirectory h, fun ht => ht.makeDirectory h,
    fun _ => isDirectoryAt_of_makeDirectory h⟩

theorem created_of_makeDirectories (h : t.makeDirectories steps = .ok t') :
    Created t steps t' := by
  fun_induction makeDirectories t steps generalizing t' with
  | case1 =>
    cases h
    exact ⟨.refl _ _, id, fun hne => absurd rfl hne⟩
  | case2 steps hne t₁ hmake =>
    cases h
    exact created_of_makeDirectory hmake
  | case4 steps hne hmissing t₁ haround t₂ hmake ih =>
    cases h
    have hbefore := ih haround
    have hafter := created_of_makeDirectory hmake
    exact ⟨hbefore.grows.trans hafter.grows, fun ht => hafter.wellFormed (hbefore.wellFormed ht),
      hafter.isDirectoryAt⟩
  | case5 steps hne hmissing t₁ haround fault hmake hdir ih =>
    cases h
    have hbefore := ih haround
    exact ⟨hbefore.grows, hbefore.wellFormed, fun _ => hdir⟩
  | case7 steps hne fault hfault hmake hdir =>
    cases h
    exact ⟨.refl _ _, id, fun _ => hdir⟩
  | case3 | case6 | case8 => cases h

/-- Directories that were created are still there in a tree that has grown since. -/
theorem makeDirectories_again (h : t.makeDirectories steps = .ok t')
    (hgrows : Grows written t' t'') : t''.makeDirectories steps = .ok t'' := by
  rw [makeDirectories]
  split
  next => rfl
  next hne =>
    have hdir := hgrows.isDirectoryAt ((created_of_makeDirectories h).isDirectoryAt hne)
    obtain ⟨names, hnames, -⟩ := isDirectoryAt_iff.mp hdir
    have hexists : t''.makeDirectory steps = .error .alreadyExists := by
      rw [makeDirectory, hnames]
    rw [hexists]
    dsimp only
    rw [if_pos hdir]

/-! ## Writing files -/

/-- A file is written into a directory that is there. -/
theorem exists_of_write (hname : pathParts name = [name])
    (h : t.write (joinPath directory name) content = .ok t') :
    ∃ names, t.resolve [] (pathParts directory) = .ok names ∧ t.kind? names = some .directory ∧
      t.kind? (names ++ [name]) ≠ some .directory ∧
      t' = t.put (names ++ [name]) (.file content) := by
  rw [write, pathParts_joinPath, hname] at h
  rw [List.dropLast_concat, List.getLast?_concat] at h
  cases hnames : t.resolve [] (pathParts directory) with
  | error fault =>
    rw [hnames] at h
    cases h
  | ok names =>
    rw [hnames] at h
    dsimp only at h
    split at h
    next => cases h
    next entries hdir hplace =>
      cases h
      refine ⟨names, rfl, kind?_eq_directory.mpr ⟨_, hdir⟩, fun hkind => ?_, rfl⟩
      obtain ⟨entries', hentries'⟩ := kind?_eq_directory.mp hkind
      exact hplace _ hentries'
    next => cases h

/-- A file is written once more with the content that it has. -/
theorem write_again (ht : t.WellFormed) (hname : pathParts name = [name])
    (hnames : t.resolve [] (pathParts directory) = .ok names)
    (hdir : t.kind? names = some .directory)
    (hfile : t.kind? (names ++ [name]) = some (.file content)) :
    t.write (joinPath directory name) content = .ok t := by
  obtain ⟨entries, hentries⟩ := kind?_eq_directory.mp hdir
  have hlookup := kind?_eq_file.mp hfile
  rw [write, pathParts_joinPath, hname, List.dropLast_concat, List.getLast?_concat, hnames]
  dsimp only
  rw [hentries, hlookup]
  dsimp only
  rw [put_same ht hlookup]

/-- Two changes succeed one after the other if both do. -/
theorem exists_of_bind_ok {change : Except FileFault (FileTree α)}
    {change' : FileTree α → Except FileFault (FileTree α)} (h : change.bind change' = .ok t) :
    ∃ t₁, change = .ok t₁ ∧ change' t₁ = .ok t := by
  cases change with
  | error fault => cases h
  | ok t₁ => exact ⟨t₁, rfl, h⟩

def writeUnits (directory : String) :
    List PublishedUnit → FileTree ByteArray → Except FileFault (FileTree ByteArray)
  | [], t => .ok t
  | u :: us, t => (t.write (joinPath directory u.hint) u.text.toUTF8).bind (writeUnits directory us)

/-- The units stand in the directory at a path of names. -/
structure Holds (names : List String) (us : List PublishedUnit) (t : FileTree ByteArray) :
    Prop where
  directory : t.kind? names = some .directory
  files : ∀ u ∈ us, t.kind? (names ++ [u.hint]) = some (.file u.text.toUTF8)

/-- Units with different names are all there in the end, and only they were written. -/
theorem writeUnits_spec {t t' : FileTree ByteArray} {us : List PublishedUnit} (ht : t.WellFormed)
    (hhints : (us.map (·.hint)).Nodup) (hnames : ∀ u ∈ us, pathParts u.hint = [u.hint])
    (hdir : t.kind? names = some .directory)
    (hresolve : t.resolve [] (pathParts directory) = .ok names)
    (h : writeUnits directory us t = .ok t') :
    t'.WellFormed ∧ Grows (fun path => ∃ u ∈ us, path = names ++ [u.hint]) t t' ∧
      t'.Holds names us := by
  induction us generalizing t with
  | nil =>
    cases h
    exact ⟨ht, .refl _ _, hdir, by rintro u ⟨⟩⟩
  | cons u us ih =>
    obtain ⟨hname, hnames⟩ := List.forall_mem_cons.mp hnames
    rw [List.map_cons, List.nodup_cons] at hhints
    obtain ⟨t₁, hwrite, h⟩ := exists_of_bind_ok h
    obtain ⟨names', hresolve', -, hplace, rfl⟩ := exists_of_write hname hwrite
    obtain rfl : names = names' := by simpa [hresolve] using hresolve'
    have hput := Grows.put_file hdir hplace u.text.toUTF8
    obtain ⟨hwell, hgrows, hholds⟩ :=
      ih (ht.put (.file _) _) hhints.2 hnames (hput.directory hdir) (hput.resolve hresolve) h
    have hout : ¬ ∃ u' ∈ us, names ++ [u.hint] = names ++ [u'.hint] := by
      rintro ⟨u', hu', heq⟩
      have heq : u.hint = u'.hint := by simpa using heq
      exact hhints.1 (heq ▸ List.mem_map_of_mem hu')
    have hfirst : (t.put (names ++ [u.hint]) (.file u.text.toUTF8)).kind?
        (names ++ [u.hint]) = some (.file u.text.toUTF8) := by
      rw [kind?_put hdir hplace (fun _ _ => rfl), if_pos rfl]
      rfl
    refine ⟨hwell, ?_, hholds.directory, List.forall_mem_cons.mpr ⟨?_, hholds.files⟩⟩
    · exact (hput.mono fun path hpath => ⟨u, by simp, hpath⟩).trans
        (hgrows.mono fun path ⟨u', hu', hpath⟩ => ⟨u', by simp [hu'], hpath⟩)
    · exact (hgrows.same hout).mpr hfirst

/-- Units that a directory already holds are written without any change to the tree. -/
theorem writeUnits_again {t : FileTree ByteArray} {us : List PublishedUnit} (ht : t.WellFormed)
    (hnames : ∀ u ∈ us, pathParts u.hint = [u.hint])
    (hresolve : t.resolve [] (pathParts directory) = .ok names) (hholds : t.Holds names us) :
    writeUnits directory us t = .ok t := by
  induction us with
  | nil => rfl
  | cons u us ih =>
    obtain ⟨hname, hnames⟩ := List.forall_mem_cons.mp hnames
    obtain ⟨hfile, hfiles⟩ := List.forall_mem_cons.mp hholds.files
    rw [writeUnits, write_again ht hname hresolve hholds.directory hfile]
    exact ih hnames ⟨hholds.directory, hfiles⟩

end FileTree

end DeclGen.CommandLine
