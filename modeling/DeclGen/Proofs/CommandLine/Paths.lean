import DeclGen.CommandLine.FileStore
import DeclGen.Proofs.CommandLine.Sources
import DeclGen.Proofs.Text.Split

/-!
# Paths in trees that grow

A path leads to the same place in a tree that has grown, so a file that is not written is read
alike, and a directory has the same source files if no source was written.

## Main statements

* `FileTree.Grows.resolve`: paths still lead to where they led
* `FileTree.Grows.read`: files that are not written are read alike
* `FileTree.Grows.find?_directory`: directories have the same source files
-/

namespace DeclGen

namespace CommandLine

open DeclGen.Text

/-! ## Parts of paths -/

theorem pathParts_of_notMem {name : String} (hslash : '/' ∉ name.toList) (hne : name ≠ "") :
    pathParts name = [name] := by
  have hempty : name.toList ≠ [] := by simpa using hne
  rw [pathParts, splitAt_of_notMem hslash]
  simp [hempty]

/-- The parts of the path of something in a directory. -/
theorem pathParts_joinPath (path name : String) :
    pathParts (joinPath path name) = pathParts path ++ pathParts name := by
  rw [joinPath]
  split
  next h =>
    obtain ⟨x, hx⟩ := List.getLast?_eq_some_iff.mp (by simpa using h)
    rw [pathParts, pathParts, pathParts, String.toList_append, hx, List.append_assoc,
      List.singleton_append, splitAt_append_sep, splitAt_append_sep]
    simp [splitAt]
  next =>
    have htext : (path ++ "/" ++ name).toList = path.toList ++ '/' :: name.toList := by simp
    rw [pathParts, htext, splitAt_append_sep, List.filter_append, List.map_append]
    rfl

theorem getLast?_joinPath (path : String) {name : String} {c : Char}
    (h : name.toList.getLast? = some c) : (joinPath path name).toList.getLast? = some c := by
  rw [joinPath]
  split <;> simp [List.getLast?_append, List.getLast?_cons, h]

/-- The steps to something in a directory, where its name does not end with a slash. -/
theorem pathSteps_joinPath (path : String) {name : String} {c : Char}
    (h : name.toList.getLast? = some c) (hc : c ≠ '/') :
    pathSteps (joinPath path name) = pathParts path ++ pathParts name := by
  rw [pathSteps, pathParts_joinPath, getLast?_joinPath path h]
  simp [hc]

theorem getLast?_of_suffix {s t : List Char} {c : Char} (h : t <:+ s) (hc : t.getLast? = some c) :
    s.getLast? = some c := by
  obtain ⟨x, rfl⟩ := h
  rw [List.getLast?_append, hc]
  rfl

theorem isSourceName_iff {name : String} : isSourceName name = true ↔
    ".cs".toList <:+ name.toList ∧ ¬ ".g.cs".toList <:+ name.toList := by
  rw [isSourceName, Bool.and_eq_true, Bool.not_eq_true', ← Bool.not_eq_true,
    List.isSuffixOf_iff_suffix, List.isSuffixOf_iff_suffix]

/-- The last part of the name of a source is the name of a source. -/
theorem exists_pathParts_of_isSourceName {name : String} (h : isSourceName name = true) :
    ∃ steps last, pathParts name = steps ++ [last] ∧ isSourceName last = true := by
  obtain ⟨ps, p, hsplit, hsuffix, hlast⟩ := exists_last_piece '/' name.toList
  obtain ⟨hcs, hgenerated⟩ := isSourceName_iff.mp h
  have hp : ".cs".toList <:+ p := hlast _ (by decide) hcs
  have hne : p ≠ [] := by
    rintro rfl
    simp at hp
  refine ⟨(ps.filter (!·.isEmpty)).map String.ofList, String.ofList p, ?_, ?_⟩
  · rw [pathParts, hsplit]
    simp [hne]
  · have hg : ¬ ".g.cs".toList <:+ p := fun hg => hgenerated (hg.trans hsuffix)
    rw [isSourceName_iff, String.toList_ofList (l := p)]
    exact ⟨hp, hg⟩

/-- The steps to a source file end with the name of a source. -/
theorem exists_pathSteps_of_isSourceName (path : String) {name : String}
    (h : isSourceName name = true) :
    ∃ steps last, pathSteps (joinPath path name) = steps ++ [last] ∧ isSourceName last = true := by
  obtain ⟨steps, last, hparts, hlast⟩ := exists_pathParts_of_isSourceName h
  have hend := getLast?_of_suffix (isSourceName_iff.mp h).1 (c := 's') (by decide)
  refine ⟨pathParts path ++ steps, last, ?_, hlast⟩
  rw [pathSteps_joinPath path hend (by decide), hparts, List.append_assoc]

/-- The step leads neither nowhere nor out of a directory. -/
def IsPlainStep (name : String) : Prop := name ≠ "." ∧ name ≠ ".."

theorem isPlainStep_of_suffix {name : String} (h : ".cs".toList <:+ name.toList) :
    IsPlainStep name := by
  constructor <;> rintro rfl <;> exact absurd h (by decide)

namespace FileTree

variable {α : Type} {t t' t'' : FileTree α} {written : List String → Prop}
  {here names steps : List String} {name : String} {content : α}

/-! ## Resolving steps -/

/-- One step of a path, by what stands at the place that was reached. -/
theorem resolve_cons (t : FileTree α) (here : List String) (step : String) (steps : List String) :
    t.resolve here (step :: steps) =
      match t.kind? here with
      | some .directory =>
        if step = "." then t.resolve here steps
        else if step = ".." then
          if here.isEmpty then .error .notFound else t.resolve here.dropLast steps
        else if (t.kind? (here ++ [step])).isSome then t.resolve (here ++ [step]) steps
        else .error .notFound
      | some (.file _) => .error .notADirectory
      | none => .error .notFound := by
  rw [resolve, kind?]
  cases hhere : t.lookup? here with
  | none => rfl
  | some u =>
    cases u with
    | file content => rfl
    | directory entries =>
      rw [kind?, Option.isSome_map, lookup?_concat hhere]
      rfl

/-- Steps one after the other. -/
theorem resolve_append (t : FileTree α) (here steps steps' : List String) :
    t.resolve here (steps ++ steps') = (t.resolve here steps).bind (t.resolve · steps') := by
  induction steps generalizing here with
  | nil => rfl
  | cons step steps ih =>
    rw [List.cons_append, resolve_cons, resolve_cons]
    split
    · split
      · exact ih here
      · split
        · split
          · rfl
          · exact ih _
        · split
          · exact ih _
          · rfl
    · rfl
    · rfl

/-- The step to something in a directory. -/
theorem resolve_plain (hdir : t.kind? here = some .directory) (hplain : IsPlainStep name) :
    t.resolve here [name] = if (t.kind? (here ++ [name])).isSome then .ok (here ++ [name])
      else .error .notFound := by
  rw [resolve_cons, hdir]
  dsimp only
  rw [if_neg hplain.1, if_neg hplain.2]
  rfl

/-- A path that ends with a name leads to something of this name in a directory. -/
theorem exists_of_resolve_concat (hplain : IsPlainStep name)
    (h : t.resolve here (steps ++ [name]) = .ok names) :
    ∃ front, t.resolve here steps = .ok front ∧ t.kind? front = some .directory ∧
      names = front ++ [name] := by
  rw [resolve_append] at h
  cases hfront : t.resolve here steps with
  | error fault =>
    rw [hfront] at h
    cases h
  | ok front =>
    rw [hfront] at h
    change t.resolve front [name] = .ok names at h
    have hdir : t.kind? front = some .directory := by
      rw [resolve_cons] at h
      split at h
      · assumption
      · cases h
      · cases h
    rw [resolve_plain hdir hplain] at h
    split at h
    · cases h
      exact ⟨front, rfl, hdir, rfl⟩
    · cases h

/-- Paths lead to where they led before the tree has grown. -/
theorem Grows.resolve (h : Grows written t t') (hsteps : t.resolve here steps = .ok names) :
    t'.resolve here steps = .ok names := by
  induction steps generalizing here with
  | nil => exact hsteps
  | cons step steps ih =>
    rw [resolve_cons] at hsteps
    split at hsteps
    next hdir =>
      rw [resolve_cons, h.directory hdir]
      dsimp only
      split at hsteps
      next hdot => rw [if_pos hdot, ih hsteps]
      next hdot =>
        rw [if_neg hdot]
        split at hsteps
        next hup =>
          rw [if_pos hup]
          split at hsteps
          next => cases hsteps
          next hinside => rw [if_neg hinside, ih hsteps]
        next hup =>
          rw [if_neg hup]
          split at hsteps
          next hsome =>
            have hsome' : (t'.kind? (here ++ [step])).isSome := by
              rw [kind?, Option.isSome_map] at hsome ⊢
              exact h.isSome hsome
            rw [if_pos hsome', ih hsteps]
          next => cases hsteps
    next => cases hsteps
    next => cases hsteps

/-! ## Reading -/

/-- A file can be read exactly where a relative path leads to one through directories. -/
theorem read_eq_ok {path : String} :
    t.read path = .ok content ↔ path.toList.head? ≠ some '/' ∧ ∃ names,
      t.resolve [] (pathSteps path) = .ok names ∧ t.kind? names = some (.file content) := by
  rw [read]
  by_cases hroot : path.toList.head? = some '/'
  · simp [hroot]
  · rw [if_neg (by simpa using hroot)]
    cases hnames : t.resolve [] (pathSteps path) with
    | error fault => simp
    | ok names =>
      cases hfile : t.lookup? names with
      | none => simp [kind?_eq_file, hfile]
      | some u => cases u <;> simp [kind?_eq_file, hfile, hroot]

/-- A file that is not written is read alike. -/
theorem Grows.read (h : Grows written t t') {path : String} (hread : t.read path = .ok content)
    (hout : ∀ names, t.resolve [] (pathSteps path) = .ok names → ¬ written names) :
    t'.read path = .ok content := by
  obtain ⟨hroot, names, hnames, hfile⟩ := read_eq_ok.mp hread
  exact read_eq_ok.mpr ⟨hroot, names, h.resolve hnames, (h.same (hout names hnames)).mpr hfile⟩

/-! ## What paths lead to -/

theorem WellFormed.of_lookup? (ht : t.WellFormed) {u : FileTree α} (h : t.lookup? names = some u) :
    u.WellFormed := by
  induction ht generalizing names with
  | file content =>
    cases names with
    | nil =>
      obtain rfl : FileTree.file content = u := by simpa using h
      exact .file content
    | cons name names => cases h
  | @directory entries hnames hentries ih =>
    cases names with
    | nil =>
      obtain rfl : FileTree.directory entries = u := by simpa using h
      exact .directory hnames hentries
    | cons name names =>
      obtain ⟨v, hv, hu⟩ := Option.bind_eq_some_iff.mp h
      exact ih _ (mem_of_lookup hv) hu

/-- A tree that has only grown by files that are no sources has the same source files. -/
theorem Grows.sameSources (h : Grows written t t')
    (hwritten : ∀ path, written path → ¬ IsSourcePath path) : SameSources t t' :=
  fun _ _ hsource => h.same fun hin => hwritten _ hin hsource

theorem find?_eq_some {path : String} {u : FileTree α} : t.find? path = some u ↔
    path.toList.head? ≠ some '/' ∧
      ∃ names, t.resolve [] (pathSteps path) = .ok names ∧ t.lookup? names = some u := by
  rw [find?]
  by_cases hroot : path.toList.head? = some '/'
  · simp [hroot]
  · rw [if_neg (by simpa using hroot)]
    cases t.resolve [] (pathSteps path) <;> simp [hroot]

theorem SameSources.of_lookup? (h : SameSources t t') {u u' : FileTree α}
    (hu : t.lookup? names = some u) (hu' : t'.lookup? names = some u') : SameSources u u' := by
  intro path content hsource
  have hbelow := h (names ++ path) content (hsource.append names)
  rwa [kind?, kind?, lookup?_append, lookup?_append, hu, hu'] at hbelow

/-- A directory is still there, with the same source files. -/
theorem Grows.find?_directory (h : Grows written t t') (ht : t.WellFormed) (ht' : t'.WellFormed)
    (hwritten : ∀ path, written path → ¬ IsSourcePath path) {path : String}
    {entries : List (String × FileTree α)} (hfind : t.find? path = some (.directory entries)) :
    ∃ entries', t'.find? path = some (.directory entries') ∧
      ∀ p, (FileTree.directory entries').sources p = (FileTree.directory entries).sources p := by
  obtain ⟨hroot, names, hnames, hlookup⟩ := find?_eq_some.mp hfind
  obtain ⟨entries', hlookup'⟩ :=
    kind?_eq_directory.mp (h.directory (kind?_eq_directory.mpr ⟨_, hlookup⟩))
  refine ⟨entries', find?_eq_some.mpr ⟨hroot, names, h.resolve hnames, hlookup'⟩, fun p => ?_⟩
  have hsame := (h.sameSources hwritten).of_lookup? hlookup hlookup'
  exact (sources_eq (ht.of_lookup? hlookup) (ht'.of_lookup? hlookup') hsame p).symm

end FileTree

end CommandLine

end DeclGen
