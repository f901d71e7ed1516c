import DeclGen.CommandLine.FileTree
import Mathlib.Data.List.Basic

/-!
# Changes to trees of files

What a tree holds at a path after something was put into it: the new thing at its place, and what
was there before everywhere else. From this follows what a tree keeps when files are written and
directories are created.

## Main definitions

* `FileTree.WellFormed`: the entries of a directory have different names
* `FileTree.kind?`: what stands at a path, a file with its content or a directory
* `FileTree.Grows`: what a tree keeps when files at some paths are written

## Main statements

* `FileTree.kind?_put`: what stands at a path after something was put into a directory
* `FileTree.put_same`: a file that is put in its own place changes nothing
-/

namespace DeclGen.CommandLine

namespace FileTree

variable {α : Type}

/-- Nowhere in the tree have two entries of a directory the same name. -/
inductive WellFormed : FileTree α → Prop where
  | file (content : α) : WellFormed (file content)
  | directory {entries : List (String × FileTree α)} (hnames : (entries.map (·.1)).Nodup)
      (hentries : ∀ e ∈ entries, e.2.WellFormed) : WellFormed (directory entries)

theorem WellFormed.nil : (FileTree.directory ([] : List (String × FileTree α))).WellFormed :=
  .directory List.nodup_nil fun _ he => nomatch he

/-- A file with its content, or a directory. -/
inductive Kind (α : Type) where
  | file (content : α)
  | directory
deriving DecidableEq

def kind : FileTree α → Kind α
  | file content => .file content
  | directory _ => .directory

@[simp] theorem kind_directory (entries : List (String × FileTree α)) :
    (directory entries).kind = .directory := rfl

def kind? (t : FileTree α) (names : List String) : Option (Kind α) := (t.lookup? names).map kind

variable {t t' t'' new : FileTree α} {entries : List (String × FileTree α)}
  {names path : List String} {name : String} {content : α}

/-! ## Lookup -/

@[simp] theorem lookup?_nil (t : FileTree α) : t.lookup? [] = some t := by
  cases t <;> rfl

@[simp] theorem lookup?_directory_cons (entries : List (String × FileTree α)) (name : String)
    (names : List String) :
    (directory entries).lookup? (name :: names) = (entries.lookup name).bind (lookup? names) := rfl

@[simp] theorem lookup?_file_cons (content : α) (name : String) (names : List String) :
    (file content).lookup? (name :: names) = none := rfl

theorem lookup?_append (t : FileTree α) (names path : List String) :
    t.lookup? (names ++ path) = (t.lookup? names).bind (lookup? path) := by
  induction names generalizing t with
  | nil => simp
  | cons name names ih =>
    cases t with
    | file content => rfl
    | directory entries => cases h : entries.lookup name <;> simp [h, ih]

/-- What is at a path that ends in a directory, from what is in the directory. -/
theorem lookup?_concat (hdir : t.lookup? names = some (directory entries)) (name : String) :
    t.lookup? (names ++ [name]) = entries.lookup name := by
  rw [lookup?_append, hdir]
  cases h : entries.lookup name <;> simp [h]

theorem kind?_eq_directory :
    t.kind? names = some .directory ↔ ∃ entries, t.lookup? names = some (directory entries) := by
  rw [kind?, Option.map_eq_some_iff]
  constructor
  · rintro ⟨u, hu, hkind⟩
    cases u with
    | file content => cases hkind
    | directory entries => exact ⟨entries, hu⟩
  · rintro ⟨entries, h⟩
    exact ⟨_, h, rfl⟩

theorem kind?_eq_file :
    t.kind? names = some (.file content) ↔ t.lookup? names = some (file content) := by
  rw [kind?, Option.map_eq_some_iff]
  constructor
  · rintro ⟨u, hu, hkind⟩
    cases u with
    | file content' =>
      cases hkind
      exact hu
    | directory entries => cases hkind
  · intro h
    exact ⟨_, h, rfl⟩

/-! ## Entries of a directory -/

theorem lookup_cons (e : String × FileTree α) (entries : List (String × FileTree α))
    (name : String) :
    (e :: entries).lookup name = if name = e.1 then some e.2 else entries.lookup name := by
  rw [List.lookup_cons]
  split <;> simp_all

theorem lookup_replace (name : String) (new : FileTree α) (entries : List (String × FileTree α))
    (other : String) :
    (entries.map fun e => if e.1 == name then (name, new) else e).lookup other =
      if other = name then (entries.lookup name).map fun _ => new else entries.lookup other := by
  induction entries with
  | nil => simp
  | cons e entries ih =>
    rw [List.map_cons, lookup_cons, lookup_cons, lookup_cons, ih]
    grind

theorem map_fst_replace (name : String) (new : FileTree α)
    (entries : List (String × FileTree α)) :
    (entries.map fun e => if e.1 == name then (name, new) else e).map (·.1) =
      entries.map (·.1) := by
  rw [List.map_map]
  refine List.map_congr_left fun e _ => ?_
  by_cases h : e.1 = name <;> simp [h]

/-- An entry that is replaced by itself. -/
theorem replace_same (hnames : (entries.map (·.1)).Nodup) (h : entries.lookup name = some t) :
    (entries.map fun e => if e.1 == name then (name, t) else e) = entries := by
  induction entries with
  | nil => rfl
  | cons e entries ih =>
    rw [List.map_cons, List.nodup_cons] at hnames
    rw [List.map_cons]
    by_cases he : e.1 = name
    · have hrest : ∀ e' ∈ entries, (if e'.1 == name then (name, t) else e') = e' := by
        intro e' he'
        have hne : e'.1 ≠ name := by
          rintro rfl
          exact hnames.1 (he ▸ List.mem_map_of_mem he')
        simp [hne]
      have hsnd : e.2 = t := by simpa [lookup_cons, he] using h
      rw [List.map_congr_left hrest, List.map_id', if_pos (by simpa using he), ← he, ← hsnd]
    · have hlookup : entries.lookup name = some t := by
        rwa [lookup_cons, if_neg fun heq => he heq.symm] at h
      rw [if_neg (by simpa using he), ih hnames.2 hlookup]

theorem mem_of_lookup (h : entries.lookup name = some t) : (name, t) ∈ entries := by
  obtain ⟨before, after, rfl, -⟩ := List.lookup_eq_some_iff.mp h
  simp

theorem lookup_of_mem (hnames : (entries.map (·.1)).Nodup) (h : (name, t) ∈ entries) :
    entries.lookup name = some t := by
  induction entries with
  | nil => cases h
  | cons e entries ih =>
    rw [List.map_cons, List.nodup_cons] at hnames
    rw [lookup_cons]
    rcases List.mem_cons.mp h with rfl | h
    · exact if_pos rfl
    · have hne : name ≠ e.1 := by
        rintro rfl
        exact hnames.1 (List.mem_map_of_mem (f := (·.1)) h)
      rw [if_neg hne, ih hnames.2 h]

theorem name_notMem_of_lookup (h : entries.lookup name = none) : name ∉ entries.map (·.1) := by
  intro hmem
  obtain ⟨e, he, rfl⟩ := List.mem_map.mp hmem
  simpa using List.lookup_eq_none_iff.mp h e he

/-! ## Putting something into a tree -/

/-- What is below a name after something was put below the same or another one. -/
theorem lookup?_put_cons (other : String) (rest : List String) :
    ((directory entries).put (name :: names) new).lookup? (other :: rest) =
      if other = name then
        (((entries.lookup name).getD (directory [])).put names new).lookup? rest
      else (directory entries).lookup? (other :: rest) := by
  rw [put]
  split
  next u hu =>
    rw [lookup?_directory_cons, lookup_replace, hu]
    by_cases hname : other = name <;> simp [hname]
  next hu =>
    rw [lookup?_directory_cons, List.lookup_append]
    by_cases hname : other = name
    · simp [hname, hu]
    · simp [hname, lookup_cons]

@[simp] theorem put_nil (t new : FileTree α) : t.put [] new = new := by
  cases t <;> rfl

@[simp] theorem kind_put_cons (entries : List (String × FileTree α)) (name : String)
    (names : List String) (new : FileTree α) :
    ((directory entries).put (name :: names) new).kind = .directory := by
  rw [put]
  split <;> rfl

/-- Where something was put right below a directory, in a place that no directory has, it stands
there, and everything else is as it was. -/
theorem kind?_put_singleton (hplace : (directory entries).kind? [name] ≠ some .directory)
    (hnew : ∀ other rest, new.lookup? (other :: rest) = none) (path : List String) :
    ((directory entries).put [name] new).kind? path =
      if path = [name] then some new.kind else (directory entries).kind? path := by
  cases path with
  | nil => simp [kind?, kind_put_cons, kind_directory]
  | cons other rest =>
    rw [kind?, lookup?_put_cons, put_nil]
    by_cases hother : other = name
    · subst hother
      cases rest with
      | nil => simp
      | cons other' rest =>
        have hnone : (directory entries).lookup? (other :: other' :: rest) = none := by
          rw [lookup?_directory_cons]
          cases hu : entries.lookup other with
          | none => rfl
          | some u =>
            cases u with
            | file content => rfl
            | directory es => simp [kind?, hu, kind] at hplace
        rw [if_pos rfl, hnew, if_neg (by simp), kind?, hnone]
    · rw [if_neg hother, if_neg (by simp [hother]), kind?]

/-- Where something was put into a directory, in a place that no directory has, it stands there, and
everything else is as it was. -/
theorem kind?_put (hdir : t.kind? names = some .directory)
    (hplace : t.kind? (names ++ [name]) ≠ some .directory)
    (hnew : ∀ other rest, new.lookup? (other :: rest) = none) (path : List String) :
    (t.put (names ++ [name]) new).kind? path =
      if path = names ++ [name] then some new.kind else t.kind? path := by
  induction names generalizing t path with
  | nil =>
    obtain ⟨entries, hentries⟩ := kind?_eq_directory.mp hdir
    obtain rfl : t = directory entries := by simpa using hentries
    exact kind?_put_singleton hplace hnew path
  | cons first names ih =>
    cases t with
    | file content => simp [kind?] at hdir
    | directory es =>
      cases hu : es.lookup first with
      | none => simp [kind?, hu] at hdir
      | some u =>
        have hlookup (path : List String) :
            (directory es).kind? (first :: path) = u.kind? path := by simp [kind?, hu]
        rw [List.cons_append, hlookup] at hplace
        rw [hlookup] at hdir
        cases path with
        | nil => simp [kind?, kind_put_cons, kind_directory]
        | cons other rest =>
          by_cases hother : other = first
          · subst hother
            have hinside : ((directory es).put (other :: (names ++ [name])) new).kind?
                (other :: rest) = (u.put (names ++ [name]) new).kind? rest := by
              rw [kind?, lookup?_put_cons, if_pos rfl, hu, Option.getD_some, kind?]
            rw [List.cons_append, hinside, ih hdir hplace rest, hlookup]
            simp
          · rw [List.cons_append, kind?, lookup?_put_cons, if_neg hother, if_neg (by simp [hother]),
              kind?]

/-- What is put in the place where it stands already changes nothing. -/
theorem put_same (ht : t.WellFormed) (h : t.lookup? names = some new) : t.put names new = t := by
  induction ht generalizing names with
  | file content =>
    cases names with
    | nil => simpa using h.symm
    | cons name names => cases h
  | @directory entries hnames hentries ih =>
    cases names with
    | nil => simpa using h.symm
    | cons name names =>
      cases hu : entries.lookup name with
      | none => simp [hu] at h
      | some u =>
        have hinside : u.put names new = u := ih _ (mem_of_lookup hu) (by simpa [hu] using h)
        rw [put, hu]
        dsimp only
        rw [hinside, replace_same hnames hu]

theorem WellFormed.put (ht : t.WellFormed) (hnew : new.WellFormed) (names : List String) :
    (t.put names new).WellFormed := by
  induction names generalizing t with
  | nil => simpa using hnew
  | cons name names ih =>
    cases ht with
    | file content => exact .file content
    | @directory entries hnames hentries =>
      rw [FileTree.put]
      split
      next u hu =>
        refine .directory (by rwa [map_fst_replace]) fun e he => ?_
        obtain ⟨e', he', rfl⟩ := List.mem_map.mp he
        split
        · exact ih (hentries _ (mem_of_lookup hu))
        · exact hentries e' he'
      next hu =>
        refine .directory ?_ fun e he => ?_
        · have hname := name_notMem_of_lookup hu
          rw [List.map_append]
          exact List.nodup_append.mpr ⟨hnames, by simp, by grind⟩
        · rcases List.mem_append.mp he with he | he
          · exact hentries e he
          · obtain rfl := List.mem_singleton.mp he
            exact ih .nil

/-! ## Growing trees -/

/-- The tree `t'` has everything that `t` has, and but for the files at the given paths just the
same files; there may be more directories. -/
structure Grows (written : List String → Prop) (t t' : FileTree α) : Prop where
  directory : ∀ {names}, t.kind? names = some .directory → t'.kind? names = some .directory
  file : ∀ {names content}, t.kind? names = some (.file content) →
    ∃ content', t'.kind? names = some (.file content')
  same : ∀ {names content}, ¬ written names →
    (t'.kind? names = some (.file content) ↔ t.kind? names = some (.file content))

namespace Grows

variable {written written' : List String → Prop}

theorem refl (written : List String → Prop) (t : FileTree α) : Grows written t t :=
  ⟨id, fun h => ⟨_, h⟩, fun _ => Iff.rfl⟩

theorem trans (h : Grows written t t') (h' : Grows written t' t'') : Grows written t t'' where
  directory hdir := h'.directory (h.directory hdir)
  file hfile := by
    obtain ⟨content', hfile'⟩ := h.file hfile
    exact h'.file hfile'
  same hout := (h'.same hout).trans (h.same hout)

theorem mono (h : Grows written t t') (himp : ∀ path, written path → written' path) :
    Grows written' t t' :=
  ⟨h.directory, h.file, fun hout => h.same fun hin => hout (himp _ hin)⟩

/-- Whatever is there stays there in some form. -/
theorem isSome (h : Grows written t t') (hsome : (t.lookup? names).isSome) :
    (t'.lookup? names).isSome := by
  obtain ⟨u, hu⟩ := Option.isSome_iff_exists.mp hsome
  cases u with
  | file content =>
    obtain ⟨content', hfile⟩ := h.file (kind?_eq_file.mpr hu)
    simp [kind?_eq_file.mp hfile]
  | directory entries =>
    obtain ⟨entries', hdir⟩ := kind?_eq_directory.mp (h.directory (kind?_eq_directory.mpr ⟨_, hu⟩))
    simp [hdir]

/-- A file is written into a directory, in a place that no directory has. -/
theorem put_file (hdir : t.kind? names = some .directory)
    (hplace : t.kind? (names ++ [name]) ≠ some .directory) (content : α) :
    Grows (· = names ++ [name]) t (t.put (names ++ [name]) (.file content)) := by
  have hput (path : List String) : (t.put (names ++ [name]) (.file content)).kind? path =
      if path = names ++ [name] then some (.file content) else t.kind? path :=
    kind?_put hdir hplace (fun _ _ => rfl) path
  refine ⟨fun {path} h => ?_, fun {path c} h => ?_, fun {path c} hout => ?_⟩
  · rw [hput, if_neg (by rintro rfl; exact hplace h), h]
  · rw [hput]
    split
    next => exact ⟨content, rfl⟩
    next => exact ⟨c, h⟩
  · rw [hput, if_neg hout]

/-- A directory is created in a directory, in a place where nothing is. -/
theorem put_directory (hdir : t.kind? names = some .directory)
    (hplace : t.kind? (names ++ [name]) = none) :
    Grows (fun _ => False) t (t.put (names ++ [name]) (.directory [])) := by
  have hempty : t.kind? (names ++ [name]) ≠ some .directory := by simp [hplace]
  have hput (path : List String) : (t.put (names ++ [name]) (.directory [])).kind? path =
      if path = names ++ [name] then some .directory else t.kind? path :=
    kind?_put hdir hempty (fun _ _ => rfl) path
  have hold {path : List String} {k : Kind α} (h : t.kind? path = some k) :
      path ≠ names ++ [name] := by
    rintro rfl
    simp [hplace] at h
  refine ⟨fun {path} h => ?_, fun {path c} h => ⟨c, ?_⟩, fun {path c} _ => ?_⟩
  · rw [hput, if_neg (hold h), h]
  · rw [hput, if_neg (hold h), h]
  · rw [hput]
    split
    next heq => simp [heq, hplace]
    next => rfl

end Grows

end FileTree

end DeclGen.CommandLine
