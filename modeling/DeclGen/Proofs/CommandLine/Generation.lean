import DeclGen.Proofs.CommandLine.Paths
import DeclGen.Proofs.CommandLine.Recording

/-!
# Generating from trees that look alike

Where a command finds the same settings and the same source files in two trees, it generates the
same from both, shows the same diagnostics and reads the same files.

## Main definitions

* `Command.MayRead`: the files that a command may read
* `Command.FindsSame`: what a command looks at is the same in two trees

## Main statements

* `Session.repeats_generate`: the same is generated
-/

namespace DeclGen.CommandLine

/-- The path is that of something in a directory with the name of a source. -/
def IsSourceFile (path : String) : Prop :=
  ∃ front name, path = joinPath front name ∧ isSourceName name = true

/-- The files that a command with directories for inputs may read. -/
inductive Command.MayRead (command : Command) : String → Prop where
  | settings {path : String} (h : path ∈ command.config) : MayRead command path
  | defaultSettings : MayRead command defaultSettingsPath
  | source {path : String} (h : IsSourceFile path) : MayRead command path

/-- Both trees have a directory at the path, with the same source files. -/
def SameDirectory (t t' : FileTree ByteArray) (path : String) : Prop :=
  ∃ entries entries', t.find? path = some (.directory entries) ∧
    t'.find? path = some (.directory entries') ∧
    (FileTree.directory entries').sources path = (FileTree.directory entries).sources path ∧
    ∀ p ∈ (FileTree.directory entries).sources path, IsSourceFile p

/-- What a command looks at is the same in both trees, and it is allowed to read it. -/
structure Command.FindsSame (command : Command) (allowed : Access → Prop)
    (t t' : FileTree ByteArray) : Prop where
  settings : (∃ content, t'.find? defaultSettingsPath = some (.file content)) ↔
    ∃ content, t.find? defaultSettingsPath = some (.file content)
  inputs : ∀ path ∈ command.inputs, SameDirectory t t' path
  read : ∀ path, command.MayRead path → ∀ content, t.read path = .ok content →
    t'.read path = .ok content ∧ allowed (.read path (.ok content))

namespace Session

variable {t t' : FileTree ByteArray} {allowed : Access → Prop} {command : Command}

theorem repeats_settingsIn (limit : Option LogLevel) {path : String}
    (hread : ∀ content, t.read path = .ok content →
      t'.read path = .ok content ∧ allowed (.read path (.ok content))) :
    Repeats t t' allowed (settingsIn limit path) fun _ => True := by
  refine (Repeats.readText (fun _ => rfl) hread).bind fun text _ => ?_
  refine (Repeats.log _ _).bind fun _ _ => ?_
  split
  · exact .pure trivial
  · exact .throw _

/-- The settings are the same from both trees, or are refused for the same reason. -/
theorem repeats_loadSettings (h : command.FindsSame allowed t t') (limit : Option LogLevel) :
    Repeats t t' allowed (loadSettings limit command) fun _ => True := by
  rw [loadSettings]
  cases hconfig : command.config with
  | some path =>
    exact (repeats_settingsIn limit (h.read path (.settings hconfig))).bind fun _ _ => .pure trivial
  | none =>
    have hfile := (repeats_settingsIn limit (h.read _ .defaultSettings)).bind (Q := fun _ => True)
      fun s _ => Repeats.pure (b := restrict command.only s) trivial
    have hsettings := h.settings
    refine Repeats.tree?_bind ?_ ?_
    · generalize t.find? defaultSettingsPath = found at hsettings ⊢
      generalize t'.find? defaultSettingsPath = found' at hsettings ⊢
      rcases found with _ | ⟨content⟩ | ⟨entries⟩ <;>
        rcases found' with _ | ⟨content'⟩ | ⟨entries'⟩ <;> simp [FileTree.shape] at hsettings ⊢
    · rcases t.find? defaultSettingsPath with _ | ⟨content⟩ | ⟨entries⟩
      · exact .pure trivial
      · exact hfile
      · exact .pure trivial

/-- The inputs stand for the same source files. -/
theorem repeats_collect {inputs : List String} (h : ∀ path ∈ inputs, SameDirectory t t' path) :
    Repeats t t' allowed (collect inputs) fun paths => ∀ path ∈ paths, IsSourceFile path := by
  induction inputs with
  | nil => exact .pure (by simp)
  | cons input inputs ih =>
    obtain ⟨⟨entries, entries', hfind, hfind', hsources, hnames⟩, h⟩ := List.forall_mem_cons.mp h
    have hshape : (FileTree.directory (FileTree.shapes entries')).sources input =
        (FileTree.directory (FileTree.shapes entries)).sources input := by
      have hshape := FileTree.sources_shape (.directory entries) input
      have hshape' := FileTree.sources_shape (.directory entries') input
      rw [FileTree.shape] at hshape hshape'
      rw [hshape, hshape', hsources]
    rw [collect]
    refine Repeats.tree?_bind ?_ ?_
    · rw [hfind, hfind']
      dsimp only [Option.map_some, FileTree.shape]
      rw [hshape]
    · rw [hfind]
      refine (ih h).bind fun paths hpaths => .pure fun path hpath => ?_
      rcases List.mem_append.mp hpath with hpath | hpath
      · refine hnames path ?_
        rwa [← FileTree.sources_shape, FileTree.shape]
      · exact hpaths path hpath

/-- Files with the same contents are read. -/
theorem repeats_readAll {paths : List String}
    (h : ∀ path ∈ paths, ∀ content, t.read path = .ok content →
      t'.read path = .ok content ∧ allowed (.read path (.ok content))) :
    Repeats t t' allowed (readAll paths) fun _ => True := by
  induction paths with
  | nil => exact .pure trivial
  | cons path paths ih =>
    obtain ⟨hpath, h⟩ := List.forall_mem_cons.mp h
    refine (Repeats.readText (fun _ => rfl) hpath).bind fun text _ => ?_
    exact (ih h).bind fun files _ => .pure trivial

/-- Whatever is read, the report is that of the generators on some files. -/
theorem repeats_generate (h : command.FindsSame allowed t t') (limit : Option LogLevel)
    (inColor : Bool) : Repeats t t' allowed (generate limit inColor command)
      fun report => ∃ settings files, report = .ofFiles settings files := by
  refine (repeats_loadSettings h limit).bind fun settings _ => ?_
  refine (repeats_collect h.inputs).bind fun paths hpaths => ?_
  refine (Repeats.log _ _).bind fun _ _ => ?_
  refine (repeats_readAll fun path hpath => h.read path (.source (hpaths path hpath))).bind
    fun files _ => ?_
  refine (Repeats.log _ _).bind fun _ _ => ?_
  refine (Repeats.logs _ _).bind fun _ _ => ?_
  exact (Repeats.complain _).bind fun _ _ => .pure ⟨settings, files, rfl⟩

end Session

end DeclGen.CommandLine
