import DeclGen.Proofs.CommandLine.Delivery
import DeclGen.Proofs.CommandLine.Generation
import DeclGen.Proofs.CommandLine.PlainSessions

/-!
# Running a command again

A command that has been carried out on directories can be carried out again: the second run reads
the same files, writes the same units, prints the same and leaves the tree as it is. None of the
files that a run reads is written by it. The one thing that can get in the way is that the run
overwrites the file that its settings are read from.

## Main definitions

* `Command.runOn`: a recorded run on a tree of files
* `Recording.Wrote`: whether the file at a path was written

## Main statements

* `Command.runOn_again`: a second run is like the first
-/

namespace DeclGen.CommandLine

open FileTree

def Recording.Wrote (r : Recording) (path : String) : Prop :=
  ∃ names, Written r.tree r.accesses names ∧ r.tree.resolve [] (pathSteps path) = .ok names

/-- A file is read that is not among those at the given places. -/
def Access.ReadsOutside (t : FileTree ByteArray) (written : List String → Prop) : Access → Prop
  | .read path _ => ∃ names, t.resolve [] (pathSteps path) = .ok names ∧ ¬ written names
  | .write _ _ => False

def Command.runOn (command : Command) (inColor : Bool) (t : FileTree ByteArray) :
    Outcome × Recording :=
  StateT.run (Session.run command inColor : StateM Recording Outcome) ⟨t, []⟩

/-- A recorded run ends as a run on the tree alone does, and leaves the same tree. -/
theorem Command.runOn_plain (command : Command) (inColor : Bool) (t : FileTree ByteArray) :
    ((command.runOn inColor t).1, (command.runOn inColor t).2.tree) =
      StateT.run (Session.run command inColor : StateM (FileTree ByteArray) Outcome) t :=
  Session.records_run command inColor ⟨t, []⟩

/-! ## What a command finds after files were written -/

section Finding

variable {written : List String → Prop} {t t' : FileTree ByteArray} {command : Command}

theorem AllGenerated.not_written (h : AllGenerated written) {names front : List String}
    {name : String} (hnames : front ++ [name] = names)
    (hname : ¬ ".g.cs".toList <:+ name.toList) : ¬ written names := by
  intro hin
  subst hnames
  obtain ⟨front', name', heq, hgenerated⟩ := h _ hin
  obtain ⟨-, rfl⟩ := List.append_inj' heq rfl |>.imp_right List.singleton_inj.mp
  exact hname hgenerated

theorem AllGenerated.not_source (h : AllGenerated written) (names : List String)
    (hin : written names) : ¬ IsSourcePath names := by
  rintro ⟨last, hlast, hsource⟩
  obtain ⟨front, rfl⟩ := List.getLast?_eq_some_iff.mp hlast
  exact h.not_written rfl (isSourceName_iff.mp hsource).2 hin

theorem pathSteps_defaultSettingsPath :
    pathSteps defaultSettingsPath = [] ++ [defaultSettingsPath] := by
  decide +kernel

theorem isPlainStep_defaultSettingsPath : IsPlainStep defaultSettingsPath := by
  constructor <;> decide

theorem not_generated_defaultSettingsPath :
    ¬ ".g.cs".toList <:+ defaultSettingsPath.toList := by
  decide +kernel

/-- The default settings are those of a file in the root. -/
theorem find?_defaultSettingsPath {content : ByteArray} :
    t.find? defaultSettingsPath = some (.file content) ↔
      t.kind? [defaultSettingsPath] = some (.file content) := by
  rw [find?_eq_some, kind?_eq_file, pathSteps_defaultSettingsPath]
  constructor
  · rintro ⟨-, names, hnames, hfile⟩
    obtain ⟨front, hfront, -, rfl⟩ :=
      exists_of_resolve_concat isPlainStep_defaultSettingsPath hnames
    cases hfront
    exact hfile
  · intro hfile
    have hroot : t.kind? [] = some .directory := by
      cases t with
      | file content' => cases hfile
      | directory entries => rfl
    refine ⟨by decide +kernel, _, ?_, hfile⟩
    rw [List.nil_append, resolve_plain hroot isPlainStep_defaultSettingsPath, kind?,
      List.nil_append, hfile]
    rfl

/-- The files that a command may read are not among those that are written. -/
theorem not_written_of_mayRead (hgenerated : AllGenerated written)
    (hconfig : ∀ path ∈ command.config, ∀ names, t.resolve [] (pathSteps path) = .ok names →
      ¬ written names) {path : String} (hpath : command.MayRead path) {names : List String}
    (hnames : t.resolve [] (pathSteps path) = .ok names) : ¬ written names := by
  cases hpath with
  | settings hmem => exact hconfig path hmem names hnames
  | defaultSettings =>
    rw [pathSteps_defaultSettingsPath] at hnames
    obtain ⟨front, -, -, rfl⟩ := exists_of_resolve_concat isPlainStep_defaultSettingsPath hnames
    exact hgenerated.not_written rfl not_generated_defaultSettingsPath
  | source hsource =>
    obtain ⟨front, name, rfl, hname⟩ := hsource
    obtain ⟨steps, last, hsteps, hlast⟩ := exists_pathSteps_of_isSourceName front hname
    obtain ⟨hcs, hlast⟩ := isSourceName_iff.mp hlast
    rw [hsteps] at hnames
    obtain ⟨front', -, -, rfl⟩ := exists_of_resolve_concat (isPlainStep_of_suffix hcs) hnames
    exact hgenerated.not_written rfl hlast

/-- A command with directories for inputs finds the same after generated files were written. -/
theorem findsSame_of_grows (hgrows : Grows written t t') (ht : t.WellFormed) (ht' : t'.WellFormed)
    (hgenerated : AllGenerated written)
    (hinputs : ∀ path ∈ command.inputs, ∃ entries, t.find? path = some (.directory entries))
    (hconfig : ∀ path ∈ command.config, ∀ names, t.resolve [] (pathSteps path) = .ok names →
      ¬ written names) :
    command.FindsSame (Access.ReadsOutside t written) t t' where
  settings := by
    have hout : ¬ written [defaultSettingsPath] :=
      hgenerated.not_written (List.nil_append _) not_generated_defaultSettingsPath
    simp only [find?_defaultSettingsPath, hgrows.same hout]
  inputs path hpath := by
    obtain ⟨entries, hfind⟩ := hinputs path hpath
    obtain ⟨entries', hfind', hsources⟩ :=
      hgrows.find?_directory ht ht' hgenerated.not_source hfind
    obtain ⟨-, names, -, hlookup⟩ := find?_eq_some.mp hfind
    exact ⟨entries, entries', hfind, hfind', hsources path,
      fun p hp => exists_of_mem_sources (ht.of_lookup? hlookup) hp⟩
  read path hpath content hread := by
    have hout (names : List String) (hnames : t.resolve [] (pathSteps path) = .ok names) :=
      not_written_of_mayRead hgenerated hconfig hpath hnames
    obtain ⟨-, names, hnames, -⟩ := read_eq_ok.mp hread
    exact ⟨hgrows.read hread hout, names, hnames, hout names hnames⟩

end Finding

/-! ## Two runs -/

namespace Session

def conclude : Except Failure Bool × Transcript → Outcome
  | (.ok isClean, t) => ⟨if isClean then 0 else 1, t⟩
  | (.error failure, t) =>
    ⟨1, { t with errors := t.errors ++ "Error: " ++ failure.message ++ "\n" }⟩

end Session

open Session

theorem Command.runOn_eq (command : Command) (inColor : Bool) (t : FileTree ByteArray) :
    command.runOn inColor t =
      (conclude (exec (perform command inColor) {} ⟨t, []⟩).1,
        (exec (perform command inColor) {} ⟨t, []⟩).2) := by
  obtain ⟨⟨result, s⟩, r, hexec⟩ : ∃ p r, exec (perform command inColor) {} ⟨t, []⟩ = (p, r) :=
    ⟨_, _, rfl⟩
  rw [hexec]
  rw [exec] at hexec
  rw [runOn, run, StateT.run_bind, hexec]
  cases result <;> rfl

theorem conclude_ok {p : Except Failure Bool × Transcript} (h : p.1 = .ok true) :
    (conclude p).exitCode = 0 := by
  obtain ⟨result, s⟩ := p
  cases h
  rfl

theorem conclude_error {p : Except Failure Bool × Transcript} {failure : Failure}
    (h : p.1 = .error failure) : (conclude p).exitCode = 1 := by
  obtain ⟨result, s⟩ := p
  cases h
  rfl

/-- The run of the command on the tree does not end because of a file or directory that cannot be
accessed. -/
def Command.Completes (command : Command) (inColor : Bool) (t : FileTree ByteArray) : Prop :=
  ∀ failure, (exec (perform command inColor) {} ⟨t, []⟩).1.1 = .error failure →
    failure.isAccess = false

/-- The record of reading has no part in what was written. -/
theorem written_append {t t' : FileTree ByteArray} {written : List String → Prop}
    {reads accesses : List Access} (h : ∀ a ∈ reads, a.ReadsOutside t written)
    (place : List String) : Written t' (reads ++ accesses) place ↔ Written t' accesses place := by
  constructor
  · rintro ⟨path, text, hmem, hplace⟩
    rcases List.mem_append.mp hmem with hmem | hmem
    · exact (h _ hmem).elim
    · exact ⟨path, text, hmem, hplace⟩
  · rintro ⟨path, text, hmem, hplace⟩
    exact ⟨path, text, List.mem_append_right _ hmem, hplace⟩

def generating (command : Command) (inColor : Bool) : Session (StateM Recording) Report :=
  generate (LogLevel.ofVerbosity? command.verbosity) (inColor && !command.noColor) command

def delivering (command : Command) (report : Report) : Session (StateM Recording) Unit :=
  deliver (LogLevel.ofVerbosity? command.verbosity) report command.action

theorem perform_eq (command : Command) (inColor : Bool) :
    (perform command inColor : Session (StateM Recording) Bool) =
      generating command inColor >>= fun report =>
        delivering command report >>= fun _ => pure report.isClean := rfl

theorem repeats_generating {command : Command} {allowed : Access → Prop}
    {t t' : FileTree ByteArray} (h : command.FindsSame allowed t t') (inColor : Bool) :
    Repeats t t' allowed (generating command inColor)
      fun report => ∃ settings files, report = .ofFiles settings files :=
  repeats_generate h _ _

section Again

variable {command : Command} {inColor : Bool} {t : FileTree ByteArray}
  {result : Except Failure Bool} {s : Transcript} {r : Recording}

/-- A command that completes has either written nothing, or delivers what is generated. -/
theorem exec_perform_cases (ht : t.WellFormed)
    (hinputs : ∀ path ∈ command.inputs, ∃ entries, t.find? path = some (.directory entries))
    (h : exec (perform command inColor) {} ⟨t, []⟩ = ((result, s), r))
    (hfail : ∀ failure, result = .error failure → failure.isAccess = false) :
    (r.tree = t ∧ ∀ path text, .write path text ∉ r.accesses) ∨
      ∃ report s₁ reads delivered, WellHinted report.publication.units ∧
        (∀ a ∈ reads, a.ReadsOutside t fun _ => False) ∧
        exec (generating command inColor) {} ⟨t, []⟩ = ((.ok report, s₁), ⟨t, reads⟩) ∧
        exec (delivering command report) s₁ ⟨t, reads⟩ = ((delivered, s), r) ∧
        result = delivered.map fun _ => report.isClean := by
  have hfinds : command.FindsSame (Access.ReadsOutside t fun _ => False) t t :=
    findsSame_of_grows (.refl _ t) ht ht (fun _ => False.elim) hinputs fun _ _ _ _ => id
  have hrepeats := repeats_generating hfinds inColor
  rw [perform_eq] at h
  rcases exec_bind_cases h with ⟨failure, hgenerate, rfl⟩ | ⟨report, s₁, r₁, hgenerate, hdeliver⟩
  · obtain ⟨reads, hreads, rfl, -⟩ := hrepeats _ _ _ _ _ hgenerate fun failure' hf =>
      hfail failure' (by cases hf; rfl)
    exact .inl ⟨rfl, fun path text hmem => hreads _ hmem⟩
  · obtain ⟨reads, hreads, rfl, hreport, -⟩ := hrepeats _ _ _ _ _ hgenerate (by rintro _ ⟨⟩)
    obtain ⟨settings, files, rfl⟩ := hreport _ rfl
    obtain ⟨⟨delivered, s₂⟩, r₂, hdelivered⟩ : ∃ p r₂,
      exec (delivering command (.ofFiles settings files)) s₁ ⟨t, reads⟩ = (p, r₂) := ⟨_, _, rfl⟩
    rw [List.nil_append, exec_bind_pure _ hdelivered] at hdeliver
    cases hdeliver
    exact .inr ⟨_, s₁, reads, delivered, wellHinted_ofFiles settings files, hreads, hgenerate,
      hdelivered, rfl⟩

/-- Performing a command again on the tree that is left is like the first time, and none of the
files that were read was written. -/
theorem exec_perform_again (ht : t.WellFormed)
    (hinputs : ∀ path ∈ command.inputs, ∃ entries, t.find? path = some (.directory entries))
    (h : exec (perform command inColor) {} ⟨t, []⟩ = ((result, s), r))
    (hfail : ∀ failure, result = .error failure → failure.isAccess = false)
    (hconfig : ∀ path ∈ command.config, ¬ r.Wrote path) :
    exec (perform command inColor) {} ⟨r.tree, []⟩ = ((result, s), r) ∧
      ∀ path content, .read path content ∈ r.accesses → ¬ r.Wrote path := by
  rcases exec_perform_cases ht hinputs h hfail with ⟨htree, hnone⟩ |
    ⟨report, s₁, reads, delivered, hunits, hreads, hgenerate, hdeliver, hresult⟩
  · refine ⟨htree ▸ h, ?_⟩
    rintro path content - ⟨names, ⟨path', text, hmem, -⟩, -⟩
    exact hnone _ _ hmem
  · obtain ⟨t₂, writes, rfl, hsettled, hagain⟩ := exec_deliver_again ht hunits hdeliver
      fun failure hf => hfail failure (by rw [hresult, hf]; rfl)
    have hwritten (place : List String) :
        Written t₂ (reads ++ writes) place ↔ Written t₂ writes place := written_append hreads place
    have hconfig' (path : String) (hpath : path ∈ command.config) (names : List String)
        (hnames : t.resolve [] (pathSteps path) = .ok names) : ¬ Written t₂ writes names :=
      fun hin => hconfig path hpath
        ⟨names, (hwritten names).mpr hin, hsettled.grows.resolve hnames⟩
    have hfinds := findsSame_of_grows hsettled.grows ht hsettled.wellFormed hsettled.generated
      hinputs hconfig'
    obtain ⟨reads', hreads', heq, -, hgenerate'⟩ :=
      repeats_generating hfinds inColor _ _ _ _ _ hgenerate (by rintro _ ⟨⟩)
    obtain rfl : reads = reads' := by simpa using heq
    rw [List.nil_append] at hgenerate'
    constructor
    · rw [perform_eq, exec_bind_of_ok hgenerate', hresult]
      exact exec_bind_pure _ (hagain reads)
    · rintro path content hmem ⟨names, hin, hnames⟩
      rcases List.mem_append.mp hmem with hmem | hmem
      · obtain ⟨names', hnames', hout⟩ := hreads' _ hmem
        have hsame := hsettled.grows.resolve hnames'
        rw [hnames] at hsame
        cases hsame
        exact hout ((hwritten _).mp hin)
      · exact hsettled.not_read path content hmem

end Again

/-- A command with directories for inputs that is carried out without a failed access, and does not
overwrite the file of its settings, can be run again: from the tree that is left the second run ends
alike, prints the same, reads and writes the same and leaves the tree as it is. None of the files
that are read is written. The runs are recorded ones, and the same holds of those on trees alone. -/
theorem Command.runOn_again {command : Command} {inColor : Bool} {t : FileTree ByteArray}
    (ht : t.WellFormed)
    (hinputs : ∀ path ∈ command.inputs, ∃ entries, t.find? path = some (.directory entries))
    (hcompletes : command.Completes inColor t)
    (hconfig : ∀ path ∈ command.config, ¬ (command.runOn inColor t).2.Wrote path) :
    let first := command.runOn inColor t
    let onTree : StateM (FileTree ByteArray) Outcome := Session.run command inColor
    command.runOn inColor first.2.tree = first ∧
      (∀ path content, .read path content ∈ first.2.accesses → ¬ first.2.Wrote path) ∧
      onTree.run t = (first.1, first.2.tree) ∧
      onTree.run first.2.tree = (first.1, first.2.tree) := by
  obtain ⟨⟨result, s⟩, r, hexec⟩ : ∃ p r, exec (perform command inColor) {} ⟨t, []⟩ = (p, r) :=
    ⟨_, _, rfl⟩
  have hfirst : command.runOn inColor t = (conclude (result, s), r) := by
    rw [command.runOn_eq, hexec]
  rw [hfirst] at hconfig ⊢
  rw [Completes, hexec] at hcompletes
  obtain ⟨hagain, hreads⟩ := exec_perform_again ht hinputs hexec hcompletes hconfig
  have hsecond : command.runOn inColor r.tree = (conclude (result, s), r) := by
    rw [command.runOn_eq, hagain]
  refine ⟨hsecond, hreads, ?_, ?_⟩
  · exact (command.runOn_plain inColor t).symm.trans (by rw [hfirst])
  · exact (command.runOn_plain inColor r.tree).symm.trans (by rw [hsecond])

/-! ## A run on a holder -/

/-- A directory with a holder, and one for what is generated from it. -/
def holderTree (generated : List (String × FileTree ByteArray)) : FileTree ByteArray :=
  .directory [("Scripts", .directory
    [("S.cs", .file "partial class S:SystemBase\x7bNativeList a;\x7d".toUTF8)]),
    ("Generated", .directory generated)]

def holderCommand (config : Option String) : Command where
  action := .write "Generated"
  inputs := ["Scripts"]
  config := config
  only := none
  verbosity := 0
  noColor := false

theorem wellFormed_holderTree {generated : List (String × FileTree ByteArray)}
    (h : (FileTree.directory generated).WellFormed) : (holderTree generated).WellFormed := by
  have hscripts : (FileTree.directory [("S.cs",
      FileTree.file "partial class S:SystemBase\x7bNativeList a;\x7d".toUTF8)]).WellFormed :=
    .directory (by simp) (List.forall_mem_singleton.mpr (.file _))
  exact .directory (by simp) (List.forall_mem_cons.mpr
    ⟨hscripts, List.forall_mem_singleton.mpr h⟩)

theorem find?_holderTree (generated : List (String × FileTree ByteArray))
    (config : Option String) : ∀ path ∈ (holderCommand config).inputs,
      ∃ entries, (holderTree generated).find? path = some (.directory entries) :=
  List.forall_mem_singleton.mpr ⟨_, rfl⟩

theorem Command.runOn_again_holder :
    (holderTree []).WellFormed ∧ (holderCommand none).Completes false (holderTree []) ∧
      let first := (holderCommand none).runOn false (holderTree [])
      let onTree : StateM (FileTree ByteArray) Outcome := Session.run (holderCommand none) false
      (holderCommand none).runOn false first.2.tree = first ∧
        (∀ path content, .read path content ∈ first.2.accesses → ¬ first.2.Wrote path) ∧
        onTree.run (holderTree []) = (first.1, first.2.tree) ∧
        onTree.run first.2.tree = (first.1, first.2.tree) := by
  have hresult : (exec (perform (holderCommand none) false) {} ⟨holderTree [], []⟩).1.1 =
      .ok true := by
    decide +kernel
  have hcompletes : (holderCommand none).Completes false (holderTree []) := by
    intro failure hfailure
    rw [hresult] at hfailure
    cases hfailure
  have htree := wellFormed_holderTree .nil
  exact ⟨htree, hcompletes,
    runOn_again htree (find?_holderTree [] none) hcompletes (by rintro path ⟨⟩)⟩

/-- If the settings are in a file that the run overwrites, a second run does not accept them. -/
theorem Command.runOn_overwritten :
    let t := holderTree [("S.AutoDispose.g.cs", .file "".toUTF8)]
    let command := holderCommand (some "Generated/S.AutoDispose.g.cs")
    t.WellFormed ∧
      (∀ path ∈ command.inputs, ∃ entries, t.find? path = some (.directory entries)) ∧
      command.Completes false t ∧
      let first := command.runOn false t
      first.1.exitCode = 0 ∧ (command.runOn false first.2.tree).1.exitCode = 1 := by
  intro t command
  have hresult : (exec (perform command false) {} ⟨t, []⟩).1.1 = .ok true := by
    decide +kernel
  have hagain : (exec (perform command false) {}
      ⟨(exec (perform command false) {} ⟨t, []⟩).2.tree, []⟩).1.1 =
        .error (.settings .unreadable) := by
    decide +kernel
  refine ⟨wellFormed_holderTree (.directory (by simp) (List.forall_mem_singleton.mpr (.file _))),
    find?_holderTree _ _, fun failure hfailure => ?_, ?_, ?_⟩
  · rw [hresult] at hfailure
    cases hfailure
  · rw [runOn_eq]
    exact conclude_ok hresult
  · rw [runOn_eq, runOn_eq]
    exact conclude_error hagain

end DeclGen.CommandLine
