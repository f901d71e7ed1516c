import DeclGen.Proofs.Hints

/-!
# Names that are refused

A name is refused for what it is made of or because it is taken. The names that generators choose
are put together from names that were read, so they are always those of plain files, and only the
second can happen: then a diagnostic says so. A run tells of no error in its events alone.

## Main definitions

* `IsPlainFileName`: the names of plain files
* `Publication.Quiet`: no event tells of an error

## Main statements

* `isValidHint_iff`: the names of plain files are those that are accepted
* `Generator.hints_accepted`: no name is refused for what it is made of
-/

namespace DeclGen

open DeclGen.Text

/-- The name is that of a plain file that ends in `.cs`. -/
structure IsPlainFileName (name : String) : Prop where
  extension : ".cs".toList <:+ name.toList
  head?_ne : name.toList.head? ≠ some '.'
  plain : ∀ c ∈ name.toList, c ∉ forbiddenInHints ∧ isControl c = false

/-- The names that are accepted are those of plain files: what stands in front of the extension is
not empty, because the name starts with no dot. -/
theorem isValidHint_iff {name : String} : isValidHint name = true ↔ IsPlainFileName name := by
  have hplain : (name.toList.all fun c => !forbiddenInHints.contains c && !isControl c) = true ↔
      ∀ c ∈ name.toList, c ∉ forbiddenInHints ∧ isControl c = false := by
    simp [List.all_eq_true]
  simp only [isValidHint, Bool.and_eq_true, decide_eq_true_eq, bne_iff_ne,
    List.isSuffixOf_iff_suffix, hplain]
  refine ⟨fun h => ⟨h.1.1.2, h.1.2, h.2⟩, fun h => ⟨⟨⟨?_, h.extension⟩, h.head?_ne⟩, h.plain⟩⟩
  obtain ⟨front, hname⟩ := h.extension
  cases front with
  | nil => exact absurd (by rw [← hname]; rfl) h.head?_ne
  | cons c front => simp [← hname]

namespace Publication

def Quiet (p : Publication) : Prop := ∀ event ∈ p.events, event.level ≠ .error

namespace Quiet

variable {p q : Publication}

theorem empty : Quiet empty := by
  rintro event ⟨⟩

theorem append (hp : p.Quiet) (hq : q.Quiet) : (p ++ q).Quiet := by
  intro event he
  rcases List.mem_append.mp he with he | he
  · exact hp event he
  · exact hq event he

theorem concat {ps : List Publication} (h : ∀ p ∈ ps, p.Quiet) : (concat ps).Quiet := by
  induction ps with
  | nil => exact empty
  | cons p ps ih => exact (h p List.mem_cons_self).append (ih fun q hq => h q (.tail _ hq))

theorem ofEvent {level : LogLevel} {target message : String} (h : level ≠ .error) :
    (ofEvent level target message).Quiet := by
  intro event he
  obtain rfl := List.mem_singleton.mp he
  exact h

theorem ofDiagnostic (d : Diagnostic) : (ofDiagnostic d).Quiet := by
  intro event he
  obtain rfl := List.mem_singleton.mp he
  simp

theorem ofUnit (u : PublishedUnit) : (ofUnit u).Quiet := by
  intro event he
  obtain rfl := List.mem_singleton.mp he
  simp

end Quiet

theorem eq_duplicateHint_of_publish {p : Publication} {u : PublishedUnit} {e : PublishError}
    (hvalid : isValidHint u.hint = true) (he : p.publish u = .error e) :
    e = .duplicateHint u.hint := by
  rw [publish, refusal?_eq hvalid] at he
  by_cases htaken : u.hint ∈ p.hints
  · rw [if_pos htaken] at he
    exact (Except.error.inj he).symm
  · rw [if_neg htaken] at he
    cases he

end Publication

open Publication

variable {set : SourceSet} {evaluator : Evaluator} {taken : List String}

/-! ## The unit of the enums -/

namespace EnumNames

theorem quiet_publishing (settings : EnumSettings) (xs : List EnumExtension) :
    (publishing settings set taken xs).Quiet := by
  rw [publishing, refusal?_eq isValidHint_hint]
  by_cases htaken : hint ∈ taken
  · rw [if_pos htaken]
    dsimp only
    split
    · exact .ofDiagnostic _
    · exact .empty
  · rw [if_neg htaken]
    exact .ofUnit _

theorem quiet_conclusion (settings : EnumSettings) (xs : List EnumExtension) :
    (conclusion settings set taken xs).Quiet := by
  cases xs with
  | nil => exact .ofEvent (by decide)
  | cons x xs =>
    refine ((Quiet.ofEvent (by decide)).append (.concat fun p hp => ?_)).append
      (quiet_publishing settings _)
    obtain ⟨y, -, rfl⟩ := List.mem_map.mp hp
    refine .concat fun p hp => ?_
    obtain ⟨member, -, rfl⟩ := List.mem_map.mp hp
    exact .ofEvent (by decide)

/-- None of the events that tell about enums is an error. -/
theorem quiet_contribution (settings : EnumSettings) :
    (contribution settings set evaluator taken).Quiet := by
  refine ((Quiet.concat fun p hp => ?_).append (.concat fun p hp => ?_)).append
    (quiet_conclusion settings _)
  · obtain ⟨⟨e, verdict⟩, -, rfl⟩ := List.mem_map.mp hp
    cases verdict with
    | hidden | target => exact .ofEvent (by decide)
    | malformed => exact .ofDiagnostic _
    | repeated =>
      refine (Quiet.ofEvent (by decide)).append ?_
      cases settings.duplicatePaths with
      | silent => exact .empty
      | warn => exact .ofDiagnostic _
  · obtain ⟨t, -, rfl⟩ := List.mem_map.mp hp
    refine (Quiet.concat fun p hp => ?_).append ?_
    · obtain ⟨o, -, rfl⟩ := List.mem_map.mp hp
      exact .ofEvent (by decide)
    · split
      · exact .ofDiagnostic _
      · exact .empty

/-- Where an enum gets a method, the unit is published, or its name is reported at an enum. -/
theorem published_or_reported (settings : EnumSettings) (hx : extensions set evaluator ≠ []) :
    ⟨hint, EnumExtension.render settings (extensions set evaluator)⟩ ∈
        (contribution settings set evaluator taken).units ∨
      ∃ t ∈ targets set, .duplicateHint (t.location set) hint ∈
        (contribution settings set evaluator taken).diagnostics := by
  obtain ⟨x, xs, hxs⟩ := List.exists_cons_of_ne_nil hx
  have htargets : targets set ≠ [] := by
    intro hnone
    rw [extensions, hnone] at hx
    exact hx rfl
  obtain ⟨t, ts, hts⟩ := List.exists_cons_of_ne_nil htargets
  by_cases htaken : hint ∈ taken
  · refine .inr ⟨t, by simp [hts], ?_⟩
    simp [contribution, conclusion, hxs, publishing, refusal?_eq isValidHint_hint, htaken, hts]
  · left
    simp [contribution, conclusion, hxs, publishing, refusal?_eq isValidHint_hint, htaken]

end EnumNames

/-! ## The units of holders -/

namespace HolderOutcome

variable {settings : CleanupSettings} {h : Holder} {o : HolderOutcome}

theorem Fits.quiet (set : SourceSet) (hfits : Fits settings taken h o) :
    (o.contribution settings set h).Quiet := by
  cases hfits with
  | idle => exact .ofEvent (by decide)
  | notPartial | containerNotPartial | hookDefined | refused => exact .ofDiagnostic _
  | published => exact .ofUnit _

/-- A holder with handles that another part can be added to gets a unit, or the name of the unit is
taken. -/
theorem Fits.published_or_refused (hfits : Fits settings taken h o) (howns : h.handles ≠ [])
    (hattachable : h.Attachable settings) :
    o = .published ⟨h.hint, h.render settings⟩ ∨ o = .refused (.duplicateHint h.hint) := by
  cases hfits with
  | idle hnone => exact absurd hnone howns
  | notPartial _ hhead => simp [hattachable.isPartial] at hhead
  | @containerNotPartial t _ _ _ _ hsplit _ ht =>
    simp [hattachable.containers t (by simp [hsplit])] at ht
  | @hookDefined m _ _ _ _ _ hsplit _ hm =>
    exact absurd hm (hattachable.methods m (by simp [hsplit]))
  | published => exact .inl rfl
  | refused => exact .inr rfl

end HolderOutcome

namespace Cleanup

open HolderOutcome

variable {files : List (String × String)}

theorem quiet_contribution (settings : CleanupSettings) (files : List (String × String)) :
    (contribution settings (SourceSet.ofFiles files).1 taken).Quiet := by
  refine ((Quiet.concat fun p hp => ?_).append (.concat fun p hp => ?_)).append
    (.ofEvent (by decide))
  · obtain ⟨h, -, rfl⟩ := List.mem_map.mp hp
    exact .ofEvent (by decide)
  · obtain ⟨⟨h, o⟩, hmem, rfl⟩ := List.mem_map.mp hp
    obtain ⟨hh, taken', rfl⟩ := mem_of_mem_ofHolders hmem
    exact (fits_ofHolder (SourceSet.isValidHint_of_mem_holders hh)).quiet _

/-- What can get an override ends in a unit, or in a report that its name is taken. -/
theorem published_or_reported {settings : CleanupSettings} {h : Holder}
    (hh : h ∈ (SourceSet.ofFiles files).1.holders settings) (howns : h.handles ≠ [])
    (hattachable : h.Attachable settings) :
    ⟨h.hint, h.render settings⟩ ∈ (contribution settings (SourceSet.ofFiles files).1 taken).units ∨
      .duplicateHint ((SourceSet.ofFiles files).1.locate h.tree.file h.identifier.span) h.hint ∈
        (contribution settings (SourceSet.ofFiles files).1 taken).diagnostics := by
  have hin : h ∈ (ofHolders settings taken ((SourceSet.ofFiles files).1.holders settings)).map
      (·.1) := by rwa [map_fst_ofHolders]
  obtain ⟨p, hmem, rfl⟩ := List.mem_map.mp hin
  obtain ⟨-, taken', houtcome⟩ := mem_of_mem_ofHolders hmem
  have hfits : Fits settings taken' p.1 p.2 :=
    houtcome ▸ fits_ofHolder (SourceSet.isValidHint_of_mem_holders hh)
  rw [units_outcomes, diagnostics_outcomes]
  rcases hfits.published_or_refused howns hattachable with ho | ho
  · exact .inl (List.mem_filterMap.mpr ⟨p, hmem, by rw [ho]; rfl⟩)
  · exact .inr (List.mem_filterMap.mpr ⟨p, hmem, by rw [ho]; rfl⟩)

end Cleanup

/-! ## Runs -/

namespace Generator

theorem quiet_contribution (g : Generator) (files : List (String × String)) :
    (g.contribution (SourceSet.ofFiles files).1 evaluator taken).Quiet := by
  cases g with
  | enumNames settings => exact EnumNames.quiet_contribution settings
  | cleanup settings => exact Cleanup.quiet_contribution settings files
  | fixed unit =>
    rw [contribution]
    split
    · exact .ofUnit _
    · exact .empty

theorem quiet_run (generators : List Generator) (files : List (String × String)) :
    (run generators (SourceSet.ofFiles files).1 evaluator).Quiet := by
  induction generators using List.reverseRecOn with
  | nil => exact .empty
  | append_singleton generators g ih =>
    rw [run_concat]
    exact (ih.append (g.quiet_contribution files)).append (.ofEvent (by decide))

/-- In a run over any files, with generators of any settings: the names of the units of enums and
holders are those of plain files, and a publication refuses such a name only where it is taken. So
the unit of the enums that get a method is published or the name is reported at an enum, and the
unit of a holder that can get an override is published or the name is reported at the holder. No
event tells of an error. -/
theorem hints_accepted (files : List (String × String)) (generators : List Generator)
    (evaluator : Evaluator) :
    let set := (SourceSet.ofFiles files).1
    let published := run generators set evaluator
    (∀ name, name = EnumNames.hint ∨ (∃ settings, ∃ h ∈ set.holders settings, name = h.hint) →
      IsPlainFileName name ∧
        ∀ (p : Publication) text e, p.publish ⟨name, text⟩ = .error e → e = .duplicateHint name) ∧
      (∀ settings, .enumNames settings ∈ generators → EnumNames.extensions set evaluator ≠ [] →
        ⟨EnumNames.hint, EnumExtension.render settings (EnumNames.extensions set evaluator)⟩ ∈
            published.units ∨
          ∃ t ∈ EnumNames.targets set, ∃ d ∈ published.diagnostics,
            d = .duplicateHint (t.location set) EnumNames.hint ∧ d.code = some "SG3001") ∧
      (∀ settings, .cleanup settings ∈ generators → ∀ h ∈ set.holders settings,
        h.handles ≠ [] → h.Attachable settings →
          ⟨h.hint, h.render settings⟩ ∈ published.units ∨
            ∃ d ∈ published.diagnostics,
              d = .duplicateHint (set.locate h.tree.file h.identifier.span) h.hint ∧
                d.code = some "SG3001") ∧
      ∀ event ∈ published.events, event.level ≠ .error := by
  intro set published
  refine ⟨fun name hname => ?_, fun settings hg hx => ?_,
    fun settings hg h hh howns hattachable => ?_, quiet_run generators files⟩
  · have hvalid : isValidHint name = true := by
      rcases hname with rfl | ⟨settings, h, hh, rfl⟩
      · exact EnumNames.isValidHint_hint
      · exact SourceSet.isValidHint_of_mem_holders hh
    exact ⟨isValidHint_iff.mp hvalid, fun p text e => eq_duplicateHint_of_publish hvalid⟩
  · obtain ⟨taken, hunits, hdiagnostics⟩ := exists_contribution_of_mem set evaluator hg
    rcases EnumNames.published_or_reported settings hx with hu | ⟨t, ht, hd⟩
    · exact .inl (hunits hu)
    · exact .inr ⟨t, ht, _, hdiagnostics hd, rfl, rfl⟩
  · obtain ⟨taken, hunits, hdiagnostics⟩ := exists_contribution_of_mem set evaluator hg
    rcases Cleanup.published_or_reported hh howns hattachable with hu | hd
    · exact .inl (hunits hu)
    · exact .inr ⟨_, hdiagnostics hd, rfl, rfl⟩

/-- An enum, and two parts of a class that both own a handle. -/
def partedFiles : List (String × String) :=
  [("A.cs", "public enum E \x7b A \x7d partial class S : SystemBase \x7b NativeList a; \x7d"),
    ("B.cs", "partial class S : SystemBase \x7b NativeList b; \x7d")]

/-- Generators of which the first takes the name that the second publishes under. -/
def rivalGenerators : List Generator :=
  [.fixed ⟨EnumNames.hint, ""⟩, .enumNames {}, .cleanup {}]

theorem hints_accepted_rivals :
    let set := (SourceSet.ofFiles partedFiles).1
    let published := run rivalGenerators set EnumDecl.constantText
    published.units.map (·.hint) = [EnumNames.hint, "S.AutoDispose.g.cs"] ∧
      published.diagnostics.map (·.code) = [some "SG3001", some "SG3001"] ∧
      EnumNames.extensions set EnumDecl.constantText ≠ [] ∧ (set.holders {}).length = 2 ∧
      (∀ h ∈ set.holders {}, h.handles ≠ [] ∧ h.Attachable {} ∧ IsPlainFileName h.hint ∧
        (⟨h.hint, h.render {}⟩ ∈ published.units ∨
          ∃ d ∈ published.diagnostics,
            d = .duplicateHint (set.locate h.tree.file h.identifier.span) h.hint ∧
              d.code = some "SG3001")) ∧
      ∀ event ∈ published.events, event.level ≠ .error := by
  intro set published
  have hholders : ∀ h ∈ set.holders {},
      h.handles ≠ [] ∧ HolderOutcome.obstacle? {} h = none := by decide +kernel
  obtain ⟨hnames, -, hcleanup, hevents⟩ :=
    hints_accepted partedFiles rivalGenerators EnumDecl.constantText
  refine ⟨by decide +kernel, by decide +kernel, by decide +kernel, by decide +kernel,
    fun h hh => ?_, hevents⟩
  obtain ⟨howns, hobstacle⟩ := hholders h hh
  have hattachable := HolderOutcome.attachable_of_obstacle? hobstacle
  exact ⟨howns, hattachable, (hnames _ (.inr ⟨{}, h, hh, rfl⟩)).1,
    hcleanup {} (by simp [rivalGenerators]) h hh howns hattachable⟩

end Generator

end DeclGen
