import DeclGen.Proofs.Cleanup.Accounting
import DeclGen.Proofs.EnumNames.Verdicts
import DeclGen.Proofs.Runs

/-!
# Where diagnostics come from

Every diagnostic of a run is that of one enum or one holder of the sources, or says that the name of
the unit of all enums is taken.

## Main definitions

* `Diagnostic.Origin`: what a diagnostic is about

## Main statements

* `Generator.origin_of_mem_diagnostics`: every diagnostic of a run has an origin
-/

namespace DeclGen

/-- What a diagnostic of a run is about. -/
inductive Diagnostic.Origin (generators : List Generator) (set : SourceSet)
    (evaluator : Evaluator) : Diagnostic → Prop where
  /-- An enum behind the enums `earlier`. -/
  | enum {settings : EnumSettings} {earlier later : List LocatedEnum} {e : LocatedEnum}
      {d : Diagnostic} (hg : .enumNames settings ∈ generators)
      (hsplit : set.enums = earlier ++ e :: later)
      (hd : (e.outcome evaluator earlier).diagnostic? settings set e = some d) :
      Origin generators set evaluator d
  /-- The first enum that can be seen, where the name of the unit is taken. -/
  | enumHint {e : LocatedEnum} {t : EnumTarget} (he : e ∈ set.enums) (ht : e.target? = some t) :
      Origin generators set evaluator (.duplicateHint (t.location set) EnumNames.hint)
  /-- A holder. -/
  | holder {settings : CleanupSettings} {h : Holder} {taken : List String} {d : Diagnostic}
      (hg : .cleanup settings ∈ generators) (hh : h ∈ set.holders settings)
      (hd : (HolderOutcome.ofHolder settings taken h).diagnostic? settings set h = some d) :
      Origin generators set evaluator d

/-! ## Enums -/

namespace LocatedEnum

variable {evaluator : Evaluator} {earlier : List LocatedEnum} {e : LocatedEnum}

/-- What has to hold of an enum behind the enums `earlier` for an outcome with a diagnostic. -/
theorem access_of_outcome_eq_malformed {error : AccessError}
    (h : e.outcome evaluator earlier = .malformed error) : e.site.access = .error error := by
  unfold outcome at h
  split at h
  · cases h
    assumption
  · cases h
  · dsimp only at h
    split at h
    · cases h
    · split at h <;> cases h

/-- An enum is repeated because of the first one before it that can be seen and has its path. -/
theorem exists_of_outcome_eq_repeated {first : EnumTarget}
    (h : e.outcome evaluator earlier = .repeated first) :
    ∃ before kept between, earlier = before ++ kept :: between ∧ kept.target? = some first ∧
      (∃ own, e.target? = some own ∧ first.path.path = own.path.path) ∧
      ∀ other ∈ before, ∀ t, other.target? = some t → t.path.path ≠ first.path.path := by
  unfold outcome at h
  split at h
  · cases h
  · cases h
  · rename_i visibility haccess
    dsimp only at h
    split at h
    · rename_i found
      cases h
      obtain ⟨hpath, front, back, hsplit, hfront⟩ := List.find?_eq_some_iff_append.mp found
      have hpath : first.path.path = e.site.canonicalPath.path := by simpa using hpath
      obtain ⟨before, rest, rfl, hbefore, hrest⟩ := List.filterMap_eq_append_iff.mp hsplit
      obtain ⟨hidden, kept, between, rfl, hhidden, hkept, -⟩ :=
        List.filterMap_eq_cons_iff.mp hrest
      have hown : e.target? = some ⟨e.tree, e.site.decl, visibility, e.site.canonicalPath⟩ := by
        simp only [target?, haccess]
      refine ⟨before ++ hidden, kept, between, by simp, hkept, ⟨_, hown, hpath⟩, ?_⟩
      intro other hother t ht
      rcases List.mem_append.mp hother with hother | hother
      · have hmem : t ∈ front := hbefore ▸ List.mem_filterMap.mpr ⟨other, hother, ht⟩
        simpa [hpath] using hfront t hmem
      · rw [hhidden other hother] at ht
        cases ht
    · split at h <;> cases h

theorem target?_of_outcome_eq_unresolved {t : EnumTarget} {failure : OrdinalFailure}
    (h : e.outcome evaluator earlier = .unresolved t failure) :
    e.target? = some t ∧ e.site.decl.ordinals evaluator = .error failure := by
  unfold outcome at h
  split at h
  · cases h
  · cases h
  · rename_i visibility haccess
    dsimp only at h
    split at h
    · cases h
    · split at h
      · cases h
        exact ⟨by simp only [target?, haccess], by assumption⟩
      · cases h

end LocatedEnum

namespace EnumNames

theorem exists_of_mem_outcomes {set : SourceSet} {evaluator : Evaluator}
    {p : LocatedEnum × EnumOutcome} (hp : p ∈ outcomes set evaluator) :
    ∃ earlier later, set.enums = earlier ++ p.1 :: later ∧ p.2 = p.1.outcome evaluator earlier := by
  obtain ⟨i, hi, rfl⟩ := List.mem_mapIdx.mp hp
  exact ⟨set.enums.take i, set.enums.drop (i + 1), by simp, rfl⟩

/-- If the name of the unit is taken, that is said of an enum that can be seen. -/
theorem exists_of_mem_diagnostics_conclusion {settings : EnumSettings} {set : SourceSet}
    {taken : List String} {xs : List EnumExtension} {d : Diagnostic}
    (hd : d ∈ (conclusion settings set taken xs).diagnostics) :
    ∃ e ∈ set.enums, ∃ t, e.target? = some t ∧ d = .duplicateHint (t.location set) hint := by
  cases xs with
  | nil => cases hd
  | cons x xs =>
    have hevents : (Publication.concat ((x :: xs).map armEvents)).diagnostics = [] := by
      simp [armEvents]
    have hd : d ∈ (publishing settings set taken (x :: xs)).diagnostics := by
      simpa only [conclusion, Publication.diagnostics_append, Publication.diagnostics_ofEvent,
        hevents, List.nil_append] using hd
    unfold publishing at hd
    cases hrefusal : Publication.refusal? taken hint with
    | none => simp [hrefusal] at hd
    | some error =>
      rw [hrefusal] at hd
      cases error with
      | invalidHint name => cases hd
      | duplicateHint name =>
        have hname : name = hint := by
          unfold Publication.refusal? at hrefusal
          split at hrefusal
          · cases hrefusal
          · split at hrefusal
            · cases hrefusal
              rfl
            · cases hrefusal
        cases htargets : targets set with
        | nil => simp [htargets] at hd
        | cons t ts =>
          have ht : t ∈ targets set := htargets ▸ List.mem_cons_self
          obtain ⟨e, he, hsome⟩ := EnumVerdict.exists_of_mem_targets ht
          exact ⟨e, he, t, hsome, by simpa [htargets, hname] using hd⟩

end EnumNames

/-! ## Runs -/

namespace Generator

variable {set : SourceSet} {evaluator : Evaluator}

/-- Every diagnostic of a run is about an enum or a holder of the sources. -/
theorem origin_of_mem_diagnostics {generators : List Generator} {d : Diagnostic}
    (hd : d ∈ (run generators set evaluator).diagnostics) :
    d.Origin generators set evaluator := by
  obtain ⟨g, hg, taken, hd⟩ := exists_of_mem_diagnostics set evaluator hd
  cases g with
  | enumNames settings =>
    change d ∈ (EnumNames.contribution settings set evaluator taken).diagnostics at hd
    rw [EnumNames.diagnostics_contribution, List.mem_append, List.mem_append] at hd
    have henum {ps : List (LocatedEnum × EnumOutcome)}
        (hps : ∀ p ∈ ps, p ∈ EnumNames.outcomes set evaluator)
        (hd : d ∈ ps.filterMap fun p => p.2.diagnostic? settings set p.1) :
        d.Origin generators set evaluator := by
      obtain ⟨p, hp, hsome⟩ := List.mem_filterMap.mp hd
      obtain ⟨earlier, later, hsplit, houtcome⟩ := EnumNames.exists_of_mem_outcomes (hps p hp)
      exact .enum hg hsplit (houtcome ▸ hsome)
    rcases hd with (hd | hd) | hd
    · exact henum (fun p hp => (List.mem_filter.mp hp).1) hd
    · exact henum (fun p hp => (List.mem_filter.mp hp).1) hd
    · obtain ⟨e, he, t, ht, rfl⟩ := EnumNames.exists_of_mem_diagnostics_conclusion hd
      exact .enumHint he ht
  | cleanup settings =>
    change d ∈ (Cleanup.contribution settings set taken).diagnostics at hd
    rw [Cleanup.diagnostics_outcomes] at hd
    obtain ⟨p, hp, hsome⟩ := List.mem_filterMap.mp hd
    obtain ⟨hh, taken', houtcome⟩ := HolderOutcome.mem_of_mem_ofHolders hp
    exact .holder hg hh (houtcome ▸ hsome)
  | fixed unit =>
    simp only [contribution] at hd
    split at hd <;> cases hd

end Generator

/-! ## Files -/

def Diagnostic.locations (d : Diagnostic) : List Location :=
  d.location :: d.labels.map (·.location) ++ d.suggestions.map (·.location)

@[simp] theorem SourceSet.file_locate (set : SourceSet) (file : FileId) (span : Span) :
    (set.locate file span).file = file := by
  rw [locate, Registry.locate?]
  cases set.registry.file? file <;> rfl

theorem SourceSet.tree_mem_of_mem_enums {set : SourceSet} {e : LocatedEnum} (h : e ∈ set.enums) :
    e.tree ∈ set.trees := by
  obtain ⟨tree, htree, h⟩ := List.mem_flatMap.mp h
  obtain ⟨site, -, rfl⟩ := List.mem_map.mp h
  exact htree

theorem SourceSet.tree_mem_of_mem_holders {set : SourceSet} {settings : CleanupSettings}
    {h : Holder} (hh : h ∈ set.holders settings) : h.tree ∈ set.trees := by
  obtain ⟨tree, htree, hh⟩ := List.mem_flatMap.mp hh
  obtain ⟨site, -, rfl⟩ := List.mem_map.mp hh
  exact htree

theorem LocatedEnum.tree_mem {set : SourceSet} {e : LocatedEnum} {t : EnumTarget}
    (he : e ∈ set.enums) (ht : e.target? = some t) : t.tree ∈ set.trees :=
  (parts_of_target? ht).1 ▸ SourceSet.tree_mem_of_mem_enums he

/-- What is said about an enum mentions its file, and perhaps that of an enum before it. -/
theorem LocatedEnum.exists_tree_of_diagnostic {set : SourceSet} {settings : EnumSettings}
    {evaluator : Evaluator} {earlier later : List LocatedEnum} {e : LocatedEnum} {d : Diagnostic}
    (hsplit : set.enums = earlier ++ e :: later)
    (hd : (e.outcome evaluator earlier).diagnostic? settings set e = some d) :
    ∀ l ∈ d.locations, ∃ tree ∈ set.trees, l.file = tree.file := by
  have htree := SourceSet.tree_mem_of_mem_enums (show e ∈ set.enums by simp [hsplit])
  cases houtcome : e.outcome evaluator earlier with
  | hidden | extended => simp [houtcome, EnumOutcome.diagnostic?] at hd
  | malformed error =>
    rw [houtcome] at hd
    cases hd
    simpa [Diagnostic.locations, Diagnostic.malformedDeclaration] using ⟨_, htree, rfl⟩
  | repeated first =>
    obtain ⟨before, kept, between, rfl, hfirst, -⟩ := exists_of_outcome_eq_repeated houtcome
    have hother := tree_mem (show kept ∈ set.enums by simp [hsplit]) hfirst
    cases hpolicy : settings.duplicatePaths with
    | silent => simp [houtcome, EnumOutcome.diagnostic?, hpolicy] at hd
    | warn =>
      simp only [houtcome, EnumOutcome.diagnostic?, hpolicy] at hd
      cases hd
      simp only [Diagnostic.locations, Diagnostic.duplicatePath, EnumTarget.location]
      simpa using ⟨⟨_, htree, rfl⟩, ⟨_, hother, rfl⟩⟩
  | unresolved t failure =>
    have ht := (target?_of_outcome_eq_unresolved houtcome).1
    rw [houtcome] at hd
    cases hd
    simpa [Diagnostic.locations, EnumTarget.failureDiagnostic, Diagnostic.unresolvableConstant]
      using ⟨_, tree_mem (by simp [hsplit]) ht, rfl⟩

/-- What is said about a holder mentions its file only. -/
theorem HolderOutcome.file_of_diagnostic {set : SourceSet} {settings : CleanupSettings}
    {h : Holder} {o : HolderOutcome} {d : Diagnostic}
    (hd : o.diagnostic? settings set h = some d) : ∀ l ∈ d.locations, l.file = h.tree.file := by
  cases o with
  | idle | published => cases hd
  | notPartial =>
    cases hd
    simp [Diagnostic.locations, Diagnostic.holderNotPartial]
  | containerNotPartial =>
    cases hd
    simp [Diagnostic.locations, Diagnostic.containerNotPartial]
  | hookDefined =>
    cases hd
    simp [Diagnostic.locations, Diagnostic.cleanupHookDefined]
  | refused error =>
    cases error with
    | invalidHint => cases hd
    | duplicateHint =>
      cases hd
      simp [Diagnostic.locations, Diagnostic.duplicateHint]

/-- A diagnostic only mentions files that have trees. -/
theorem Diagnostic.Origin.exists_tree {generators : List Generator} {set : SourceSet}
    {evaluator : Evaluator} {d : Diagnostic} (h : d.Origin generators set evaluator) :
    ∀ l ∈ d.locations, ∃ tree ∈ set.trees, l.file = tree.file := by
  cases h with
  | enum _ hsplit hd => exact LocatedEnum.exists_tree_of_diagnostic hsplit hd
  | enumHint he ht =>
    simpa [Diagnostic.locations, Diagnostic.duplicateHint, EnumTarget.location] using
      ⟨_, LocatedEnum.tree_mem he ht, rfl⟩
  | holder _ hh hd =>
    exact fun l hl =>
      ⟨_, SourceSet.tree_mem_of_mem_holders hh, HolderOutcome.file_of_diagnostic hd l hl⟩

end DeclGen
