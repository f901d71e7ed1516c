import DeclGen.Proofs.EnumNames.Faults
import DeclGen.Proofs.Origins
import DeclGen.Proofs.Source.Lines
import DeclGen.Proofs.SourceSet.Entries
import DeclGen.Proofs.Syntax.SiteSpans

/-!
# What diagnostics point at

Every diagnostic of a run points at the text it is about, in the file that text is in: the slice of
the registered file between its offsets is the name or the initializer at fault as it is written,
and its lines and columns are those that counting gives.

## Main definitions

* `Location.Marks`, `Location.Names`: a location covers given characters, or a name
* `Diagnostic.IsAnchored`: the primary labels are where the diagnostic is
* `Diagnostic.Points`: what a diagnostic points at

## Main statements

* `Generator.diagnostics_point`: every diagnostic of a run points at what it is about
-/

namespace DeclGen

open DeclGen.Grammar DeclGen.Text

/-- The location covers the characters `x` of the file of a tree, at a span of it. -/
structure Location.Marks (set : SourceSet) (tree : SyntaxTree) (text : String) (span : Span)
    (x : List Char) (l : Location) : Prop where
  tree_mem : tree ∈ set.trees
  file_eq : l.file = tree.file
  registered : set.registry.file? tree.file = some ⟨tree.path, text⟩
  stands : ∃ front back, text.toList = front ++ x ++ back ∧
    span = ⟨size front, size (front ++ x)⟩ ∧
    l.start = .behind front ∧ l.stop = .behind (front ++ x)

/-- The location covers a name where it is written. -/
def Location.Names (set : SourceSet) (tree : SyntaxTree) (i : Identifier) (l : Location) : Prop :=
  ∃ text, l.Marks set tree text i.span i.text.toList

namespace Diagnostic

/-- The diagnostic has a primary label, and all its primary labels are where it is itself. -/
structure IsAnchored (d : Diagnostic) : Prop where
  exists_primary : ∃ label ∈ d.labels, label.isPrimary = true
  location_eq : ∀ label ∈ d.labels, label.isPrimary = true → label.location = d.location

/-- What a diagnostic is about: its own location, and that of its secondary label if it has one,
covers the text at fault. -/
inductive Points (generators : List Generator) (set : SourceSet) (evaluator : Evaluator)
    (d : Diagnostic) : Prop where
  /-- The accessibility of an enum cannot be told, for a reason that is seen at a name. -/
  | malformed {e : LocatedEnum} {error : AccessError} (he : e ∈ set.enums)
      (hblames : error.Blames e.site) (hat : d.location.Names set e.tree error.identifier)
      (hd : d = .malformedDeclaration d.location e.site.decl.identifier.text error.reason)
  /-- An enum has the path of the enum `kept`, the first of its path that can be seen. -/
  | repeated {before between later : List LocatedEnum} {kept e : LocatedEnum}
      {first own : EnumTarget} {l : Location}
      (hsplit : set.enums = before ++ kept :: between ++ e :: later)
      (hkept : kept.target? = some first) (hown : e.target? = some own)
      (hpath : first.path.path = own.path.path)
      (hbefore : ∀ other ∈ before, ∀ t, other.target? = some t → t.path.path ≠ own.path.path)
      (hat : d.location.Names set e.tree e.site.decl.identifier)
      (hlabel : (d.labels.filter (!·.isPrimary)).map (·.location) = [l])
      (hl : l.Names set kept.tree kept.site.decl.identifier)
      (hd : d = .duplicatePath d.location own.path.path l)
  /-- A member of an enum has no value. -/
  | unresolved {e : LocatedEnum} {failure : OrdinalFailure} {text : String} {x : List Char}
      (he : e ∈ set.enums) (hfailure : e.site.decl.ordinals evaluator = .error failure)
      (hmember : failure.member ∈ e.site.decl.members)
      (hquoted : failure.member.Quoted text.toList x)
      (hat : d.location.Marks set e.tree text failure.member.quotedSpan x)
      (hd : d = .unresolvableConstant d.location e.site.decl.identifier.text
        failure.member.identifier.text failure.error.message)
  /-- The name of the unit of all enums is taken. -/
  | enumHint {e : LocatedEnum} (he : e ∈ set.enums)
      (hat : d.location.Names set e.tree e.site.decl.identifier)
      (hd : d = .duplicateHint d.location EnumNames.hint)
  /-- A holder is not partial. -/
  | holderNotPartial {settings : CleanupSettings} {h : Holder}
      (hg : .cleanup settings ∈ generators) (hh : h ∈ set.holders settings)
      (hpartial : h.site.head.isPartial = false) (hat : d.location.Names set h.tree h.identifier)
      (hd : d = .holderNotPartial d.location h.identifier.text settings.baseType)
  /-- A type around a holder is not partial. -/
  | containerNotPartial {settings : CleanupSettings} {h : Holder} {t : TypeHead}
      (hg : .cleanup settings ∈ generators) (hh : h ∈ set.holders settings)
      (ht : t ∈ h.containers) (hpartial : t.isPartial = false)
      (hat : d.location.Names set h.tree h.identifier)
      (hd : d = .containerNotPartial d.location h.identifier.text t.identifier.text)
  /-- A holder declares the hook itself; the method is the one that is pointed at. -/
  | hookDefined {settings : CleanupSettings} {h : Holder} {m : MethodDecl}
      (hg : .cleanup settings ∈ generators) (hh : h ∈ set.holders settings)
      (hm : m ∈ h.site.methods) (htakes : m.TakesHook settings.hook)
      (hat : d.location.Names set h.tree m.identifier)
      (hd : d = .cleanupHookDefined d.location h.identifier.text settings.hook)
  /-- The name of the unit of a holder is taken. -/
  | holderHint {settings : CleanupSettings} {h : Holder}
      (hg : .cleanup settings ∈ generators) (hh : h ∈ set.holders settings)
      (hat : d.location.Names set h.tree h.identifier)
      (hd : d = .duplicateHint d.location h.hint)

theorem IsAnchored.of_labels {d : Diagnostic} {message : String} {others : List Label}
    (h : d.labels = ⟨d.location, message, true⟩ :: others)
    (hothers : ∀ label ∈ others, label.isPrimary = false) : d.IsAnchored := by
  refine ⟨⟨_, h ▸ List.mem_cons_self, rfl⟩, fun label hlabel hprimary => ?_⟩
  rcases List.mem_cons.mp (h ▸ hlabel) with rfl | hlabel
  · rfl
  · rw [hothers label hlabel] at hprimary
    cases hprimary

theorem Points.isAnchored {generators : List Generator} {set : SourceSet} {evaluator : Evaluator}
    {d : Diagnostic} (h : d.Points generators set evaluator) : d.IsAnchored := by
  cases h with
  | malformed | repeated | unresolved | enumHint | holderNotPartial | containerNotPartial
  | hookDefined | holderHint =>
    rename_i hd
    exact .of_labels (congrArg labels hd) (by simp)

end Diagnostic

/-! ## Where texts are found -/

namespace SourceSet

variable {files : List (String × String)} {tree : SyntaxTree} {text : String}

/-- What is written at a span of the file of a tree is covered by the location of the span. -/
theorem marks_locate (htree : tree ∈ (ofFiles files).1.trees)
    (hfile : (ofFiles files).1.registry.file? tree.file = some ⟨tree.path, text⟩) {span : Span}
    {x : List Char} (hx : Spells text.toList span.start span.stop x) :
    ((ofFiles files).1.locate tree.file span).Marks (ofFiles files).1 tree text span x := by
  obtain ⟨front, back, htext, hstart, hstop⟩ := hx
  rw [← hstart, ← size_append] at hstop
  have hfront : text.toList = front ++ (x ++ back) := by rw [htext, List.append_assoc]
  have hmax : max span.stop span.start = size (front ++ x) := by
    rw [← hstart, hstop, size_append]
    omega
  have hlocate : (ofFiles files).1.locate tree.file span =
      ⟨tree.file, .behind front, .behind (front ++ x)⟩ := by
    rw [locate, Registry.locate?, hfile, Option.map_some, Option.getD_some, ← hstart, hstart,
      hmax, ← hstart, SourceFile.position_eq hfront, SourceFile.position_eq htext]
  refine ⟨htree, by rw [hlocate], hfile, front, back, htext, ?_, by rw [hlocate], by rw [hlocate]⟩
  rw [hstart, ← hstop]

/-- The location of a name that stands in the file of a tree covers the name. -/
theorem names_locate (htree : tree ∈ (ofFiles files).1.trees)
    (hfile : (ofFiles files).1.registry.file? tree.file = some ⟨tree.path, text⟩) {i : Identifier}
    (hi : i.StandsIn text.toList) :
    ((ofFiles files).1.locate tree.file i.span).Names (ofFiles files).1 tree i :=
  ⟨text, marks_locate htree hfile hi⟩

/-- An enum of a run is one of those in the file of its tree. -/
theorem exists_text_of_mem_enums {e : LocatedEnum} (he : e ∈ (ofFiles files).1.enums) :
    ∃ text, (ofFiles files).1.registry.file? e.tree.file = some ⟨e.tree.path, text⟩ ∧
      e.site.StandsIn text.toList ∧ Enumerates text.toList e.site.decl := by
  obtain ⟨tree, htree, he⟩ := List.mem_flatMap.mp he
  obtain ⟨site, hsite, rfl⟩ := List.mem_map.mp he
  obtain ⟨s, hs, hsome⟩ := List.mem_filterMap.mp hsite
  obtain ⟨text, hfile, hparse⟩ := exists_text_of_mem_trees htree
  cases s with
  | ofType site => cases hsome
  | ofEnum site =>
    cases hsome
    exact ⟨text, hfile, CompilationUnit.standsIn_of_parse hparse _ hs,
      enumerates_of_parse hparse _ _ hs⟩

/-- A holder of a run is one of the types in the file of its tree. -/
theorem exists_text_of_mem_holders {settings : CleanupSettings} {h : Holder}
    (hh : h ∈ (ofFiles files).1.holders settings) :
    ∃ text, (ofFiles files).1.registry.file? h.tree.file = some ⟨h.tree.path, text⟩ ∧
      h.site.StandsIn text.toList := by
  obtain ⟨tree, htree, hh⟩ := List.mem_flatMap.mp hh
  obtain ⟨site, hsite, rfl⟩ := List.mem_map.mp hh
  obtain ⟨s, hs, hsome⟩ := List.mem_filterMap.mp (List.mem_filter.mp hsite).1
  obtain ⟨text, hfile, hparse⟩ := exists_text_of_mem_trees htree
  cases s with
  | ofType site =>
    cases hsome
    exact ⟨text, hfile, CompilationUnit.standsIn_of_parse hparse _ hs⟩
  | ofEnum site => cases hsome

theorem names_enum {e : LocatedEnum} (he : e ∈ (ofFiles files).1.enums) :
    ((ofFiles files).1.locate e.tree.file e.site.decl.identifier.span).Names (ofFiles files).1
      e.tree e.site.decl.identifier := by
  obtain ⟨text, hfile, hstands, -⟩ := exists_text_of_mem_enums he
  exact names_locate (tree_mem_of_mem_enums he) hfile hstands.identifier

theorem names_target {e : LocatedEnum} {t : EnumTarget} (he : e ∈ (ofFiles files).1.enums)
    (ht : e.target? = some t) :
    (t.location (ofFiles files).1).Names (ofFiles files).1 e.tree e.site.decl.identifier := by
  obtain ⟨htree, hdecl, -⟩ := LocatedEnum.parts_of_target? ht
  rw [EnumTarget.location, htree, hdecl]
  exact names_enum he

/-- The name at fault is that of the enum or of a type around it, so it stands in the file. -/
theorem names_blamed {e : LocatedEnum} {error : AccessError} (he : e ∈ (ofFiles files).1.enums)
    (h : error.Blames e.site) :
    ((ofFiles files).1.locate e.tree.file error.span).Names (ofFiles files).1 e.tree
      error.identifier := by
  obtain ⟨text, hfile, hstands, -⟩ := exists_text_of_mem_enums he
  have hidentifier : error.identifier.StandsIn text.toList := by
    cases h with
    | contradictory => exact hstands.identifier
    | unmarked hsplit => exact hstands.containers _ (by simp [hsplit])
  rw [AccessError.span_eq]
  exact names_locate (tree_mem_of_mem_enums he) hfile hidentifier

theorem names_holder {settings : CleanupSettings} {h : Holder}
    (hh : h ∈ (ofFiles files).1.holders settings) :
    ((ofFiles files).1.locate h.tree.file h.identifier.span).Names (ofFiles files).1 h.tree
      h.identifier := by
  obtain ⟨text, hfile, hstands⟩ := exists_text_of_mem_holders hh
  exact names_locate (tree_mem_of_mem_holders hh) hfile hstands.identifier

theorem names_method {settings : CleanupSettings} {h : Holder} {m : MethodDecl}
    (hh : h ∈ (ofFiles files).1.holders settings) (hm : m ∈ h.site.methods) :
    ((ofFiles files).1.locate h.tree.file m.identifier.span).Names (ofFiles files).1 h.tree
      m.identifier := by
  obtain ⟨text, hfile, hstands⟩ := exists_text_of_mem_holders hh
  exact names_locate (tree_mem_of_mem_holders hh) hfile (hstands.methods m hm)

end SourceSet

/-! ## Diagnostics -/

namespace Diagnostic

variable {generators : List Generator} {files : List (String × String)} {evaluator : Evaluator}

open SourceSet

/-- What is said about an enum behind the enums `earlier` points at it, at a type around it or at
one of its members. -/
theorem points_of_enum {settings : EnumSettings} {earlier later : List LocatedEnum}
    {e : LocatedEnum} {d : Diagnostic} (hsplit : (ofFiles files).1.enums = earlier ++ e :: later)
    (hd : (e.outcome evaluator earlier).diagnostic? settings (ofFiles files).1 e = some d) :
    d.Points generators (ofFiles files).1 evaluator := by
  have he : e ∈ (ofFiles files).1.enums := by simp [hsplit]
  cases houtcome : e.outcome evaluator earlier with
  | hidden | extended => simp [houtcome, EnumOutcome.diagnostic?] at hd
  | malformed error =>
    have hblames := EnumSite.blames_of_access (LocatedEnum.access_of_outcome_eq_malformed houtcome)
    rw [houtcome] at hd
    cases hd
    exact .malformed he hblames (names_blamed he hblames) rfl
  | repeated first =>
    obtain ⟨before, kept, between, rfl, hfirst, ⟨own, hown, hpath⟩, hbefore⟩ :=
      LocatedEnum.exists_of_outcome_eq_repeated houtcome
    have hkept : kept ∈ (ofFiles files).1.enums := by simp [hsplit]
    rw [houtcome, EnumOutcome.diagnostic?] at hd
    rw [← (LocatedEnum.parts_of_target? hown).2.2.1] at hd
    cases hpolicy : settings.duplicatePaths with
    | silent => simp [hpolicy] at hd
    | warn =>
      rw [hpolicy] at hd
      cases hd
      exact .repeated hsplit hfirst hown hpath (hpath ▸ hbefore) (names_enum he) rfl
        (names_target hkept hfirst) rfl
  | unresolved t failure =>
    obtain ⟨ht, hfailure⟩ := LocatedEnum.target?_of_outcome_eq_unresolved houtcome
    obtain ⟨htree, hdecl, -⟩ := LocatedEnum.parts_of_target? ht
    have hmember := EnumDecl.member_of_ordinals hfailure
    obtain ⟨text, hfile, -, henumerates⟩ := exists_text_of_mem_enums he
    obtain ⟨x, hquoted⟩ := henumerates failure.member hmember
    rw [houtcome] at hd
    cases hd
    rw [EnumTarget.failureDiagnostic, htree, hdecl]
    exact .unresolved he hfailure hmember hquoted
      (marks_locate (tree_mem_of_mem_enums he) hfile hquoted.spells) rfl

/-- What is said about a holder points at it or at one of its methods. -/
theorem points_of_holder {settings : CleanupSettings} {h : Holder} {taken : List String}
    {d : Diagnostic} (hg : .cleanup settings ∈ generators)
    (hh : h ∈ (ofFiles files).1.holders settings)
    (hd : (HolderOutcome.ofHolder settings taken h).diagnostic? settings (ofFiles files).1 h =
      some d) : d.Points generators (ofFiles files).1 evaluator := by
  have hfits : HolderOutcome.Fits settings taken h (HolderOutcome.ofHolder settings taken h) :=
    HolderOutcome.fits_ofHolder (isValidHint_of_mem_holders hh)
  generalize HolderOutcome.ofHolder settings taken h = outcome at hd hfits
  cases hfits with
  | idle | published => cases hd
  | notPartial _ hhead =>
    cases hd
    exact .holderNotPartial hg hh hhead (names_holder hh) rfl
  | containerNotPartial _ _ hsplit _ ht =>
    cases hd
    exact .containerNotPartial hg hh (by simp [hsplit]) ht (names_holder hh) rfl
  | hookDefined _ _ _ hsplit _ htakes =>
    cases hd
    exact .hookDefined hg hh (by simp [hsplit]) htakes (names_method hh (by simp [hsplit])) rfl
  | refused =>
    cases hd
    exact .holderHint hg hh (names_holder hh) rfl

end Diagnostic

namespace Generator

/-- Every diagnostic of a run over files, whether they can all be read or not, points at what it is
about, and so do its primary labels. -/
theorem diagnostics_point (files : List (String × String)) (generators : List Generator)
    (evaluator : Evaluator) {d : Diagnostic}
    (hd : d ∈ (run generators (SourceSet.ofFiles files).1 evaluator).diagnostics) :
    d.IsAnchored ∧ d.Points generators (SourceSet.ofFiles files).1 evaluator := by
  have hpoints : d.Points generators (SourceSet.ofFiles files).1 evaluator := by
    cases origin_of_mem_diagnostics hd with
    | enum hg hsplit hd => exact Diagnostic.points_of_enum hsplit hd
    | enumHint he ht => exact .enumHint he (SourceSet.names_target he ht) rfl
    | holder hg hh hd => exact Diagnostic.points_of_holder hg hh hd
  exact ⟨hpoints.isAnchored, hpoints⟩

/-- A file that cannot be read, and one with an enum that is public and internal. -/
def unreadableAndContradictory : List (String × String) :=
  [("A.cs", "enum"), ("B.cs", "public internal enum E\x7b\x7d")]

/-- What is said about the enum, at its name in the second file. -/
def contradictoryDiagnostic : Diagnostic :=
  .malformedDeclaration ⟨⟨1⟩, ⟨1, 22, 21⟩, ⟨1, 23, 22⟩⟩ "E"
    "declares both 'public' and 'internal'"

theorem diagnostics_point_contradictory :
    let set := (SourceSet.ofFiles unreadableAndContradictory).1
    contradictoryDiagnostic ∈ (run (ofSettings {}) set EnumDecl.constantText).diagnostics ∧
      contradictoryDiagnostic.IsAnchored ∧
      contradictoryDiagnostic.Points (ofSettings {}) set EnumDecl.constantText := by
  have hd : contradictoryDiagnostic ∈ (run (ofSettings {})
      (SourceSet.ofFiles unreadableAndContradictory).1 EnumDecl.constantText).diagnostics := by
    decide +kernel
  exact ⟨hd, diagnostics_point _ _ _ hd⟩

end Generator

end DeclGen
