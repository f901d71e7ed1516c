import DeclGen.Proofs.Distinct
import DeclGen.Proofs.Renumbering
import DeclGen.Proofs.SourceSet.Entries
import Mathlib.Logic.Equiv.Basic

/-!
# The order of files

The order of the files decides which of two enums with one path is kept, and which of two holders
with one hint name. Where there are no such pairs, it decides nothing else than the order of what
is published and reported, and the numbers of the files.

## Main definitions

* `SourceSet.Reorders`: the same trees of the same files in another order
* `EnumNames.unitOf`, `Generator.methods`, `Generator.overrides`: what a run publishes, in parts

## Main statements

* `exists_perm_zipIdx`: the numbers of entries in another order
* `SourceSet.reorders_ofFiles`: other orders of files only change numbers and the order of trees
* `Generator.run_of_perm`: a run on the same files in another order
-/

namespace DeclGen

/-! ## Numbers -/

section

variable {α : Type}

/-- The permutation of the numbers behind the first one. -/
def shiftNumbers (σ : Equiv.Perm Nat) : Equiv.Perm Nat where
  toFun
    | 0 => 0
    | i + 1 => σ i + 1
  invFun
    | 0 => 0
    | i + 1 => σ.symm i + 1
  left_inv := by rintro (_ | i) <;> simp
  right_inv := by rintro (_ | i) <;> simp

/-- If a list is put in another order, its entries only get other numbers. -/
theorem exists_perm_zipIdx {as bs : List α} (h : as.Perm bs) :
    ∃ σ : Equiv.Perm Nat, (as.zipIdx.map fun p => (p.1, σ p.2)).Perm bs.zipIdx := by
  induction h with
  | nil => exact ⟨Equiv.refl Nat, .nil⟩
  | cons a _ ih =>
    obtain ⟨σ, hσ⟩ := ih
    refine ⟨shiftNumbers σ, ?_⟩
    have hback := (hσ.map fun p : α × Nat => (p.1, p.2 + 1)).cons (a, 0)
    rw [List.map_map] at hback
    rw [List.zipIdx_cons, List.zipIdx_cons, List.zipIdx_succ, List.zipIdx_succ, List.map_cons,
      List.map_map]
    exact hback
  | swap a b cs =>
    refine ⟨Equiv.swap 0 1, ?_⟩
    have hback : (cs.zipIdx 2).map (fun p => (p.1, Equiv.swap 0 1 p.2)) = cs.zipIdx 2 := by
      refine (List.map_congr_left fun p hp => ?_).trans (List.map_id _)
      have hle := (List.mem_zipIdx hp).1
      have hfixed : Equiv.swap 0 1 p.2 = p.2 :=
        Equiv.swap_apply_of_ne_of_ne (by omega) (by omega)
      rw [hfixed]
      rfl
    simp only [List.zipIdx_cons, List.map_cons, hback]
    exact .swap ..
  | trans _ _ ih₁ ih₂ =>
    obtain ⟨σ₁, h₁⟩ := ih₁
    obtain ⟨σ₂, h₂⟩ := ih₂
    refine ⟨σ₁.trans σ₂, ?_⟩
    have hfirst := h₁.map fun p : α × Nat => (p.1, σ₂ p.2)
    rw [List.map_map] at hfirst
    exact hfirst.trans h₂

/-- Under its new number stands the entry that stood under the old one. -/
theorem getElem?_of_perm_zipIdx {as bs : List α} {σ : Equiv.Perm Nat}
    (h : (as.zipIdx.map fun p => (p.1, σ p.2)).Perm bs.zipIdx) (i : Nat) : bs[σ i]? = as[i]? := by
  refine Option.ext fun a => ?_
  have hentry (cs : List α) (j : Nat) : cs[j]? = some a ↔ (a, j) ∈ cs.zipIdx := by
    rw [List.mem_zipIdx_iff_getElem?]
  rw [hentry, hentry, ← h.mem_iff, List.mem_map]
  constructor
  · rintro ⟨⟨b, j⟩, hmem, heq⟩
    obtain ⟨rfl, hj⟩ := Prod.mk.inj heq
    rwa [← σ.injective hj]
  · intro hmem
    exact ⟨(a, i), hmem, rfl⟩

end

namespace SourceSet

def onFiles (σ : Equiv.Perm Nat) (id : FileId) : FileId := ⟨σ id.index⟩

/-- The same files under the same numbers, and the same trees in another order. -/
structure Reorders (set set' : SourceSet) : Prop where
  registry : set'.registry = set.registry
  trees : set.trees.Perm set'.trees

theorem entryTree?_onFiles (σ : Equiv.Perm Nat) (entry : (String × String) × Nat) :
    entryTree? (entry.1, σ entry.2) = (entryTree? entry).map (·.renumber (onFiles σ)) := by
  rw [entryTree?, entryTree?, Option.map_map]
  rfl

theorem entryFault?_onFiles (σ : Equiv.Perm Nat) (entry : (String × String) × Nat) :
    entryFault? (entry.1, σ entry.2) = (entryFault? entry).map (·.renumber (onFiles σ)) := by
  rw [entryFault?, entryFault?]
  cases CompilationUnit.parse entry.1.2 <;> rfl

/-- The sources with the trees under new numbers, in the registry of other sources. -/
def renumbered (set : SourceSet) (ρ : FileId → FileId) (registry : Registry) : SourceSet :=
  ⟨registry, set.trees.map (·.renumber ρ)⟩

section

variable {files files' : List (String × String)} {σ : Equiv.Perm Nat}
  (h : (files.zipIdx.map fun p => (p.1, σ p.2)).Perm files'.zipIdx)

include h

theorem file?_onFiles (id : FileId) :
    (ofFiles files').1.registry.file? (onFiles σ id) = (ofFiles files).1.registry.file? id := by
  rw [file?_ofFiles, file?_ofFiles, onFiles, getElem?_of_perm_zipIdx h]

/-- Files in another order have the same trees under new numbers, in another order. -/
theorem reorders_ofFiles :
    ((ofFiles files).1.renumbered (onFiles σ) (ofFiles files').1.registry).Reorders
      (ofFiles files').1 := by
  refine ⟨rfl, ?_⟩
  have hentries := h.filterMap entryTree?
  rw [List.filterMap_map] at hentries
  rw [renumbered, trees_ofFiles, trees_ofFiles, List.map_filterMap]
  simp only [← entryTree?_onFiles]
  exact hentries

theorem faults_onFiles :
    ((ofFiles files).2.map (·.renumber (onFiles σ))).Perm (ofFiles files').2 := by
  have hentries := h.filterMap entryFault?
  rw [List.filterMap_map] at hentries
  rw [faults_ofFiles, faults_ofFiles, List.map_filterMap]
  simp only [← entryFault?_onFiles]
  exact hentries

theorem renumbers_onFiles :
    (ofFiles files).1.Renumbers (onFiles σ)
      ((ofFiles files).1.renumbered (onFiles σ) (ofFiles files').1.registry) :=
  ⟨rfl, fun tree _ => file?_onFiles h tree.file⟩

end

namespace Reorders

variable {set set' : SourceSet} (h : set.Reorders set')

include h

theorem enums : set.enums.Perm set'.enums := h.trees.flatMap_right _

theorem holders (settings : CleanupSettings) :
    (set.holders settings).Perm (set'.holders settings) := h.trees.flatMap_right _

theorem distinct {settings : CleanupSettings} (hd : set.Distinct settings) :
    set'.Distinct settings :=
  ⟨(((h.enums.filterMap _).map _).nodup_iff).mp hd.paths,
    (((h.holders settings).map _).nodup_iff).mp hd.hints⟩

theorem enumDiagnostic? (settings : EnumSettings) (e : LocatedEnum) (o : EnumOutcome) :
    o.diagnostic? settings set' e = o.diagnostic? settings set e := by
  obtain ⟨registry, trees⟩ := set
  obtain ⟨registry', trees'⟩ := set'
  obtain rfl := h.registry
  cases o <;> rfl

theorem holderDiagnostic? (settings : CleanupSettings) (x : Holder) (o : HolderOutcome) :
    o.diagnostic? settings set' x = o.diagnostic? settings set x := by
  obtain ⟨registry, trees⟩ := set
  obtain ⟨registry', trees'⟩ := set'
  obtain rfl := h.registry
  cases o <;> rfl

end Reorders

end SourceSet

/-! ## Enums -/

namespace EnumNames

variable {set set' : SourceSet} {settings : EnumSettings} {cleanup : CleanupSettings}

theorem extensions_of_distinct (hd : set.Distinct cleanup) (evaluator : Evaluator) :
    extensions set evaluator = set.enums.filterMap fun e => (e.outcome evaluator []).method? := by
  rw [extensions_eq, outcomes_of_nodup hd.paths, List.filterMap_map]
  rfl

/-- What is reported about distinct enums is reported about each of them alone. -/
theorem diagnostics_of_distinct (hd : set.Distinct cleanup) (evaluator : Evaluator) :
    (contribution settings set evaluator []).diagnostics.Perm
      (set.enums.filterMap fun e => (e.outcome evaluator []).diagnostic? settings set e) := by
  have hfree : hint ∉ ([] : List String) := List.not_mem_nil
  have hparts := List.filter_append_perm (·.2.isUnresolved) (outcomes set evaluator)
  have hall := (List.perm_append_comm.trans hparts).filterMap
    fun p => p.2.diagnostic? settings set p.1
  rw [diagnostics_outcomes settings set evaluator hfree, ← List.filterMap_append]
  refine hall.trans (.of_eq ?_)
  rw [outcomes_of_nodup hd.paths, List.filterMap_map]
  rfl

end EnumNames

/-! ## Holders -/

namespace Cleanup

variable {set : SourceSet} {settings : CleanupSettings}

theorem outcomes_of_distinct (hd : set.Distinct settings) :
    HolderOutcome.ofHolders settings [] (set.holders settings) =
      (set.holders settings).map fun h => (h, HolderOutcome.ofHolder settings [] h) :=
  HolderOutcome.ofHolders_of_nodup (fun _ _ => List.not_mem_nil) hd.hints

theorem units_of_distinct (hd : set.Distinct settings) :
    (contribution settings set []).units =
      (set.holders settings).filterMap fun h => (HolderOutcome.ofHolder settings [] h).unit? := by
  rw [units_outcomes, outcomes_of_distinct hd, List.filterMap_map]
  rfl

theorem diagnostics_of_distinct (hd : set.Distinct settings) :
    (contribution settings set []).diagnostics = (set.holders settings).filterMap fun h =>
      (HolderOutcome.ofHolder settings [] h).diagnostic? settings set h := by
  rw [diagnostics_outcomes, outcomes_of_distinct hd, List.filterMap_map]
  rfl

end Cleanup

namespace SourceSet.Reorders

variable {set set' : SourceSet} {settings : CleanupSettings} (h : set.Reorders set')
  (hd : set.Distinct settings)

include h hd

theorem extensions (evaluator : Evaluator) :
    (EnumNames.extensions set evaluator).Perm (EnumNames.extensions set' evaluator) := by
  rw [EnumNames.extensions_of_distinct hd, EnumNames.extensions_of_distinct (h.distinct hd)]
  exact h.enums.filterMap _

theorem diagnostics_enums (enums : EnumSettings) (evaluator : Evaluator) :
    (EnumNames.contribution enums set evaluator []).diagnostics.Perm
      (EnumNames.contribution enums set' evaluator []).diagnostics := by
  have hleft : (EnumNames.contribution enums set evaluator []).diagnostics.Perm _ :=
    EnumNames.diagnostics_of_distinct hd evaluator
  have hright : (EnumNames.contribution enums set' evaluator []).diagnostics.Perm _ :=
    EnumNames.diagnostics_of_distinct (h.distinct hd) evaluator
  simp only [h.enumDiagnostic?] at hright
  exact hleft.trans ((h.enums.filterMap _).trans hright.symm)

theorem units_holders :
    (Cleanup.contribution settings set []).units.Perm
      (Cleanup.contribution settings set' []).units := by
  rw [Cleanup.units_of_distinct hd, Cleanup.units_of_distinct (h.distinct hd)]
  exact (h.holders settings).filterMap _

theorem diagnostics_holders :
    (Cleanup.contribution settings set []).diagnostics.Perm
      (Cleanup.contribution settings set' []).diagnostics := by
  rw [Cleanup.diagnostics_of_distinct hd, Cleanup.diagnostics_of_distinct (h.distinct hd)]
  simp only [h.holderDiagnostic?]
  exact (h.holders settings).filterMap _

end SourceSet.Reorders

/-! ## Runs -/

def EnumNames.unitOf (settings : EnumSettings) (methods : List EnumExtension) :
    List PublishedUnit :=
  if methods.isEmpty then [] else [⟨hint, EnumExtension.render settings methods⟩]

namespace Generator

def methods (settings : Settings) (set : SourceSet) (evaluator : Evaluator) :
    List EnumExtension :=
  if settings.enums.isEnabled then EnumNames.extensions set evaluator else []

def overrides (settings : Settings) (set : SourceSet) : List PublishedUnit :=
  if settings.cleanup.isEnabled then (Cleanup.contribution settings.cleanup set []).units else []

/-- A run publishes one unit with all methods, and the units for holders behind it. -/
theorem units_run_ofSettings (settings : Settings) (set : SourceSet) (evaluator : Evaluator) :
    (run (ofSettings settings) set evaluator).units =
      EnumNames.unitOf settings.enums (methods settings set evaluator) ++
        overrides settings set := by
  have hparts := part_run_ofSettings set evaluator (·.units) rfl (units_runAfter set evaluator)
    settings
  refine hparts.trans (congrArg (· ++ overrides settings set) ?_)
  have hfree : EnumNames.hint ∉ ([] : List String) := List.not_mem_nil
  cases henums : settings.enums.isEnabled with
  | true =>
    simp only [if_true, methods, henums, EnumNames.unitOf, EnumNames.extensions_eq,
      EnumNames.units_outcomes settings.enums set evaluator hfree, EnumExtension.render_eq_join,
      EnumNames.hint]
  | false => simp [methods, henums, EnumNames.unitOf]

/-- The diagnostics of each generator are permuted, and so are those of the whole run. -/
theorem diagnostics_of_reorders {set set' : SourceSet} (h : set.Reorders set')
    {settings : Settings} (hd : set.Distinct settings.cleanup) (evaluator : Evaluator) :
    (run (ofSettings settings) set evaluator).diagnostics.Perm
      (run (ofSettings settings) set' evaluator).diagnostics := by
  have hparts (set : SourceSet) := part_run_ofSettings set evaluator (·.diagnostics) rfl
    (diagnostics_runAfter set evaluator) settings
  rw [hparts set, hparts set']
  refine List.Perm.append ?_ ?_
  · cases settings.enums.isEnabled with
    | true => exact h.diagnostics_enums hd settings.enums evaluator
    | false => exact .nil
  · cases settings.cleanup.isEnabled with
    | true => exact h.diagnostics_holders hd
    | false => exact .nil

end Generator

namespace SourceSet.Renumbers

variable {ρ : FileId → FileId} {set set' : SourceSet} (h : set.Renumbers ρ set')

include h

/-- Neither the paths nor their order depend on the numbers of the files. -/
theorem visiblePaths : set'.visiblePaths = set.visiblePaths := by
  have htarget (e : LocatedEnum) :
      (e.renumber ρ).target? = e.target?.map (·.renumber ρ) := by
    have hsite : (e.renumber ρ).site = e.site := rfl
    unfold LocatedEnum.target?
    rw [hsite]
    cases e.site.access with
    | error error => rfl
    | ok visibility? => cases visibility? <;> rfl
  rw [SourceSet.visiblePaths, SourceSet.visiblePaths, h.enums, List.filterMap_map]
  simp only [Function.comp_def, htarget, ← List.map_filterMap, List.map_map]
  rfl

theorem distinct {settings : CleanupSettings} (hd : set.Distinct settings) :
    set'.Distinct settings := by
  refine ⟨h.visiblePaths ▸ hd.paths, ?_⟩
  rw [h.holders, List.map_map]
  exact hd.hints

theorem overrides (settings : Settings) :
    Generator.overrides settings set' = Generator.overrides settings set := by
  rw [Generator.overrides, Generator.overrides, Cleanup.contribution_renumber h]
  rfl

theorem methods (settings : Settings) (evaluator : Evaluator) :
    Generator.methods settings set' evaluator = Generator.methods settings set evaluator := by
  rw [Generator.methods, Generator.methods, EnumNames.extensions_renumber h]

end SourceSet.Renumbers

namespace Generator

open SourceSet

variable {files files' : List (String × String)}

/-- If no two visible enums of some files have one path and no two holders have one hint name, and
the files are put in another order, a run emits the same methods in one unit and the same units for
holders, and the same is reported, always up to the order and the numbers of the files. -/
theorem run_of_perm (hperm : files.Perm files') (settings : Settings) (evaluator : Evaluator)
    (hd : (ofFiles files).1.Distinct settings.cleanup) :
    let read := ofFiles files
    let read' := ofFiles files'
    let reported := fun set => (run (ofSettings settings) set evaluator).diagnostics
    (∀ set, (run (ofSettings settings) set evaluator).units =
        EnumNames.unitOf settings.enums (methods settings set evaluator) ++
          overrides settings set) ∧
      (methods settings read.1 evaluator).Perm (methods settings read'.1 evaluator) ∧
      (overrides settings read.1).Perm (overrides settings read'.1) ∧
      ∃ σ : Equiv.Perm Nat,
        (∀ id, read'.1.registry.file? (onFiles σ id) = read.1.registry.file? id) ∧
          (read.2.map (·.renumber (onFiles σ))).Perm read'.2 ∧
          ((reported read.1).map (·.renumber (onFiles σ))).Perm (reported read'.1) := by
  intro read read' reported
  obtain ⟨σ, hσ⟩ := exists_perm_zipIdx hperm
  have hnumbers := renumbers_onFiles hσ
  have horder := reorders_ofFiles hσ
  have hdistinct := hnumbers.distinct hd
  refine ⟨fun set => units_run_ofSettings settings set evaluator, ?_, ?_, σ, file?_onFiles hσ,
    faults_onFiles hσ, ?_⟩
  · rw [← hnumbers.methods]
    unfold methods
    cases settings.enums.isEnabled with
    | true => exact horder.extensions hdistinct evaluator
    | false => exact .nil
  · rw [← hnumbers.overrides]
    unfold overrides
    cases settings.cleanup.isEnabled with
    | true => exact horder.units_holders hdistinct
    | false => exact .nil
  · have hrun := congrArg (·.diagnostics) (run_renumber hnumbers (ofSettings settings) evaluator)
    have hreported := diagnostics_of_reorders horder hdistinct evaluator
    rwa [hrun] at hreported

def enumAndHolder : List (String × String) :=
  [("E.cs", "public enum E\x7bA\x7d"),
    ("P.cs", "partial class P:SystemBase\x7bNativeList<int> a;\x7d")]

theorem run_of_perm_enumAndHolder :
    enumAndHolder.Perm enumAndHolder.reverse ∧ (ofFiles enumAndHolder).1.Distinct {} ∧
      (methods {} (ofFiles enumAndHolder).1 EnumDecl.constantText).Perm
        (methods {} (ofFiles enumAndHolder.reverse).1 EnumDecl.constantText) ∧
      (overrides {} (ofFiles enumAndHolder).1).Perm
        (overrides {} (ofFiles enumAndHolder.reverse).1) := by
  have hperm : enumAndHolder.Perm enumAndHolder.reverse := (List.reverse_perm _).symm
  have hdistinct : (ofFiles enumAndHolder).1.Distinct {} := by decide +kernel
  obtain ⟨-, hmethods, hoverrides, -⟩ :=
    run_of_perm hperm {} EnumDecl.constantText hdistinct
  exact ⟨hperm, hdistinct, hmethods, hoverrides⟩

end Generator

end DeclGen
