import DeclGen.Proofs.EnumNames.Unit
import DeclGen.Proofs.Cleanup.Accounting
import DeclGen.Proofs.Generator
import DeclGen.Proofs.Runs

/-!
# The names of all units of a run

Each unit of a run is accepted where the names of the units before it are taken, so all names are
different plain file names. The generators that settings enable mark them as generated.

## Main statements

* `Generator.accepts_run`: the units of a run are
* `Generator.isGenerated_of_mem_units`: how their names end
-/

namespace DeclGen

open Publication

variable {set : SourceSet} {evaluator : Evaluator} {taken : List String}

/-- There is one unit at most, and only where its name is not taken. -/
theorem EnumNames.accepts_contribution (settings : EnumSettings) :
    Accepts taken (contribution settings set evaluator taken).units := by
  have hnone {α : Type} (l : List α) : l.flatMap (fun _ => ([] : List PublishedUnit)) = [] := by
    simp
  have hunits : (contribution settings set evaluator taken).units =
      (conclusion settings set taken (extensions set evaluator)).units := by
    simp [contribution, List.flatMap_map, EnumVerdict.units_contribution,
      EnumVerdict.units_target, hnone]
  rw [hunits]
  cases extensions set evaluator with
  | nil => exact trivial
  | cons x xs =>
    have hpublishing : (conclusion settings set taken (x :: xs)).units =
        (publishing settings set taken (x :: xs)).units := by
      simp [conclusion, armEvents, List.flatMap_map, hnone]
    rw [hpublishing, publishing]
    split
    next haccepted => exact ⟨haccepted, trivial⟩
    next => split <;> exact trivial
    next => exact trivial

/-- A holder leaves a unit only where nothing stands against publishing it. -/
theorem HolderOutcome.refusal?_of_unit? {settings : CleanupSettings} {h : Holder}
    {u : PublishedUnit} (hu : (ofHolder settings taken h).unit? = some u) :
    refusal? taken u.hint = none := by
  obtain rfl := eq_of_unit? hu
  unfold ofHolder at hu
  split at hu
  next => cases hu
  next =>
    split at hu
    next o ho =>
      rw [unit?_of_obstacle? ho] at hu
      cases hu
    next =>
      split at hu
      next haccepted => exact haccepted
      next => cases hu

/-- The name of each unit is taken for the holders behind it. -/
theorem HolderOutcome.accepts_ofHolders (settings : CleanupSettings) (hs : List Holder) :
    Accepts taken ((ofHolders settings taken hs).filterMap (·.2.unit?)) := by
  induction hs generalizing taken with
  | nil => exact trivial
  | cons h hs ih =>
    rw [ofHolders, List.filterMap_cons]
    cases hu : (ofHolder settings taken h).unit? with
    | none => simpa [hu] using ih
    | some u =>
      simpa [hu, Accepts, refusal?_of_unit? hu] using ih

namespace Generator

theorem accepts_contribution (g : Generator) :
    Accepts taken (g.contribution set evaluator taken).units := by
  cases g with
  | enumNames settings => exact EnumNames.accepts_contribution settings
  | cleanup settings =>
    change Accepts taken (Cleanup.contribution settings set taken).units
    rw [Cleanup.units_outcomes]
    exact HolderOutcome.accepts_ofHolders settings _
  | fixed unit =>
    rw [contribution]
    split
    next haccepted => exact ⟨haccepted, trivial⟩
    next => exact trivial

/-- The units of a run are accepted one after the other. -/
theorem accepts_run (generators : List Generator) (set : SourceSet) (evaluator : Evaluator) :
    Accepts [] (run generators set evaluator).units := by
  induction generators using List.reverseRecOn with
  | nil => exact trivial
  | append_singleton generators g ih =>
    rw [run_concat, units_runAfter, accepts_append]
    exact ⟨ih, g.accepts_contribution⟩

/-- The generators that settings enable mark their units as generated. -/
theorem isGenerated_of_mem_units {settings : Settings} {u : PublishedUnit}
    (hu : u ∈ (run (ofSettings settings) set evaluator).units) :
    ".g.cs".toList <:+ u.hint.toList := by
  obtain ⟨g, hg, taken, hu⟩ := exists_of_mem_units set evaluator hu
  rcases eq_of_mem_ofSettings hg with rfl | rfl
  · obtain rfl := EnumNames.eq_of_mem_units hu
    have hend : ".g.cs".toList <:+ EnumNames.hint.toList := by decide
    exact hend
  · obtain ⟨h, -, rfl⟩ := Cleanup.exists_of_mem_units hu
    have hend : ".g.cs".toList <:+ ".AutoDispose.g.cs".toList := by decide
    rw [Holder.hint, String.toList_append]
    exact hend.trans (List.suffix_append _ _)

end Generator

end DeclGen
