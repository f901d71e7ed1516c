import DeclGen.Generator
import DeclGen.Proofs.Publication
import Mathlib.Data.List.Basic
import Mathlib.Data.List.Induction

/-!
# How runs grow

A run puts together what its generators add, one behind the other. So whatever a run has left was
added by one of them.

## Main statements

* `Generator.units_runAfter`, `Generator.diagnostics_runAfter`: what one more generator adds
* `Generator.exists_of_mem_run`: what a run has left was added by a generator
* `Generator.exists_contribution_of_mem`: what a generator adds is part of what the run leaves
-/

namespace DeclGen

namespace Generator

variable (set : SourceSet) (evaluator : Evaluator)

theorem units_runAfter (p : Publication) (g : Generator) :
    (runAfter set evaluator p g).units =
      p.units ++ (g.contribution set evaluator p.hints).units := by
  simp [runAfter, summary]

theorem diagnostics_runAfter (p : Publication) (g : Generator) :
    (runAfter set evaluator p g).diagnostics =
      p.diagnostics ++ (g.contribution set evaluator p.hints).diagnostics := by
  simp [runAfter, summary]

theorem run_concat (generators : List Generator) (g : Generator) :
    run (generators ++ [g]) set evaluator =
      runAfter set evaluator (run generators set evaluator) g :=
  List.foldl_concat ..

/-- What a part of a run has left was added to this part by one of the generators. -/
theorem exists_of_mem_run {α : Type} (part : Publication → List α) (hempty : part .empty = [])
    (hpart : ∀ p g, part (runAfter set evaluator p g) =
      part p ++ part (g.contribution set evaluator p.hints))
    {generators : List Generator} {x : α} (hx : x ∈ part (run generators set evaluator)) :
    ∃ g ∈ generators, ∃ taken, x ∈ part (g.contribution set evaluator taken) := by
  induction generators using List.reverseRecOn with
  | nil =>
    rw [run, List.foldl_nil, hempty] at hx
    cases hx
  | append_singleton generators g ih =>
    rw [run_concat, hpart] at hx
    rcases List.mem_append.mp hx with hx | hx
    · obtain ⟨g', hg', hadded⟩ := ih hx
      exact ⟨g', List.mem_append_left _ hg', hadded⟩
    · exact ⟨g, List.mem_append_right _ (List.mem_singleton.mpr rfl), _, hx⟩

theorem exists_of_mem_units {generators : List Generator} {u : PublishedUnit}
    (hu : u ∈ (run generators set evaluator).units) :
    ∃ g ∈ generators, ∃ taken, u ∈ (g.contribution set evaluator taken).units :=
  exists_of_mem_run set evaluator (·.units) rfl (units_runAfter set evaluator) hu

theorem exists_of_mem_diagnostics {generators : List Generator} {d : Diagnostic}
    (hd : d ∈ (run generators set evaluator).diagnostics) :
    ∃ g ∈ generators, ∃ taken, d ∈ (g.contribution set evaluator taken).diagnostics :=
  exists_of_mem_run set evaluator (·.diagnostics) rfl
    (diagnostics_runAfter set evaluator) hd

/-- What a generator adds where the names before it are taken is part of what the run leaves. -/
theorem exists_contribution_of_mem {generators : List Generator} {g : Generator}
    (hg : g ∈ generators) : ∃ taken,
      (g.contribution set evaluator taken).units ⊆ (run generators set evaluator).units ∧
        (g.contribution set evaluator taken).diagnostics ⊆
          (run generators set evaluator).diagnostics := by
  induction generators using List.reverseRecOn with
  | nil => cases hg
  | append_singleton generators last ih =>
    rw [run_concat, units_runAfter, diagnostics_runAfter]
    rcases List.mem_append.mp hg with hg | hg
    · obtain ⟨taken, hunits, hdiagnostics⟩ := ih hg
      exact ⟨taken, List.subset_append_of_subset_left _ hunits,
        List.subset_append_of_subset_left _ hdiagnostics⟩
    · obtain rfl := List.mem_singleton.mp hg
      exact ⟨_, List.subset_append_right _ _, List.subset_append_right _ _⟩

end Generator

end DeclGen
