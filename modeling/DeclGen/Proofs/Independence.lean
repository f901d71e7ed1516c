import DeclGen.Proofs.Cleanup.Accounting
import DeclGen.Proofs.EnumNames.Unit
import DeclGen.Proofs.Runs

/-!
# Generators side by side

A run only grows: what was published or reported stays, in its place. Generators meet nowhere but in
the hint names that are taken, and no holder has the hint name of the enums, so the two generators
do next to each other what each of them does alone.

## Main statements

* `HolderOutcome.ofHolders_append`: names that no holder has make no difference to the holders
* `Generator.part_run_ofSettings`: the enabled generators leave what each of them leaves alone
* `Generator.run_side_by_side`: a run of both generators is their two runs, one behind the other
-/

namespace DeclGen

/-! ## Names that are taken -/

theorem Publication.refusal?_append {others taken : List String} {hint : String}
    (h : hint ∉ others) : refusal? (others ++ taken) hint = refusal? taken hint := by
  simp [refusal?, h]

theorem HolderOutcome.ofHolder_append (settings : CleanupSettings) {others taken : List String}
    {h : Holder} (hh : h.hint ∉ others) :
    ofHolder settings (others ++ taken) h = ofHolder settings taken h := by
  rw [ofHolder, ofHolder, Publication.refusal?_append hh]

/-- Taken names that no holder has make no difference to what becomes of the holders. -/
theorem HolderOutcome.ofHolders_append (settings : CleanupSettings) {others taken : List String}
    {hs : List Holder} (h : ∀ x ∈ hs, x.hint ∉ others) :
    ofHolders settings (others ++ taken) hs = ofHolders settings taken hs := by
  induction hs generalizing taken with
  | nil => rfl
  | cons x hs ih =>
    rw [ofHolders, ofHolders, ofHolder_append settings (h x List.mem_cons_self),
      List.append_assoc, ih fun y hy => h y (List.mem_cons_of_mem x hy)]

theorem Cleanup.contribution_append (settings : CleanupSettings) (set : SourceSet)
    {others taken : List String} (h : ∀ x ∈ set.holders settings, x.hint ∉ others) :
    contribution settings set (others ++ taken) = contribution settings set taken := by
  rw [contribution, contribution, HolderOutcome.ofHolders_append settings h]

/-- A holder's unit is never named as the unit of the enums is: they end differently. -/
theorem Holder.hint_ne_enumHint (h : Holder) : h.hint ≠ EnumNames.hint := by
  intro heq
  have hends : ".AutoDispose.g.cs".toList <:+ h.hint.toList := by
    rw [hint, String.toList_append]
    exact List.suffix_append ..
  rw [heq] at hends
  exact absurd hends (by decide)

/-! ## Runs -/

namespace Generator

variable (set : SourceSet) (evaluator : Evaluator)

/-- After the enums, only the name of their unit can be taken, and no holder has it. -/
theorem contribution_after_enums (enums : EnumSettings) (cleanup : CleanupSettings) :
    (Generator.cleanup cleanup).contribution set evaluator
        (runAfter set evaluator .empty (enumNames enums)).hints =
      (Generator.cleanup cleanup).contribution set evaluator [] := by
  have others : ∀ x ∈ set.holders cleanup,
      x.hint ∉ (runAfter set evaluator .empty (enumNames enums)).hints := by
    intro x _ hx
    obtain ⟨u, hu, heq⟩ := List.mem_map.mp hx
    rw [units_runAfter] at hu
    have hname : u.hint = EnumNames.hint :=
      congrArg PublishedUnit.hint (EnumNames.eq_of_mem_units (by simpa [contribution] using hu))
    exact x.hint_ne_enumHint (heq.symm.trans hname)
  have happend : Cleanup.contribution cleanup set
        ((runAfter set evaluator .empty (enumNames enums)).hints ++ []) =
      Cleanup.contribution cleanup set [] :=
    Cleanup.contribution_append cleanup set others
  rwa [List.append_nil] at happend

/-- A part of what the enabled generators leave is what each of them leaves alone. -/
theorem part_run_ofSettings {α : Type} (part : Publication → List α) (hempty : part .empty = [])
    (hpart : ∀ p g, part (runAfter set evaluator p g) =
      part p ++ part (g.contribution set evaluator p.hints)) (s : Settings) :
    part (run (ofSettings s) set evaluator) =
      (if s.enums.isEnabled then part (EnumNames.contribution s.enums set evaluator []) else []) ++
        if s.cleanup.isEnabled then part (Cleanup.contribution s.cleanup set []) else [] := by
  have hafter := contribution_after_enums set evaluator s.enums s.cleanup
  cases henums : s.enums.isEnabled with
  | true =>
    cases hcleanup : s.cleanup.isEnabled with
    | true =>
      simp only [ofSettings, henums, hcleanup, if_true, List.cons_append, List.nil_append, run,
        List.foldl_cons, List.foldl_nil, hpart, hafter, hempty]
      rfl
    | false =>
      simp only [ofSettings, henums, hcleanup, if_true, Bool.false_eq_true, if_false,
        List.append_nil, run, List.foldl_cons, List.foldl_nil, hpart, hempty, List.nil_append]
      rfl
  | false =>
    cases hcleanup : s.cleanup.isEnabled with
    | true =>
      simp only [ofSettings, henums, hcleanup, if_true, Bool.false_eq_true, if_false,
        List.nil_append, run, List.foldl_cons, List.foldl_nil, hpart, hempty]
      rfl
    | false =>
      simp only [ofSettings, henums, hcleanup, Bool.false_eq_true, if_false, List.append_nil, run,
        List.foldl_nil, hempty]

/-- With both generators enabled, a run publishes and reports what it does with the enums alone and
then what it does with the holders alone. However many generators a run has, one more behind them
leaves what they have published and reported as it is. -/
theorem run_side_by_side (settings : Settings) :
    let enabled := fun enums cleanup => run (ofSettings
      { enums := { settings.enums with isEnabled := enums }
        cleanup := { settings.cleanup with isEnabled := cleanup } }) set evaluator
    (enabled true true).units = (enabled true false).units ++ (enabled false true).units ∧
      (enabled true true).diagnostics =
        (enabled true false).diagnostics ++ (enabled false true).diagnostics ∧
      ∀ (generators : List Generator) (g : Generator),
        (run generators set evaluator).units <+: (run (generators ++ [g]) set evaluator).units ∧
          (run generators set evaluator).diagnostics <+:
            (run (generators ++ [g]) set evaluator).diagnostics := by
  intro enabled
  let enums : Generator := enumNames { settings.enums with isEnabled := true }
  let cleanup : Generator := .cleanup { settings.cleanup with isEnabled := true }
  have both : enabled true true =
      runAfter set evaluator (runAfter set evaluator .empty enums) cleanup := rfl
  have left : enabled true false = runAfter set evaluator .empty enums := rfl
  have right : enabled false true = runAfter set evaluator .empty cleanup := rfl
  have apart := contribution_after_enums set evaluator { settings.enums with isEnabled := true }
    { settings.cleanup with isEnabled := true }
  refine ⟨?_, ?_, fun generators g => ?_⟩
  · rw [both, left, right, units_runAfter, apart, units_runAfter _ _ .empty cleanup]
    rfl
  · rw [both, left, right, diagnostics_runAfter, apart, diagnostics_runAfter _ _ .empty cleanup]
    rfl
  · rw [run_concat, units_runAfter, diagnostics_runAfter]
    exact ⟨List.prefix_append .., List.prefix_append ..⟩

end Generator

end DeclGen
