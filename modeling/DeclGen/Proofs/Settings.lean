import DeclGen.Proofs.Grammar.Headers
import DeclGen.Settings.Basic

/-!
# Accepted settings

The names in settings without a fault can be written into code: they are identifiers, and the
namespace is a dotted name.
-/

namespace DeclGen

open DeclGen.Grammar

namespace Settings

variable {x : List Char}

theorem isIdentifier_of_isName (h : isName x = true) : IsIdentifier x := by
  cases x with
  | nil => cases h
  | cons c x =>
    simp only [isName, Bool.and_eq_true, List.all_eq_true, Bool.not_eq_true'] at h
    exact .inl ⟨⟨h.1.1, h.1.2⟩, h.2⟩

theorem isDottedName_join {y : List Char} {ys : List (List Char)}
    (h : ∀ z ∈ y :: ys, isName z = true) : IsDottedName (Text.join '.' (y :: ys)) := by
  induction ys generalizing y with
  | nil => exact (isIdentifier_of_isName (h y (by simp))).isDottedName
  | cons z zs ih =>
    have hy := (isIdentifier_of_isName (h y (by simp))).isDottedName
    exact hy.append (ih fun u hu => h u (List.mem_cons_of_mem y hu))

theorem isDottedName_of_isDottedName (h : isDottedName x = true) : IsDottedName x := by
  obtain ⟨y, ys, hsplit⟩ := List.exists_cons_of_ne_nil (Text.splitAt_ne_nil '.' x)
  rw [← Text.join_splitAt '.' x, hsplit]
  refine isDottedName_join fun z hz => ?_
  rw [← hsplit] at hz
  exact List.all_eq_true.mp h z hz

/-- The names that settings write into code can be read back. -/
structure WellNamed (s : Settings) : Prop where
  namespaceName : IsDottedName s.enums.namespaceName.toList
  className : IsIdentifier s.enums.className.toList
  methodName : IsIdentifier s.enums.methodName.toList
  hook : IsIdentifier s.cleanup.hook.toList
  releaseMethod : IsIdentifier s.cleanup.releaseMethod.toList

theorem nameFault?_eq_none {key value : String} (h : nameFault? key value = none) :
    IsIdentifier value.toList := by
  rw [nameFault?] at h
  split at h
  next hname => exact isIdentifier_of_isName hname
  next => cases h

theorem wellNamed_of_fault? {s : Settings} (h : s.fault? = none) : s.WellNamed := by
  simp only [fault?, Option.orElse_eq_orElse, Option.orElse_eq_or, Option.or_eq_none_iff] at h
  obtain ⟨hspace, hclass, hmethod, -, hhook, hrelease, -⟩ := h
  refine ⟨?_, nameFault?_eq_none hclass, nameFault?_eq_none hmethod, nameFault?_eq_none hhook,
    nameFault?_eq_none hrelease⟩
  by_cases hdotted : isDottedName s.enums.namespaceName.toList = true
  · exact isDottedName_of_isDottedName hdotted
  · simp [namespaceFault?, hdotted] at hspace

end Settings

end DeclGen
