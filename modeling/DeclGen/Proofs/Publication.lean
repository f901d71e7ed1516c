import DeclGen.Publication

/-!
# Publications one after the other

What publications contain that are made of smaller ones, and which units can be published one after
the other.

## Main definitions

* `Publication.Accepts`: units that are accepted one after the other

## Main statements

* `Publication.Accepts.nodup`: their names are different
-/

namespace DeclGen

namespace Publication

@[simp] theorem units_concat (ps : List Publication) :
    (concat ps).units = ps.flatMap (·.units) := by
  induction ps with
  | nil => rfl
  | cons p ps ih => simp [← ih, concat]

@[simp] theorem diagnostics_concat (ps : List Publication) :
    (concat ps).diagnostics = ps.flatMap (·.diagnostics) := by
  induction ps with
  | nil => rfl
  | cons p ps ih => simp [← ih, concat]

@[simp] theorem units_ofEvent (level : LogLevel) (target message : String) :
    (ofEvent level target message).units = [] := rfl

@[simp] theorem diagnostics_ofEvent (level : LogLevel) (target message : String) :
    (ofEvent level target message).diagnostics = [] := rfl

@[simp] theorem units_ofDiagnostic (d : Diagnostic) : (ofDiagnostic d).units = [] := rfl

@[simp] theorem diagnostics_ofDiagnostic (d : Diagnostic) :
    (ofDiagnostic d).diagnostics = [d] := rfl

@[simp] theorem units_ofUnit (u : PublishedUnit) : (ofUnit u).units = [u] := rfl

@[simp] theorem diagnostics_ofUnit (u : PublishedUnit) : (ofUnit u).diagnostics = [] := rfl

@[simp] theorem hints_ofUnit (u : PublishedUnit) : (ofUnit u).hints = [u.hint] := rfl

@[simp] theorem units_report (p : Publication) (d : Diagnostic) :
    (p.report d).units = p.units := by
  simp [report]

@[simp] theorem diagnostics_report (p : Publication) (d : Diagnostic) :
    (p.report d).diagnostics = p.diagnostics ++ [d] := by
  simp [report]

@[simp] theorem hints_report (p : Publication) (d : Diagnostic) :
    (p.report d).hints = p.hints := by
  simp [hints]

@[simp] theorem units_empty : empty.units = [] := rfl

@[simp] theorem diagnostics_empty : empty.diagnostics = [] := rfl

/-! ## Accepted units -/

/-- Units can be published one after the other where names are taken. -/
def Accepts (taken : List String) : List PublishedUnit → Prop
  | [] => True
  | u :: us => refusal? taken u.hint = none ∧ Accepts (taken ++ [u.hint]) us

variable {taken : List String} {us vs : List PublishedUnit}

theorem refusal?_eq_none {name : String} :
    refusal? taken name = none ↔ isValidHint name = true ∧ name ∉ taken := by
  rw [refusal?]
  cases isValidHint name <;> simp

/-- The only thing that is in the way of an accepted name is that it is taken. -/
theorem refusal?_eq {name : String} (hvalid : isValidHint name = true) :
    refusal? taken name = if name ∈ taken then some (.duplicateHint name) else none := by
  simp [refusal?, hvalid]

theorem accepts_append : Accepts taken (us ++ vs) ↔
    Accepts taken us ∧ Accepts (taken ++ us.map (·.hint)) vs := by
  induction us generalizing taken with
  | nil => simp [Accepts]
  | cons u us ih => simp [Accepts, ih, and_assoc]

theorem Accepts.isValidHint (h : Accepts taken us) : ∀ u ∈ us, isValidHint u.hint = true := by
  induction us generalizing taken with
  | nil => rintro u ⟨⟩
  | cons u us ih => exact List.forall_mem_cons.mpr ⟨(refusal?_eq_none.mp h.1).1, ih h.2⟩

theorem Accepts.notMem (h : Accepts taken us) : ∀ u ∈ us, u.hint ∉ taken := by
  induction us generalizing taken with
  | nil => rintro u ⟨⟩
  | cons u us ih =>
    refine List.forall_mem_cons.mpr ⟨(refusal?_eq_none.mp h.1).2, fun v hv hin => ?_⟩
    exact ih h.2 v hv (List.mem_append_left _ hin)

/-- Units that are accepted one after the other have different names. -/
theorem Accepts.nodup (h : Accepts taken us) : (us.map (·.hint)).Nodup := by
  induction us generalizing taken with
  | nil => exact .nil
  | cons u us ih =>
    refine List.nodup_cons.mpr ⟨fun hin => ?_, ih h.2⟩
    obtain ⟨v, hv, heq⟩ := List.mem_map.mp hin
    exact h.2.notMem v hv (List.mem_append_right _ (List.mem_singleton.mpr heq))

end Publication

end DeclGen
