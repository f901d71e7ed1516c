import DeclGen.Proofs.Publication
import Mathlib.Data.Finset.Insert
import Mathlib.Data.List.Induction

/-!
# One request after the other

A generator asks for one thing after the other: units to be published and diagnostics to be
reported. A ledger keeps the names that it has reserved beside what was published, and reserves
a name before it looks whether that was new. The two stay in step over all requests, refused ones
among them, so a ledger answers as the publication alone does.

## Main definitions

* `Request`: what a generator may ask for
* `Ledger`: a publication and the names that are reserved
* `Ledger.publish`, `Ledger.report`, `Ledger.after`: how a ledger answers
* `Ledger.InStep`: the reserved names are those of the units

## Main statements

* `Ledger.publish_eq`: a ledger in step answers as its publication does
* `Ledger.after_requests`: what holds after any requests
-/

namespace DeclGen

inductive Request where
  | publish (unit : PublishedUnit)
  | report (diagnostic : Diagnostic)
deriving DecidableEq, Repr, Inhabited

/-- The publication behind a request; a refused one leaves it as it is. -/
def Publication.answer (p : Publication) : Request → Publication
  | .publish u => (p.publish u).toOption.getD p
  | .report d => p.report d

/-- A publication and the names that are reserved. -/
structure Ledger where
  publication : Publication
  reserved : Finset String

namespace Ledger

/-- Nothing is published and no name is reserved. -/
def empty : Ledger := ⟨.empty, ∅⟩

/-- Publishes a unit. An accepted name is reserved in any case, and the unit is only added if the
name was not reserved before. -/
def publish (l : Ledger) (u : PublishedUnit) : Except PublishError Unit × Ledger :=
  if !isValidHint u.hint then (.error (.invalidHint u.hint), l)
  else
    let marked : Ledger := { l with reserved := insert u.hint l.reserved }
    if u.hint ∈ l.reserved then (.error (.duplicateHint u.hint), marked)
    else (.ok (), { marked with publication := l.publication ++ .ofUnit u })

def report (l : Ledger) (d : Diagnostic) : Ledger :=
  { l with publication := l.publication.report d }

def answer (l : Ledger) : Request → Ledger
  | .publish u => (l.publish u).2
  | .report d => l.report d

def after (requests : List Request) : Ledger := requests.foldl answer empty

variable {l : Ledger} {u : PublishedUnit}

theorem after_concat (requests : List Request) (r : Request) :
    after (requests ++ [r]) = (after requests).answer r :=
  List.foldl_concat ..

/-! ## One request -/

/-- The reserved names are those of the units, which were accepted one after the other. -/
structure InStep (l : Ledger) : Prop where
  mem_reserved : ∀ name, name ∈ l.reserved ↔ name ∈ l.publication.hints
  accepts : Publication.Accepts [] l.publication.units

theorem publish_invalid (hinvalid : isValidHint u.hint = false) :
    l.publish u = (.error (.invalidHint u.hint), l) := by
  rw [publish, if_pos (by simp [hinvalid])]

namespace InStep

theorem empty : InStep empty := ⟨fun name => by simp [Ledger.empty, Publication.hints], trivial⟩

theorem publish_duplicate (h : InStep l) (hvalid : isValidHint u.hint = true)
    (htaken : u.hint ∈ l.publication.hints) :
    l.publish u = (.error (.duplicateHint u.hint), l) := by
  have hreserved : u.hint ∈ l.reserved := (h.mem_reserved _).mpr htaken
  -- The name is reserved once more, which changes nothing.
  rw [Ledger.publish, if_neg (by simp [hvalid]), if_pos hreserved,
    Finset.insert_eq_of_mem hreserved]

theorem publish_new (h : InStep l) (hvalid : isValidHint u.hint = true)
    (hnew : u.hint ∉ l.publication.hints) :
    l.publish u = (.ok (), ⟨l.publication ++ .ofUnit u, insert u.hint l.reserved⟩) := by
  rw [Ledger.publish, if_neg (by simp [hvalid]),
    if_neg fun hreserved => hnew ((h.mem_reserved _).mp hreserved)]

end InStep

/-- What a ledger answers to a unit, by the name of the unit. -/
inductive Answers (l : Ledger) (u : PublishedUnit) : Prop where
  | invalid (hinvalid : isValidHint u.hint = false)
      (hanswer : l.publish u = (.error (.invalidHint u.hint), l))
  | duplicate (hvalid : isValidHint u.hint = true) (htaken : u.hint ∈ l.publication.hints)
      (hanswer : l.publish u = (.error (.duplicateHint u.hint), l))
  | published (hvalid : isValidHint u.hint = true) (hnew : u.hint ∉ l.publication.hints)
      (hanswer : l.publish u = (.ok (), ⟨l.publication ++ .ofUnit u, insert u.hint l.reserved⟩))

theorem InStep.answers (h : InStep l) (u : PublishedUnit) : Answers l u := by
  cases hvalid : isValidHint u.hint with
  | false => exact .invalid hvalid (publish_invalid hvalid)
  | true =>
    by_cases htaken : u.hint ∈ l.publication.hints
    · exact .duplicate hvalid htaken (h.publish_duplicate hvalid htaken)
    · exact .published hvalid htaken (h.publish_new hvalid htaken)

/-- A ledger in step answers as its publication does. -/
theorem InStep.publish_eq (h : InStep l) (u : PublishedUnit) :
    l.publish u =
      match l.publication.publish u with
      | .ok p => (.ok (), ⟨p, insert u.hint l.reserved⟩)
      | .error e => (.error e, l) := by
  cases h.answers u with
  | invalid hinvalid hanswer =>
    simp [hanswer, Publication.publish, Publication.refusal?, hinvalid]
  | duplicate hvalid htaken hanswer =>
    simp [hanswer, Publication.publish, Publication.refusal?, hvalid, htaken]
  | published hvalid hnew hanswer =>
    simp [hanswer, Publication.publish, Publication.refusal?, hvalid, hnew]

theorem InStep.publication_answer (h : InStep l) (r : Request) :
    (l.answer r).publication = l.publication.answer r := by
  cases r with
  | report d => rfl
  | publish u =>
    rw [Ledger.answer, Publication.answer, h.publish_eq]
    cases l.publication.publish u <;> rfl

/-- A request leaves a ledger in step. -/
theorem InStep.answer (h : InStep l) (r : Request) : InStep (l.answer r) := by
  cases r with
  | report d =>
    exact ⟨by simpa [Ledger.answer, report] using h.mem_reserved,
      by simpa [Ledger.answer, report] using h.accepts⟩
  | publish u =>
    rw [Ledger.answer]
    cases h.answers u with
    | invalid _ hanswer | duplicate _ _ hanswer =>
      rw [hanswer]
      exact h
    | published hvalid hnew hanswer =>
      rw [hanswer]
      refine ⟨fun name => ?_, ?_⟩
      · simp [h.mem_reserved, or_comm]
      · have hone : Publication.Accepts l.publication.hints [u] :=
          ⟨Publication.refusal?_eq_none.mpr ⟨hvalid, hnew⟩, trivial⟩
        exact Publication.accepts_append.mpr ⟨h.accepts, hone⟩

/-- Nothing is lost by a request. -/
theorem InStep.prefix_answer (h : InStep l) (r : Request) :
    l.publication.units <+: (l.answer r).publication.units ∧
      l.publication.diagnostics <+: (l.answer r).publication.diagnostics := by
  cases r with
  | report d => exact ⟨by simp [Ledger.answer, report], by simp [Ledger.answer, report]⟩
  | publish u =>
    rw [Ledger.answer]
    cases h.answers u with
    | invalid _ hanswer | duplicate _ _ hanswer =>
      rw [hanswer]
      exact ⟨List.prefix_rfl, List.prefix_rfl⟩
    | published _ _ hanswer =>
      rw [hanswer]
      exact ⟨List.prefix_append _ _, List.prefix_append _ _⟩

/-! ## One request after the other -/

theorem inStep_after (requests : List Request) : InStep (after requests) := by
  induction requests using List.reverseRecOn with
  | nil => exact .empty
  | append_singleton requests r ih =>
    rw [after_concat]
    exact ih.answer r

theorem publication_after (requests : List Request) :
    (after requests).publication = requests.foldl Publication.answer .empty := by
  induction requests using List.reverseRecOn with
  | nil => rfl
  | append_singleton requests r ih =>
    rw [after_concat, (inStep_after requests).publication_answer, ih, List.foldl_concat]

/-- Requests only add to what was published before. -/
theorem prefix_after (requests more : List Request) :
    (after requests).publication.units <+: (after (requests ++ more)).publication.units ∧
      (after requests).publication.diagnostics <+:
        (after (requests ++ more)).publication.diagnostics := by
  induction more using List.reverseRecOn with
  | nil =>
    rw [List.append_nil]
    exact ⟨List.prefix_rfl, List.prefix_rfl⟩
  | append_singleton more r ih =>
    rw [← List.append_assoc, after_concat]
    have hstep := (inStep_after (requests ++ more)).prefix_answer r
    exact ⟨ih.1.trans hstep.1, ih.2.trans hstep.2⟩

/-- A unit is found by its name. -/
theorem InStep.unit?_eq (h : InStep l) (hu : u ∈ l.publication.units) :
    l.publication.unit? u.hint = some u := by
  cases hfind : l.publication.unit? u.hint with
  | none => exact absurd (beq_self_eq_true u.hint) (List.find?_eq_none.mp hfind u hu)
  | some v =>
    have hname : v.hint = u.hint := by simpa using List.find?_some hfind
    exact congrArg some
      (List.inj_on_of_nodup_map h.accepts.nodup (List.mem_of_find?_eq_some hfind) hu hname)

/-- After any requests, refused ones among them, a ledger holds units with different accepted names,
and these are the names that are reserved. A unit is published exactly if its name is accepted and
is none of these; it is then the last unit, and nothing else changes but that its name is reserved.
A refused unit changes nothing at all, and a report adds its diagnostic and nothing else. What was
published stays as it is, so the first text of a name is kept. -/
theorem after_requests (requests : List Request) :
    let l := after requests
    l.publication.hints.Nodup ∧
      (∀ u ∈ l.publication.units, isValidHint u.hint = true) ∧
      (∀ name, name ∈ l.reserved ↔ name ∈ l.publication.hints) ∧
      -- A unit that is published.
      (∀ u, (l.publish u).1 = .ok () ↔ isValidHint u.hint = true ∧ u.hint ∉ l.publication.hints) ∧
      (∀ u, (l.publish u).1 = .ok () →
        (l.publish u).2.publication.units = l.publication.units ++ [u] ∧
        (l.publish u).2.publication.diagnostics = l.publication.diagnostics ∧
        (l.publish u).2.reserved = insert u.hint l.reserved) ∧
      -- A unit that is refused.
      (∀ u name, (l.publish u).1 = .error (.invalidHint name) ↔
        name = u.hint ∧ isValidHint u.hint = false) ∧
      (∀ u name, (l.publish u).1 = .error (.duplicateHint name) ↔
        name = u.hint ∧ isValidHint u.hint = true ∧ u.hint ∈ l.publication.hints) ∧
      (∀ u e, (l.publish u).1 = .error e → (l.publish u).2 = l) ∧
      -- A report.
      (∀ d, (l.report d).publication.diagnostics = l.publication.diagnostics ++ [d] ∧
        (l.report d).publication.units = l.publication.units ∧
        (l.report d).reserved = l.reserved) ∧
      -- What was published before.
      (∀ more, l.publication.units <+: (after (requests ++ more)).publication.units ∧
        l.publication.diagnostics <+: (after (requests ++ more)).publication.diagnostics ∧
        ∀ u ∈ l.publication.units, (after (requests ++ more)).publication.unit? u.hint = some u) ∧
      -- The publication alone answers the same.
      l.publication = requests.foldl Publication.answer .empty ∧
      ∀ u, (l.publish u).1 = (l.publication.publish u).map fun _ => () := by
  intro l
  have hstep : InStep l := inStep_after requests
  refine ⟨hstep.accepts.nodup, hstep.accepts.isValidHint, hstep.mem_reserved, fun u => ?_,
    fun u => ?_, fun u name => ?_, fun u name => ?_, fun u e => ?_, fun d => ⟨rfl, ?_, rfl⟩,
    fun more => ?_, publication_after requests, fun u => ?_⟩
  · cases hstep.answers u with
    | invalid hinvalid hanswer => simp [hanswer, hinvalid]
    | duplicate hvalid htaken hanswer => simp [hanswer, htaken]
    | published hvalid hnew hanswer => simp [hanswer, hvalid, hnew]
  · cases hstep.answers u with
    | invalid _ hanswer | duplicate _ _ hanswer => simp [hanswer]
    | published _ _ hanswer => simp [hanswer]
  · cases hstep.answers u with
    | invalid hinvalid hanswer => simp [hanswer, hinvalid, eq_comm]
    | duplicate hvalid _ hanswer | published hvalid _ hanswer => simp [hanswer, hvalid]
  · cases hstep.answers u with
    | invalid hinvalid hanswer => simp [hanswer, hinvalid]
    | duplicate hvalid htaken hanswer => simp [hanswer, hvalid, htaken, eq_comm]
    | published _ hnew hanswer => simp [hanswer, hnew]
  · cases hstep.answers u with
    | invalid _ hanswer | duplicate _ _ hanswer => simp [hanswer]
    | published _ _ hanswer => simp [hanswer]
  · simp [report]
  · obtain ⟨hunits, hdiagnostics⟩ := prefix_after requests more
    exact ⟨hunits, hdiagnostics, fun u hu => (inStep_after _).unit?_eq (hunits.subset hu)⟩
  · rw [hstep.publish_eq]
    cases l.publication.publish u <;> rfl

example :
    let text (t : String) : PublishedUnit := ⟨"A.cs", t⟩
    (after [.publish ⟨"A.txt", ""⟩, .publish (text "first"), .publish (text "second"),
      .publish ⟨"B.cs", ""⟩, .publish (text "third")]).publication.units =
        [text "first", ⟨"B.cs", ""⟩] := by decide +kernel

end Ledger

end DeclGen
