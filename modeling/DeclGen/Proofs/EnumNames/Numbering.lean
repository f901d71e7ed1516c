import DeclGen.Proofs.Constant.Equations

/-!
# Ordinals and folded values

Ordinals are counted in one pass from left to right and are never truncated; folding goes back to
the nearest initializer and truncates. The ordinal of a member is therefore the value that folding
finds for it up to truncation, and is that value exactly if it lies in the range of the underlying
type.

## Main definitions

* `Fold.CountsOn`: a value that stands a number of members behind an initializer

## Main statements

* `Numbering.ordinals_ofMembers_succ`: an ordinal, from the one before it
* `EnumDecl.ordinal_folds_truncated`: what the name of a member folds to
* `EnumDecl.not_ordinal_eq_folded`: an ordinal that is not what the name folds to
-/

namespace DeclGen

/-! ## One pass from left to right -/

namespace Numbering

variable {evaluate : Expr → Except FoldError String} {previous : Option Int}
  {ms : List EnumMember} {o : Ordinal}

theorem ordinals_ofMembers_zero (h : (ofMembers evaluate previous ms).ordinals[0]? = some o) :
    ms[0]? = some o.member ∧ Ordinal.value? evaluate previous o.member = .ok o.value := by
  unfold ofMembers at h
  split at h
  · simp at h
  split at h
  · simp at h
  · rename_i v hv
    obtain rfl : _ = o := by simpa using h
    exact ⟨rfl, hv⟩

/-- An ordinal follows from the one before it and the member itself. -/
theorem ordinals_ofMembers_succ {k : Nat}
    (h : (ofMembers evaluate previous ms).ordinals[k + 1]? = some o) :
    ∃ p, (ofMembers evaluate previous ms).ordinals[k]? = some p ∧ ms[k + 1]? = some o.member ∧
      Ordinal.value? evaluate (some p.value) o.member = .ok o.value := by
  induction ms generalizing previous k with
  | nil => simp [ofMembers] at h
  | cons m ms ih =>
    rw [ofMembers] at h ⊢
    split at h
    · simp at h
    rename_i v hv
    simp only [List.getElem?_cons_succ] at h ⊢
    cases k with
    | zero =>
      obtain ⟨hmember, hvalue⟩ := ordinals_ofMembers_zero h
      exact ⟨⟨m, v⟩, rfl, hmember, hvalue⟩
    | succ k => exact ih h

end Numbering

/-! ## Counting on -/

namespace Fold

variable {d : EnumDecl} {i a : Nat} {v w : Int} {e : Expr}

/-- The value is the index of a member without an initializer at or before it, or the value of the
nearest one, counted on without truncation. -/
inductive CountsOn (d : EnumDecl) (i : Nat) : Int → Prop where
  | index (none : anchor? d.members i = none) : CountsOn d i i
  | anchor {a : Nat} {e : Expr} {w : Int} (anchor : anchor? d.members i = some (a, e))
    (value : HasValue d a w) (fits : Constant.fits (w + (i - a : Nat)) = true) :
    CountsOn d i (w + (i - a : Nat))

theorem CountsOn.hasValue (h : CountsOn d i v) : HasValue d i (d.underlying.wrap v) := by
  cases h with
  | index none => exact .counted none
  | anchor anchor value fits =>
    exact (hasValue_iff_counted anchor).mpr ⟨_, value, fits, rfl⟩

/-- A member without an initializer counts on from the one before it, if both have the same anchor.
-/
theorem CountsOn.succ (h : CountsOn d i v) (same : anchor? d.members (i + 1) = anchor? d.members i)
    (fits : Constant.fits (v + 1) = true) : CountsOn d (i + 1) (v + 1) := by
  cases h with
  | index none =>
    have h := CountsOn.index (same.trans none)
    rwa [Int.natCast_add, Int.natCast_one] at h
  | @anchor a e w anchor value _ =>
    have hsub : (i + 1 - a : Nat) = i - a + 1 := Nat.succ_sub (anchor?_le anchor)
    have hcast : w + (i - a : Nat) + 1 = w + (i + 1 - a : Nat) := by
      rw [hsub, Int.natCast_add, Int.natCast_one, Int.add_assoc]
    rw [hcast] at fits ⊢
    exact .anchor (same.trans anchor) value fits

end Fold

namespace EnumDecl

open DeclGen.Fold

variable {d : EnumDecl} {m : EnumMember} {e : Expr} {v : Int} {i k : Nat}

/-- The text of an initializer is read back as the value it was written for. -/
theorem value?_of_constantText {c : Constant} (he : m.initializer = some e)
    (h : d.constantText e = .ok (toString (d.underlying.wrap c.value))) (previous : Option Int) :
    Ordinal.value? (d.constantText ·) previous m = .ok (d.underlying.wrap c.value) := by
  simp only [Ordinal.value?, he, h, Ordinal.ofText?_toString (d.underlying.fits_wrap c.value)]

/-- An initializer with an ordinal folds to it. -/
theorem countsOn_of_initializer {previous : Option Int} (hm : d.members[i]? = some m)
    (he : m.initializer = some e)
    (h : Ordinal.value? (d.constantText ·) previous m = .ok v) : CountsOn d i v := by
  have anchor : anchor? d.members i = some (i, e) := anchor?_of_initializer (by simp [hm, he])
  cases htext : d.constantText e with
  | error err => simp [Ordinal.value?, he, htext] at h
  | ok text =>
    obtain ⟨c, hfold, rfl⟩ := exists_of_constantText htext
    rw [value?_of_constantText he htext] at h
    cases h
    have value : HasValue d i (d.underlying.wrap c.value) :=
      (hasValue_iff_denotes anchor).mpr ⟨c, evaluateIn_eq_ok_iff.mp hfold, rfl⟩
    have counted := CountsOn.anchor anchor value
    rw [Nat.sub_self, Int.natCast_zero, Int.add_zero] at counted
    exact counted (d.underlying.fits_wrap _)

/-- The ordinals of an enum count on from its initializers. -/
theorem countsOn_of_ordinals {os : List Ordinal} {o : Ordinal}
    (h : d.ordinals constantText = .ok os) (hk : os[k]? = some o) : CountsOn d k o.value := by
  have hos : os = (d.numbering constantText).ordinals := by
    unfold ordinals at h
    split at h
    · cases h
    · exact (Except.ok.inj h).symm
  subst hos
  induction k generalizing o with
  | zero =>
    obtain ⟨hm, hvalue⟩ := Numbering.ordinals_ofMembers_zero hk
    cases he : o.member.initializer with
    | some e => exact countsOn_of_initializer hm he hvalue
    | none =>
      simp only [Ordinal.value?, he] at hvalue
      rw [← Except.ok.inj hvalue]
      exact .index (by simp [anchor?, hm, he])
  | succ k ih =>
    obtain ⟨p, hp, hm, hvalue⟩ := Numbering.ordinals_ofMembers_succ hk
    cases he : o.member.initializer with
    | some e => exact countsOn_of_initializer hm he hvalue
    | none =>
      simp only [Ordinal.value?, he] at hvalue
      split at hvalue
      · rename_i fits
        rw [← Except.ok.inj hvalue]
        exact (ih hp).succ (anchor?_succ (by simp [hm, he])) fits
      · cases hvalue

/-- A name folds to the value of the first member that has it. -/
theorem constantText_name {id : Identifier} {span : Span} (first : memberIndex? d id.name = some k)
    (value : HasValue d k v) : d.constantText (.name [id] span) = .ok (toString v) := by
  have meaning : resolve d [id] = .member k := by
    simp [resolve, bound?, siblingIndex?, first]
  have hsiblings : siblings d (.name [id] span) = [k] := by simp [siblings, meaning]
  have hvalue : denote d (fun _ => v) (.name [id] span) = .ok ⟨v, d.underlying⟩ := by
    simp only [denote, meaning]
    rfl
  refine constantText_eq_ok_iff.mpr ⟨_, ⟨fun _ => v, ?_, hvalue⟩, value.wrap_eq⟩
  rw [hsiblings]
  simpa using value

/-- The name of a member folds to the truncated ordinal of the member, and so to the ordinal itself
exactly if that lies in the range of the underlying type. -/
theorem ordinal_folds_truncated {os : List Ordinal} {o : Ordinal}
    (h : d.ordinals constantText = .ok os) (hk : os[k]? = some o)
    (first : memberIndex? d o.member.identifier.name = some k) (span : Span) :
    d.constantText (.name [o.member.identifier] span) =
        .ok (toString (d.underlying.wrap o.value)) ∧
      (d.constantText (.name [o.member.identifier] span) = .ok (toString o.value) ↔
        d.underlying.least ≤ o.value ∧ o.value ≤ d.underlying.greatest) := by
  have folded : d.constantText (.name [o.member.identifier] span) =
      .ok (toString (d.underlying.wrap o.value)) :=
    constantText_name first (countsOn_of_ordinals h hk).hasValue
  refine ⟨folded, ?_⟩
  rw [folded, ← Integral.wrap_eq_self_iff]
  constructor
  · intro heq
    exact Text.toString_injective (Except.ok.inj heq)
  · intro heq
    rw [heq]

theorem hasValue_byteA : HasValue pastByte 0 255 := by
  refine (hasValue_iff_denotes (e := .integer "255" ⟨20, 23⟩) rfl).mpr
    ⟨⟨255, .int⟩, ⟨fun _ => 0, fun j hj => ?_, rfl⟩, by decide⟩
  exact absurd hj List.not_mem_nil

theorem hasValue_byteB : HasValue pastByte 1 0 :=
  (hasValue_iff_counted (e := .integer "255" ⟨20, 23⟩) rfl).mpr
    ⟨255, hasValue_byteA, by decide, by decide⟩

theorem ordinals_pastByte :
    pastByte.ordinals constantText = .ok [⟨byteA, 255⟩, ⟨byteB, 256⟩, ⟨byteC, 0⟩] := by
  have textA :
      pastByte.constantText (.integer "255" ⟨20, 23⟩) = .ok (toString (255 : Int)) :=
    (memberValue_of_initializer (i := 0) rfl).mp (memberValue_eq_ok_iff.mpr hasValue_byteA)
  have textC :
      pastByte.constantText (.name [⟨"B", ⟨32, 33⟩⟩] ⟨32, 33⟩) = .ok (toString (0 : Int)) :=
    constantText_name (k := 1) (by decide) hasValue_byteB
  have ordinalA : Ordinal.value? (pastByte.constantText ·) none byteA = .ok 255 := by
    simp only [Ordinal.value?, byteA, textA]
    rw [Ordinal.ofText?_toString (by decide)]
  have ordinalC : Ordinal.value? (pastByte.constantText ·) (some 256) byteC = .ok 0 := by
    simp only [Ordinal.value?, byteC, textC]
    rw [Ordinal.ofText?_toString (by decide)]
  have ordinalB : Ordinal.value? (pastByte.constantText ·) (some 255) byteB = .ok 256 := by
    have fits : Constant.fits (255 + 1) = true := by decide
    simp only [Ordinal.value?, byteB, if_pos fits]
    rfl
  simp only [ordinals, numbering, pastByte, Numbering.ofMembers] at *
  simp only [ordinalA, ordinalB, ordinalC]

/-- The ordinal 256 that the pass finds for `B` is not what the name `B` folds to. -/
theorem not_ordinal_eq_folded :
    ∃ os o, pastByte.ordinals constantText = .ok os ∧ os[1]? = some o ∧
      memberIndex? pastByte o.member.identifier.name = some 1 ∧
      pastByte.constantText (.name [o.member.identifier] o.member.span) ≠
        .ok (toString o.value) := by
  refine ⟨_, ⟨byteB, 256⟩, ordinals_pastByte, rfl, by decide, ?_⟩
  rw [constantText_name (k := 1) (by decide) hasValue_byteB]
  intro h
  have h0 : (0 : Int) = 256 := Text.toString_injective (Except.ok.inj h)
  contradiction

theorem ordinal_folds_truncated_byteB :
    pastByte.ordinals constantText = .ok [⟨byteA, 255⟩, ⟨byteB, 256⟩, ⟨byteC, 0⟩] ∧
      memberIndex? pastByte byteB.identifier.name = some 1 ∧
      pastByte.constantText (.name [byteB.identifier] byteB.span) = .ok "0" := by
  have h := ordinal_folds_truncated (k := 1) (o := ⟨byteB, 256⟩) ordinals_pastByte rfl (by decide)
    byteB.span
  exact ⟨ordinals_pastByte, by decide, h.1⟩

end EnumDecl

end DeclGen
