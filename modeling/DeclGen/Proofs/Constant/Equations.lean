import DeclGen.Proofs.Constant.Memo
import DeclGen.Proofs.Text.Decimal

/-!
# The equations of an enum

A member has the value of its initializer; a member without one has the value after that of the
member before it, truncated, and the first one zero. An initializer has the value that its operators
give when every name of a member stands for the value of that member.

## Main statements

* `EnumDecl.constantText_eq_ok_iff`: the text of an initializer, from the members' values
* `EnumDecl.memberValue_equations`: the equations
-/

namespace DeclGen

namespace EnumDecl

open DeclGen.Constant DeclGen.Fold

variable {d : EnumDecl} {i a : Nat} {v : Int} {e : Expr}

/-- The text of an initializer is that of its value, truncated to the underlying type. -/
theorem exists_of_constantText {text : String} (h : d.constantText e = .ok text) :
    ∃ c, evaluateIn d e = .ok c ∧ text = toString (d.underlying.wrap c.value) := by
  unfold constantText constant at h
  cases hfold : evaluateIn d e with
  | error err =>
    rw [hfold] at h
    cases h
  | ok c =>
    rw [hfold] at h
    exact ⟨c, rfl, (Except.ok.inj h).symm⟩

/-- The text of an initializer is that of its truncated value. -/
theorem constantText_eq_ok_iff :
    d.constantText e = .ok (toString v) ↔ ∃ c, Denotes d e c ∧ d.underlying.wrap c.value = v := by
  constructor
  · intro h
    obtain ⟨c, hfold, htext⟩ := exists_of_constantText h
    exact ⟨c, evaluateIn_eq_ok_iff.mp hfold, Text.toString_injective htext.symm⟩
  · rintro ⟨c, hc, rfl⟩
    rw [constantText, constant, evaluateIn_eq_ok_iff.mpr hc]
    rfl

theorem memberValue_of_initializer (h : anchor? d.members i = some (i, e)) :
    d.memberValue i = .ok v ↔ d.constantText e = .ok (toString v) := by
  rw [memberValue_eq_ok_iff, hasValue_iff_denotes h, constantText_eq_ok_iff]
  simp only [eq_comm]

/-- A member that counts on is worth one more than the member before it, truncated. -/
theorem hasValue_succ (anchor : anchor? d.members (i + 1) = anchor? d.members i)
    (bound : i + 1 < wordCount 64) :
    HasValue d (i + 1) v ↔ ∃ w, HasValue d i w ∧ v = d.underlying.wrap (w + 1) := by
  have step (x : Int) (k : Nat) :
      d.underlying.wrap (d.underlying.wrap (x + k) + 1) =
        d.underlying.wrap (x + (k + 1 : Nat)) := by
    rw [Integral.wrap_wrap_add, Int.natCast_add, Int.natCast_one, Int.add_assoc]
  cases h : anchor? d.members i with
  | none =>
    have next : HasValue d (i + 1) (d.underlying.wrap (i + 1 : Nat)) := .counted (anchor.trans h)
    have here : HasValue d i (d.underlying.wrap i) := .counted h
    have hstep := step 0 i
    rw [Int.zero_add, Int.zero_add] at hstep
    constructor
    · intro hv
      exact ⟨_, here, (hv.unique next).trans hstep.symm⟩
    · rintro ⟨w, hw, rfl⟩
      rw [hw.unique here, hstep]
      exact next
  | some found =>
    obtain ⟨a, e⟩ := found
    have hsub : i + 1 - a = i - a + 1 := Nat.succ_sub (anchor?_le h)
    have fits (x : Int) (hx : HasValue d a x) (k : Nat) (hk : k ≤ i + 1) :
        Constant.fits (x + k) = true := by
      obtain ⟨c, -, rfl⟩ := (hasValue_iff_denotes (anchor?_anchor h)).mp hx
      exact d.underlying.fits_wrap_add _ (Nat.lt_of_le_of_lt hk bound)
    rw [hasValue_iff_counted (anchor.trans h)]
    constructor
    · rintro ⟨x, hx, -, rfl⟩
      refine ⟨_, (hasValue_iff_counted h).mpr ⟨x, hx, fits x hx _ (by omega), rfl⟩, ?_⟩
      rw [step, hsub]
    · rintro ⟨w, hw, rfl⟩
      obtain ⟨x, hx, -, rfl⟩ := (hasValue_iff_counted h).mp hw
      exact ⟨x, hx, fits x hx _ (by omega), by rw [step, hsub]⟩

/-- The values that folding finds satisfy the equations of the enum: for a member with an
initializer, for one after another member, for the first one, and for every expression. The index of
a member is a machine word. -/
theorem memberValue_equations (d : EnumDecl) :
    (∀ i m e, d.members[i]? = some m → m.initializer = some e → ∀ x,
      d.memberValue i = .ok x ↔ d.constantText e = .ok (toString x)) ∧
    (∀ i m, d.members[i + 1]? = some m → m.initializer = none → i + 1 < wordCount 64 → ∀ x,
      d.memberValue (i + 1) = .ok x ↔
        ∃ y, d.memberValue i = .ok y ∧ x = d.underlying.wrap (y + 1)) ∧
    (∀ m, d.members[0]? = some m → m.initializer = none → d.memberValue 0 = .ok 0) ∧
    (∀ e x, d.constantText e = .ok (toString x) ↔
      ∃ env : Nat → Int, (∀ j ∈ siblings d e, d.memberValue j = .ok (env j)) ∧
        ∃ c, denote d env e = .ok c ∧ d.underlying.wrap c.value = x) := by
  refine ⟨fun i m e hm he x => ?_, fun i m hm hnone hbound x => ?_, fun m hm hnone => ?_,
    fun e x => ?_⟩
  · exact memberValue_of_initializer (anchor?_of_initializer (by simp [hm, he]))
  · simp only [memberValue_eq_ok_iff]
    exact hasValue_succ (anchor?_succ (by simp [hm, hnone])) hbound
  · have hzero : anchor? d.members 0 = none := by simp [anchor?, hm, hnone]
    have h := HasValue.counted (d := d) hzero
    rw [Int.natCast_zero, Integral.wrap_zero] at h
    exact memberValue_eq_ok_iff.mpr h
  · simp only [constantText_eq_ok_iff, memberValue_eq_ok_iff]
    constructor
    · rintro ⟨c, ⟨env, henv, hval⟩, hx⟩
      exact ⟨env, henv, c, hval, hx⟩
    · rintro ⟨env, henv, c, hval, hx⟩
      exact ⟨c, ⟨env, henv, hval⟩, hx⟩

def byteA : EnumMember where
  attributes := []
  identifier := ⟨"A", ⟨16, 17⟩⟩
  initializer := some (.integer "255" ⟨20, 23⟩)
  span := ⟨16, 23⟩

def byteB : EnumMember where
  attributes := []
  identifier := ⟨"B", ⟨25, 26⟩⟩
  initializer := none
  span := ⟨25, 26⟩

def byteC : EnumMember where
  attributes := []
  identifier := ⟨"C", ⟨28, 29⟩⟩
  initializer := some (.name [⟨"B", ⟨32, 33⟩⟩] ⟨32, 33⟩)
  span := ⟨28, 33⟩

/-- The enum `enum E : byte { A = 255, B, C = B }`, in which `B` counts on past the greatest
byte. -/
def pastByte : EnumDecl where
  attributes := []
  modifiers := []
  identifier := ⟨"E", ⟨5, 6⟩⟩
  base := some (.predefined "byte" ⟨9, 13⟩)
  members := [byteA, byteB, byteC]
  span := ⟨0, 35⟩

theorem memberValue_equations_pastByte :
    pastByte.memberValue 0 = .ok 255 ∧ pastByte.memberValue 1 = .ok 0 ∧
      pastByte.memberValue 2 = .ok 0 := by
  obtain ⟨explicit, implicit, -, expression⟩ := memberValue_equations pastByte
  have first : pastByte.memberValue 0 = .ok 255 := by
    refine (explicit 0 _ _ rfl rfl 255).mpr <| (expression _ 255).mpr
      ⟨fun _ => 0, fun j hj => ?_, ⟨255, .int⟩, rfl, by decide⟩
    exact absurd hj List.not_mem_nil
  have second : pastByte.memberValue 1 = .ok 0 :=
    (implicit 0 _ rfl rfl (by decide) 0).mpr ⟨255, first, by decide⟩
  have third : pastByte.memberValue 2 = .ok 0 := by
    refine (explicit 2 _ _ rfl rfl 0).mpr <| (expression _ 0).mpr
      ⟨fun _ => 0, fun j hj => ?_, ⟨0, .byte⟩, rfl, by decide⟩
    have hsiblings : siblings pastByte (.name [⟨"B", ⟨32, 33⟩⟩] ⟨32, 33⟩) = [1] := by decide
    rw [hsiblings, List.mem_singleton] at hj
    exact hj ▸ second
  exact ⟨first, second, third⟩

end EnumDecl

end DeclGen
