import DeclGen.Constant.Fold
import DeclGen.Proofs.Constant.Truncation
import Mathlib.Logic.Relation

/-!
# What the members of an enum are worth

The value of an expression when the members' values are given, and the values of the members as a
relation: a member counts on from the nearest initializer at or before it, whose value rests on
those of the members it names. Nothing here remembers a value or the members being computed.

## Main definitions

* `Fold.siblings`: the members that the names in an expression mean
* `Fold.denote`: the value of an expression, given those of the members
* `Fold.HasValue`: the value of a member
* `Fold.Denotes`: the value of an expression
* `Fold.Uses`: a member whose value another one's rests on

## Main statements

* `Fold.HasValue.unique`: a member has at most one value
* `Fold.HasValue.acc`: the value of a member never rests on itself
-/

namespace DeclGen

namespace Fold

/-- The members that the names in an expression mean, from left to right. -/
def siblings (d : EnumDecl) : Expr → List Nat
  | .integer _ _ | .character _ _ | .unsupported _ _ => []
  | .name segments _ =>
    match resolve d segments with
    | .member i => [i]
    | _ => []
  | .unary _ operand _ => siblings d operand
  | .binary _ left right _ => siblings d left ++ siblings d right
  | .parenthesized inner _ => siblings d inner
  | .cast _ operand _ => siblings d operand
  | .overflowContext _ inner _ => siblings d inner

/-- The value of an expression in which a name of a member stands for the member's value under
`env`, in the underlying type. -/
def denote (d : EnumDecl) (env : Nat → Int) : Expr → Except FoldError Constant
  | .integer text _ => do
    let value ← Constant.literalValue text
    return ⟨value, Integral.ofLiteral text value⟩
  | .character c _ => return ⟨c.toNat, .char⟩
  | .name segments _ =>
    match resolve d segments with
    | .bound c => return c
    | .member i => return ⟨env i, d.underlying⟩
    | .unknown => throw (.unknownName (".".intercalate (segments.map (·.name))))
  | .unary op operand _ => do
    let c ← denote d env operand
    Constant.applyUnary op c
  | .binary op left right _ => do
    let l ← denote d env left
    let r ← denote d env right
    Constant.applyBinary op l r
  | .parenthesized inner _ => denote d env inner
  | .cast type operand _ => do
    let c ← denote d env operand
    match Integral.ofType? type with
    | some target => return ⟨target.wrap c.value, target⟩
    | none => return ⟨c.value, d.underlying⟩
  | .overflowContext _ inner _ => denote d env inner
  | .unsupported text _ => throw (.notConstant text)

/-- The value of a member: its index, if no initializer stands at or before it, and otherwise that
of the nearest one, counted on from there. -/
inductive HasValue (d : EnumDecl) : Nat → Int → Prop where
  | counted {i : Nat} (none : anchor? d.members i = none) :
    HasValue d i (d.underlying.wrap i)
  | anchored {i a : Nat} {e : Expr} {env : Nat → Int} {c : Constant}
    (anchor : anchor? d.members i = some (a, e))
    (siblings : ∀ j ∈ siblings d e, HasValue d j (env j))
    (value : denote d env e = .ok c)
    (fits : Constant.fits (d.underlying.wrap c.value + (i - a : Nat)) = true) :
    HasValue d i (d.underlying.wrap (d.underlying.wrap c.value + (i - a : Nat)))

/-- The value of an expression whose names stand for the values of the members. -/
def Denotes (d : EnumDecl) (e : Expr) (c : Constant) : Prop :=
  ∃ env, (∀ j ∈ siblings d e, HasValue d j (env j)) ∧ denote d env e = .ok c

/-- The value of the second member rests on that of the first: the initializer that gives it names
the first. -/
def Uses (d : EnumDecl) (j i : Nat) : Prop :=
  ∃ a e, anchor? d.members i = some (a, e) ∧ j ∈ siblings d e

/-! ## Anchors -/

section Anchor

variable {ms : List EnumMember} {i a : Nat} {e : Expr}

theorem anchor?_of_initializer (h : ms[i]?.bind (·.initializer) = some e) :
    anchor? ms i = some (i, e) := by
  cases i <;> simp [anchor?, h]

theorem anchor?_succ (h : ms[i + 1]?.bind (·.initializer) = none) :
    anchor? ms (i + 1) = anchor? ms i := by
  simp [anchor?, h]

theorem initializer_of_anchor? (h : anchor? ms i = some (a, e)) :
    ms[a]?.bind (·.initializer) = some e := by
  fun_induction anchor? ms i with
  | case1 =>
    obtain ⟨e', he, heq⟩ := Option.map_eq_some_iff.mp h
    cases heq
    exact he
  | case2 i e' he =>
    cases h
    exact he
  | case3 i he ih => exact ih h

theorem anchor?_le (h : anchor? ms i = some (a, e)) : a ≤ i := by
  fun_induction anchor? ms i with
  | case1 =>
    obtain ⟨e', he, heq⟩ := Option.map_eq_some_iff.mp h
    cases heq
    exact Nat.le_refl 0
  | case2 i e' he =>
    cases h
    exact Nat.le_refl _
  | case3 i he ih => exact Nat.le_succ_of_le (ih h)

theorem anchor?_anchor (h : anchor? ms i = some (a, e)) : anchor? ms a = some (a, e) :=
  anchor?_of_initializer (initializer_of_anchor? h)

theorem anchor?_lt_length (h : anchor? ms i = some (a, e)) : a < ms.length := by
  have ha := initializer_of_anchor? h
  refine Nat.lt_of_not_le fun hle => ?_
  simp [List.getElem?_eq_none hle] at ha

end Anchor

/-! ## Values -/

variable {d : EnumDecl} {i j a : Nat} {v w : Int} {e : Expr} {c : Constant}

/-- The value of an expression depends on the values of the members it names only. -/
theorem denote_congr {env env' : Nat → Int} {e : Expr} (h : ∀ j ∈ siblings d e, env j = env' j) :
    denote d env e = denote d env' e := by
  induction e with
  | integer | character | unsupported => rfl
  | name segments =>
    unfold denote
    unfold siblings at h
    split <;> simp_all
  | unary op operand span ih =>
    rw [denote, denote, ih h]
  | binary op left right span ihl ihr =>
    have hl : ∀ j ∈ siblings d left, env j = env' j := fun j hj => h j (by simp [siblings, hj])
    have hr : ∀ j ∈ siblings d right, env j = env' j := fun j hj => h j (by simp [siblings, hj])
    rw [denote, denote, ihl hl, ihr hr]
  | parenthesized inner span ih => exact ih h
  | cast type operand span ih =>
    rw [denote, denote, ih h]
  | overflowContext isChecked inner span ih => exact ih h

/-- The value of a member is one of the underlying type. -/
theorem HasValue.wrap_eq (hv : HasValue d i v) : d.underlying.wrap v = v := by
  cases hv <;> exact Integral.wrap_wrap _ _

theorem HasValue.unique (hv : HasValue d i v) (hw : HasValue d i w) : v = w := by
  induction hv generalizing w with
  | counted none =>
    cases hw with
    | counted => rfl
    | anchored anchor => simp [none] at anchor
  | @anchored i a e env c anchor siblings value fits ih =>
    cases hw with
    | counted none => simp [none] at anchor
    | @anchored _ a' e' env' c' anchor' siblings' value' fits' =>
      obtain ⟨rfl, rfl⟩ : a = a' ∧ e = e' := by simpa [anchor] using anchor'
      have henv : ∀ j ∈ Fold.siblings d e, env j = env' j := fun j hj => ih j hj (siblings' j hj)
      rw [denote_congr henv, value'] at value
      cases value
      rfl

/-- Values of the members that two expressions name may be taken from one environment. -/
theorem exists_common_env {e e' : Expr} {env env' : Nat → Int}
    (h : ∀ j ∈ siblings d e, HasValue d j (env j))
    (h' : ∀ j ∈ siblings d e', HasValue d j (env' j)) :
    ∃ env₀ : Nat → Int, (∀ j ∈ siblings d e ++ siblings d e', HasValue d j (env₀ j)) ∧
      denote d env₀ e = denote d env e ∧ denote d env₀ e' = denote d env' e' := by
  let env₀ : Nat → Int := fun j => if j ∈ siblings d e then env j else env' j
  have left : ∀ j ∈ siblings d e, env₀ j = env j := fun j hj => if_pos hj
  have right : ∀ j ∈ siblings d e', env₀ j = env' j := by
    intro j hj
    by_cases hmem : j ∈ siblings d e
    · rw [left j hmem]
      exact (h j hmem).unique (h' j hj)
    · exact if_neg hmem
  refine ⟨env₀, fun j hj => ?_, denote_congr left, denote_congr right⟩
  rcases List.mem_append.mp hj with hj | hj
  · exact left j hj ▸ h j hj
  · exact right j hj ▸ h' j hj

/-- A member with an initializer has the value of the initializer, truncated. -/
theorem hasValue_iff_denotes (anchor : anchor? d.members a = some (a, e)) :
    HasValue d a v ↔ ∃ c, Denotes d e c ∧ v = d.underlying.wrap c.value := by
  have counted (x : Int) : d.underlying.wrap (d.underlying.wrap x + (a - a : Nat)) =
      d.underlying.wrap x := by
    rw [Nat.sub_self, Int.natCast_zero, Int.add_zero, Integral.wrap_wrap]
  constructor
  · intro h
    cases h with
    | counted none => simp [anchor] at none
    | @anchored _ a' e' env c anchor' siblings value =>
      obtain ⟨rfl, rfl⟩ : a = a' ∧ e = e' := by simpa [anchor] using anchor'
      exact ⟨c, ⟨env, siblings, value⟩, counted c.value⟩
  · rintro ⟨c, ⟨env, siblings, value⟩, rfl⟩
    rw [← counted c.value]
    refine .anchored anchor siblings value ?_
    rw [Nat.sub_self]
    exact d.underlying.fits_wrap_add _ (Constant.wordCount_pos 64)

/-- A member counts on from the initializer at or before it. -/
theorem hasValue_iff_counted (anchor : anchor? d.members i = some (a, e)) :
    HasValue d i v ↔ ∃ w, HasValue d a w ∧ Constant.fits (w + (i - a : Nat)) = true ∧
      v = d.underlying.wrap (w + (i - a : Nat)) := by
  have self := anchor?_anchor anchor
  constructor
  · intro h
    cases h with
    | counted none => simp [anchor] at none
    | @anchored _ a' e' env c anchor' siblings value fits =>
      obtain ⟨rfl, rfl⟩ : a = a' ∧ e = e' := by simpa [anchor] using anchor'
      exact ⟨_, (hasValue_iff_denotes self).mpr ⟨c, ⟨env, siblings, value⟩, rfl⟩, fits, rfl⟩
  · rintro ⟨w, hw, fits, rfl⟩
    obtain ⟨c, ⟨env, siblings, value⟩, rfl⟩ := (hasValue_iff_denotes self).mp hw
    exact .anchored anchor siblings value fits

/-- A value that rests on others rests on them in finitely many steps. -/
theorem HasValue.acc (hv : HasValue d i v) : Acc (Uses d) i := by
  induction hv with
  | counted none =>
    refine ⟨_, fun j hj => ?_⟩
    obtain ⟨a, e, anchor, -⟩ := hj
    simp [none] at anchor
  | @anchored i a e env c anchor siblings value fits ih =>
    refine ⟨_, fun j hj => ?_⟩
    obtain ⟨a', e', anchor', hmem⟩ := hj
    obtain ⟨rfl, rfl⟩ : a = a' ∧ e = e' := by simpa [anchor] using anchor'
    exact ih j hmem

/-- Members with the same initializer use the same members. -/
theorem transGen_of_anchor? (anchor : anchor? d.members a = some (a, e))
    (anchor' : anchor? d.members i = some (a, e)) (h : Relation.TransGen (Uses d) j a) :
    Relation.TransGen (Uses d) j i := by
  have last {k : Nat} (hk : Uses d k a) : Uses d k i := by
    obtain ⟨a', e', found, hmem⟩ := hk
    rw [anchor] at found
    cases found
    exact ⟨a, e, anchor', hmem⟩
  cases h with
  | single hk => exact .single (last hk)
  | tail hjk hk => exact hjk.tail (last hk)

theorem HasValue.not_transGen (hv : HasValue d i v) : ¬ Relation.TransGen (Uses d) i i := by
  have hacc := hv.acc.transGen
  clear hv
  induction hacc with
  | intro i _ ih => exact fun h => ih i h h

end Fold

end DeclGen
