import DeclGen.Proofs.Constant.Parts
import DeclGen.Proofs.Constant.Ranges

/-!
# Intermediate values outside of their type

Folding truncates the results of complements, shifts and casts to integral types; these, literals
and names always have values of their types. Every other result is exact. So an intermediate value
that is none of its type goes back to a step that left the range: an operator with operands in range
and an exact result that is not, a cast to the enum or a character beyond sixteen bits. In an enum
of a wide type such a value is stored, where the truncated one belongs.

## Main definitions

* `Fold.IsTruncated`: the expressions whose value is always one of its type
* `Fold.Escapes`: the steps that leave the range of a type

## Main statements

* `Fold.inRange_parts_iff`: all intermediate values are in range if no step leaves a range
* `Fold.exists_not_inRange`: a sum of `int` beyond the greatest value, stored in a `long`
-/

namespace DeclGen

open DeclGen.Constant

/-! ## Literals and bounds -/

namespace Constant

theorem accumulate_lt {base n m : Nat} {invalid : FoldError} {s : List Char}
    (hn : n < wordCount 64) (h : accumulate base invalid n s = .ok m) : m < wordCount 64 := by
  fun_induction accumulate base invalid n s with
  | case1 n => exact Except.ok.inj h ▸ hn
  | case2 => cases h
  | case3 n c s digit hdigit hlt ih => exact ih hlt h
  | case4 => cases h

theorem literalValue_bounds {text : String} {v : Int} (h : literalValue text = .ok v) :
    0 ≤ v ∧ v < wordCount 64 := by
  have hdigits {base m : Nat} {s : List Char}
      (h : digitsValue base (.invalidLiteral text) s = .ok m) : m < wordCount 64 := by
    unfold digitsValue at h
    split at h
    · cases h
    · cases h
    · exact accumulate_lt (wordCount_pos 64) h
    · exact accumulate_lt (wordCount_pos 64) h
  obtain ⟨m, hm, rfl⟩ := exists_of_map_eq_ok h
  refine ⟨Int.natCast_nonneg m, Int.ofNat_lt.mpr ?_⟩
  split at hm <;> exact hdigits hm

/-- The first type whose greatest value is not exceeded holds a value that is not negative. -/
theorem holds_first (candidates : List Integral) {v : Int} (hnonneg : 0 ≤ v)
    (hlt : v < wordCount 64) :
    ((candidates.find? fun t => v ≤ t.greatest).getD .ulong).Holds v := by
  cases hfound : candidates.find? fun t => v ≤ t.greatest with
  | none => exact Integral.holds_ulong_iff.mpr ⟨hnonneg, hlt⟩
  | some t =>
    have hle : v ≤ t.greatest := by simpa using List.find?_some hfound
    exact ⟨Int.le_trans t.least_nonpos hnonneg, hle⟩

end Constant

namespace Fold

variable {d : EnumDecl} {e : Expr} {c : Constant}

theorem inRange_bound? {names : List String} (h : bound? names = some c) : c.InRange := by
  unfold bound? at h
  split at h
  · obtain ⟨t, -, ht⟩ := Option.bind_eq_some_iff.mp h
    have hle : t.least ≤ t.greatest := Int.le_trans t.least_nonpos t.greatest_nonneg
    split at ht
    · cases ht
      exact ⟨hle, Int.le_refl _⟩
    split at ht
    · cases ht
      exact ⟨Int.le_refl _, hle⟩
    · cases ht
  · cases h

/-- A name that means no member means a value of its type. -/
theorem inRange_of_resolve {segments : List Identifier} (h : resolve d segments = .bound c) :
    c.InRange := by
  unfold resolve at h
  dsimp only at h
  split at h
  · rename_i hbound
    cases h
    exact inRange_bound? hbound
  · split at h <;> cases h

theorem inRange_integer {text : String} {span : Span}
    (h : evaluateIn d (.integer text span) = .ok c) : c.InRange := by
  obtain ⟨env, -, hval⟩ := evaluateIn_eq_ok_iff.mp h
  obtain ⟨v, hv, hc⟩ := exists_of_bind_eq_ok hval
  obtain ⟨hnonneg, hlt⟩ := literalValue_bounds hv
  cases hc
  exact holds_first _ hnonneg hlt

theorem inRange_name {segments : List Identifier} {span : Span}
    (h : evaluateIn d (.name segments span) = .ok c) : c.InRange := by
  obtain ⟨env, henv, hval⟩ := evaluateIn_eq_ok_iff.mp h
  unfold denote at hval
  unfold siblings at henv
  split at hval <;> rename_i hmeaning <;> simp only [hmeaning] at henv
  · cases hval
    exact inRange_of_resolve hmeaning
  · rename_i i
    cases hval
    -- The value of a member is truncated to the underlying type.
    have hmember := henv i (List.mem_singleton_self i)
    exact (d.underlying.wrap_eq_self_iff _).mp hmember.wrap_eq
  · cases hval

/-! ## Steps that leave a range -/

/-- The value of the expression is always one of its type. -/
def IsTruncated : Expr → Prop
  | .integer _ _ | .name _ _ => True
  | .unary op _ _ => op = .complement
  | .binary op _ _ _ => op ∈ [BinaryOperator.shiftLeft, .shiftRight, .unsignedShiftRight]
  | .cast type _ _ => Integral.ofType? type ≠ none
  | .parenthesized inner _ | .overflowContext _ inner _ => IsTruncated inner
  | .character _ _ | .unsupported _ _ => False

/-- The step leaves the range of a type: it is a character beyond sixteen bits, an operator that
leaves the range from operands in range, or a cast to the enum of a value in range that is none of
the underlying type. -/
def Escapes (d : EnumDecl) : Expr → Prop
  | .character c _ => ¬ Integral.char.Holds c.toNat
  | .unary op operand _ => ∃ x, evaluateIn d operand = .ok x ∧ x.InRange ∧ UnaryLeaves op x
  | .binary op left right _ => ∃ l r c, evaluateIn d left = .ok l ∧ evaluateIn d right = .ok r ∧
      applyBinary op l r = .ok c ∧ l.InRange ∧ r.InRange ∧ BinaryLeaves op l r
  | .cast type operand _ => Integral.ofType? type = none ∧
      ∃ x, evaluateIn d operand = .ok x ∧ x.InRange ∧ ¬ d.underlying.Holds x.value
  | .integer _ _ | .name _ _ | .parenthesized _ _ | .overflowContext _ _ _
  | .unsupported _ _ => False

/-- By induction on the forms whose last operation truncates to the type of the constant. -/
theorem inRange_of_isTruncated (h : evaluateIn d e = .ok c) (ht : IsTruncated e) : c.InRange := by
  induction e generalizing c with
  | integer text span => exact inRange_integer h
  | name segments span => exact inRange_name h
  | unary op operand span ih =>
    obtain rfl : op = .complement := ht
    obtain ⟨x, -, hc⟩ := evaluateIn_unary.mp h
    cases hc
    exact Integral.holds_wrap _ _
  | binary op left right span ihl ihr =>
    obtain ⟨l, r, -, -, hc⟩ := evaluateIn_binary.mp h
    simp only [IsTruncated, List.mem_cons, List.not_mem_nil, or_false] at ht
    obtain rfl | rfl | rfl := ht <;> exact inRange_shift hc
  | parenthesized inner span ih => exact ih h ht
  | overflowContext isChecked inner span ih => exact ih h ht
  | cast type operand span ih =>
    obtain ⟨x, -, rfl⟩ := evaluateIn_cast.mp h
    unfold EnumDecl.castTo
    split
    · exact Integral.holds_wrap _ _
    · exact absurd ‹_› ht
  | character | unsupported => exact ht.elim

theorem inRange_character_iff {ch : Char} {span : Span}
    (h : evaluateIn d (.character ch span) = .ok c) :
    c.InRange ↔ ¬ Escapes d (.character ch span) := by
  obtain ⟨env, -, hval⟩ := evaluateIn_eq_ok_iff.mp h
  cases hval
  exact Decidable.not_not.symm

/-- The negative of a value of a type fits into a word. -/
theorem exists_applyUnary (op : UnaryOperator) {x : Constant} (hx : x.InRange) :
    ∃ c, applyUnary op x = .ok c := by
  cases op with
  | plus | complement => exact ⟨_, rfl⟩
  | minus =>
    have hminus := applyUnary_minus x
    rw [checked_of_fits (fits_neg hx.le hx.lt)] at hminus
    exact ⟨_, hminus⟩

/-- A step that leaves the range of a type has a value that is none of its type. -/
theorem Escapes.exists_outside (h : Escapes d e) :
    ∃ c, evaluateIn d e = .ok c ∧ ¬ c.InRange := by
  cases e with
  | character ch span => exact ⟨⟨ch.toNat, .char⟩, rfl, h⟩
  | unary op operand span =>
    obtain ⟨x, hx, hin, hleaves⟩ := h
    obtain ⟨c, hc⟩ := exists_applyUnary op hin
    exact ⟨c, evaluateIn_unary.mpr ⟨x, hx, hc⟩, fun hrange =>
      (inRange_unary_iff hin hc).mp hrange hleaves⟩
  | binary op left right span =>
    obtain ⟨l, r, c, hl, hr, hc, hinl, hinr, hleaves⟩ := h
    exact ⟨c, evaluateIn_binary.mpr ⟨l, r, hl, hr, hc⟩, fun hrange =>
      (inRange_binary_iff hinl hinr hc).mp hrange hleaves⟩
  | cast type operand span =>
    obtain ⟨hnone, x, hx, -, hout⟩ := h
    refine ⟨_, evaluateIn_cast.mpr ⟨x, hx, rfl⟩, ?_⟩
    rw [EnumDecl.castTo, hnone]
    exact hout
  | integer | name | parenthesized | overflowContext | unsupported => exact h.elim

/-- If no step leaves a range, the value of the expression is one of its type. -/
theorem inRange_of_not_escapes (hparts : ∀ s ∈ e.parts, ¬ Escapes d s)
    (h : evaluateIn d e = .ok c) : c.InRange := by
  have hself := hparts e e.self_mem_parts
  induction e generalizing c with
  | integer text span => exact inRange_integer h
  | name segments span => exact inRange_name h
  | character ch span => exact (inRange_character_iff h).mpr hself
  | unary op operand span ih =>
    obtain ⟨x, hx, hc⟩ := evaluateIn_unary.mp h
    have hin := ih (fun s hs => hparts s (List.mem_cons_of_mem _ hs)) hx
      (hparts _ (List.mem_cons_of_mem _ operand.self_mem_parts))
    exact (inRange_unary_iff hin hc).mpr fun hleaves => hself ⟨x, hx, hin, hleaves⟩
  | binary op left right span ihl ihr =>
    obtain ⟨l, r, hl, hr, hc⟩ := evaluateIn_binary.mp h
    have hleft (s : Expr) (hs : s ∈ left.parts) : ¬ Escapes d s :=
      hparts s (List.mem_cons_of_mem _ (List.mem_append_left _ hs))
    have hright (s : Expr) (hs : s ∈ right.parts) : ¬ Escapes d s :=
      hparts s (List.mem_cons_of_mem _ (List.mem_append_right _ hs))
    have hinl := ihl hleft hl (hleft _ left.self_mem_parts)
    have hinr := ihr hright hr (hright _ right.self_mem_parts)
    exact (inRange_binary_iff hinl hinr hc).mpr fun hleaves =>
      hself ⟨l, r, c, hl, hr, hc, hinl, hinr, hleaves⟩
  | parenthesized inner span ih =>
    exact ih (fun s hs => hparts s (List.mem_cons_of_mem _ hs)) h
      (hparts _ (List.mem_cons_of_mem _ inner.self_mem_parts))
  | overflowContext isChecked inner span ih =>
    exact ih (fun s hs => hparts s (List.mem_cons_of_mem _ hs)) h
      (hparts _ (List.mem_cons_of_mem _ inner.self_mem_parts))
  | cast type operand span ih =>
    obtain ⟨x, hx, rfl⟩ := evaluateIn_cast.mp h
    have hin := ih (fun s hs => hparts s (List.mem_cons_of_mem _ hs)) hx
      (hparts _ (List.mem_cons_of_mem _ operand.self_mem_parts))
    unfold EnumDecl.castTo
    split
    · exact Integral.holds_wrap _ _
    · rename_i hnone
      exact Decidable.byContradiction fun hout => hself ⟨hnone, x, hx, hin, hout⟩
  | unsupported text span =>
    obtain ⟨env, -, hval⟩ := evaluateIn_eq_ok_iff.mp h
    cases hval

/-- A value that folding finds is one of its type at once where folding truncates: at literals,
names, complements, shifts and casts to integral types. For the other values it depends on the steps
that lead to them: every intermediate value of an expression is one of its type if and only if none
of its steps leaves the range of a type. -/
theorem inRange_parts_iff (d : EnumDecl) :
    (∀ e c, evaluateIn d e = .ok c → IsTruncated e → c.InRange) ∧
    (∀ e : Expr, (∀ s ∈ e.parts, ∀ c, evaluateIn d s = .ok c → c.InRange) ↔
      ∀ s ∈ e.parts, ¬ Escapes d s) := by
  refine ⟨fun e c h ht => inRange_of_isTruncated h ht, fun e => ⟨fun h s hs hescapes => ?_,
    fun h s hs c hc => ?_⟩⟩
  · obtain ⟨c, hc, hout⟩ := hescapes.exists_outside
    exact hout (h s hs c hc)
  · exact inRange_of_not_escapes (fun u hu => h u (Expr.mem_parts_trans hs hu)) hc

/-- The initializer of `enum E : long { A = unchecked(int.MaxValue + 1) }`. -/
def pastInt : Expr :=
  .overflowContext false (.binary .add
    (.name [⟨"int", ⟨30, 33⟩⟩, ⟨"MaxValue", ⟨34, 42⟩⟩] ⟨30, 42⟩)
    (.integer "1" ⟨45, 46⟩) ⟨30, 46⟩) ⟨20, 47⟩

/-- The enum `enum E : long { A = unchecked(int.MaxValue + 1) }`. -/
def wideEnum : EnumDecl where
  attributes := []
  modifiers := []
  identifier := ⟨"E", ⟨5, 6⟩⟩
  base := some (.predefined "long" ⟨9, 13⟩)
  members := [⟨[], ⟨"A", ⟨16, 17⟩⟩, some pastInt, ⟨16, 47⟩⟩]
  span := ⟨0, 49⟩

/-- A sum of two values of `int` is given the type `int` although it is none of its values, and a
`long` enum stores it as it is, where the value of `int` with the same lowest bits belongs. -/
theorem exists_not_inRange : ∃ c, evaluateIn wideEnum pastInt = .ok c ∧ c.type = .int ∧
    ¬ c.InRange ∧ wideEnum.constantText pastInt = .ok "2147483648" ∧
    wideEnum.underlying.wrap (c.type.wrap c.value) = -2147483648 :=
  ⟨⟨2147483648, .int⟩, rfl, rfl, by decide, rfl, by decide⟩

/-- In `unchecked(int.MaxValue + 1)` a step leaves the range, and its complement is in range
again. -/
theorem inRange_parts_iff_pastInt :
    evaluateIn wideEnum (.unary .complement pastInt ⟨19, 47⟩) = .ok ⟨2147483647, .int⟩ ∧
      Constant.InRange ⟨2147483647, .int⟩ ∧ ∃ s ∈ pastInt.parts, Escapes wideEnum s := by
  obtain ⟨truncated, parts⟩ := inRange_parts_iff wideEnum
  have hcomplement : evaluateIn wideEnum (.unary .complement pastInt ⟨19, 47⟩) =
      .ok ⟨2147483647, .int⟩ := rfl
  refine ⟨hcomplement, truncated _ _ hcomplement rfl, Classical.byContradiction fun hnone => ?_⟩
  have hrange := (parts pastInt).mpr fun s hs hescapes => hnone ⟨s, hs, hescapes⟩
  have hout : ¬ Constant.InRange ⟨2147483648, .int⟩ := by decide
  exact hout (hrange pastInt pastInt.self_mem_parts _ rfl)

end Fold

end DeclGen
