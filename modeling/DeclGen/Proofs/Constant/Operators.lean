import DeclGen.Proofs.Constant.Ranges

/-!
# Operators that truncate

The operators with which folding computes give the exact result of most operations. Beside them
stand operators that truncate every result to the type it has. Where the operands of the two agree
in type and in the lowest 32 bits, so do the results, except for operations whose lowest bits rest
on higher ones: quotients, remainders and shifts of 64-bit words to the right.

## Main definitions

* `Operators`: the results of unary and binary operators
* `Operators.folding`, `Operators.truncating`, `Operators.truncatingExact`: as folding computes
  them, truncated, and truncated from products of any size
* `Constant.SameLow`: two constants agree in the lowest bits
* `Operators.Mirrors`: the operators agree with those of folding in the lowest bits

## Main statements

* `Operators.mirrors_truncating`, `Operators.mirrors_truncatingExact`
-/

namespace DeclGen

open DeclGen.Constant

/-- The results of unary and binary operators. -/
structure Operators where
  unary : UnaryOperator → Constant → Except FoldError Constant
  binary : BinaryOperator → Constant → Constant → Except FoldError Constant

def Constant.truncated (c : Constant) : Constant := ⟨c.type.wrap c.value, c.type⟩

namespace Operators

def folding : Operators := ⟨applyUnary, applyBinary⟩

/-- The operators as folding computes them, and every result truncated to the type it has. -/
def truncating : Operators where
  unary op c := (applyUnary op c).map truncated
  binary op left right := (applyBinary op left right).map truncated

/-- The truncating operators, with products that may be of any size before they are truncated. -/
def truncatingExact : Operators where
  unary := truncating.unary
  binary op left right :=
    match op with
    | .multiply =>
      .ok (truncated ⟨left.value * right.value, left.type.common right.type⟩)
    | op => truncating.binary op left right

end Operators

namespace Constant

/-- The lowest bits of the result rest on higher bits of the left operand: for quotients and
remainders, and for shifts of 64-bit words to the right. -/
def NeedsHigh (op : BinaryOperator) (type : Integral) : Prop :=
  op = .divide ∨ op = .remainder ∨
    (op ∈ [BinaryOperator.shiftRight, .unsignedShiftRight] ∧ type.promoted.bits = 64)

/-- The constants have the same type and the same lowest 32 bits. The second one is a signed word of
64 bits, or, where `wide` holds, an unsigned one. -/
structure SameLow (wide : Prop) (c w : Constant) : Prop where
  type : c.type = w.type
  value : c.value ≡ w.value [ZMOD wordCount 32]
  le : -(wordCount 63 : Int) ≤ w.value
  lt : w.value < wordCount 64
  signed : ¬ wide → w.value < wordCount 63

variable {wide : Prop} {c w left right left' right' : Constant}

theorem sameLow_of_inRange (hw : w.InRange) (htype : c.type = w.type)
    (hvalue : c.value ≡ w.value [ZMOD wordCount 32]) (hwide : c.type = .ulong → wide) :
    SameLow wide c w :=
  ⟨htype, hvalue, hw.le, hw.lt, fun hnot => Int.lt_of_le_of_lt hw.2
    (Integral.greatest_lt_of_ne fun hulong => hnot (hwide (htype.trans hulong)))⟩

theorem InRange.sameLow (h : c.InRange) (hwide : c.type = .ulong → wide) : SameLow wide c c :=
  sameLow_of_inRange h rfl (Int.ModEq.refl _) hwide

theorem sameLow_truncated (htype : c.type = w.type) (hvalue : c.value ≡ w.value [ZMOD wordCount 32])
    (hbits : 32 ≤ w.type.bits) (hwide : c.type = .ulong → wide) : SameLow wide c w.truncated :=
  sameLow_of_inRange (w.type.holds_wrap _) htype
    (hvalue.trans (w.type.wrap_modEq_of_le _ hbits).symm) hwide

theorem SameLow.wrap (h : SameLow wide c w) (t : Integral) (hwide : t = .ulong → wide) :
    SameLow wide ⟨t.wrap c.value, t⟩ ⟨t.wrap w.value, t⟩ := by
  refine sameLow_of_inRange (t.holds_wrap _) rfl ?_ hwide
  rcases Nat.le_total t.bits 32 with hnarrow | hbroad
  · rw [t.wrap_eq_of_modEq hnarrow h.value]
  · have hleft := t.wrap_modEq_of_le c.value hbroad
    have hright := t.wrap_modEq_of_le w.value hbroad
    exact (hleft.trans h.value).trans hright.symm

theorem SameLow.fits_add (hl : SameLow wide left left') (hr : SameLow wide right right') :
    fits (left'.value + right'.value) = true ∧ fits (left'.value - right'.value) = true := by
  obtain ⟨-, -, hle, hlt, -⟩ := hl
  obtain ⟨-, -, hle', hlt', -⟩ := hr
  simp only [fits, Bool.and_eq_true, decide_eq_true_eq]
  simp only [wordCount_eq] at *
  omega

/-- The product of signed words of 64 bits fits into one of 128 bits. -/
theorem SameLow.fits_mul (hl : SameLow wide left left') (hr : SameLow wide right right')
    (hsigned : ¬ wide) : fits (left'.value * right'.value) = true := by
  have hle := hl.le
  have hle' := hr.le
  have hlt := hl.signed hsigned
  have hlt' := hr.signed hsigned
  have hmul : (left'.value * right'.value).natAbs ≤ 2 ^ 63 * 2 ^ 63 := by
    rw [Int.natAbs_mul]
    simp only [wordCount_eq] at *
    exact Nat.mul_le_mul (by omega) (by omega)
  simp only [fits, Bool.and_eq_true, decide_eq_true_eq]
  simp only [wordCount_eq] at *
  omega

theorem bits_common (a b : Integral) : 32 ≤ (a.common b).bits := by
  cases a <;> cases b <;> decide

theorem le_bits_promoted (a : Integral) : 32 ≤ a.promoted.bits := by
  cases a <;> decide

/-- A result truncated to the common type of the operands. -/
theorem SameLow.typed (hl : SameLow wide left left') (hr : SameLow wide right right')
    {v v' : Int} (h : v ≡ v' [ZMOD wordCount 32])
    (hwide : left.type.common right.type = .ulong → wide) :
    SameLow wide ⟨v, left.type.common right.type⟩
      (truncated ⟨v', left'.type.common right'.type⟩) := by
  rw [hl.type, hr.type] at *
  exact sameLow_truncated rfl h (bits_common _ _) hwide

theorem SameLow.shiftCount_eq (hl : SameLow wide left left') (hr : SameLow wide right right') :
    shiftCount left right = shiftCount left' right' := by
  have hdvd : (left'.type.promoted.bits : Int) ∣ wordCount 32 := by
    rcases left'.type.bits_promoted with h | h <;> rw [h] <;> decide
  have hmod : right.value % left'.type.promoted.bits = right'.value % left'.type.promoted.bits :=
    hr.value.of_dvd hdvd
  rw [shiftCount, shiftCount, hl.type, hmod]

theorem ofWord_shiftLeft_modEq (t : Integral) (ht : 32 ≤ t.bits) (v : Int) (n : Nat) :
    t.ofWord (BitVec.ofInt t.bits v <<< n) ≡ v * wordCount n [ZMOD wordCount 32] := by
  rw [← t.wrap_mul_wordCount, t.wrap_wrap_mul]
  exact t.wrap_modEq_of_le _ ht

/-- A shift agrees in the lowest bits, unless it is one of a 64-bit word to the right. -/
theorem SameLow.shift {op : BinaryOperator} (hl : SameLow wide left left')
    (hr : SameLow wide right right') (hop : ¬ NeedsHigh op left.type)
    (hshift : op ∈ [.shiftLeft, .shiftRight, .unsignedShiftRight])
    (h : shift op left right = .ok c) (hwide : c.type = .ulong → wide) :
    ∃ c', shift op left' right' = .ok c' ∧ SameLow wide c c'.truncated := by
  have hcount := hl.shiftCount_eq hr
  obtain ⟨v, t⟩ := left
  obtain ⟨v', t'⟩ := left'
  obtain rfl : t = t' := hl.type
  have hvalue : v ≡ v' [ZMOD wordCount 32] := hl.value
  by_cases hint : right.type.promoted = .int
  · have hint' : right'.type.promoted = .int := hr.type ▸ hint
    rw [shift_eq op hint] at h
    cases h
    refine ⟨_, shift_eq op hint', sameLow_truncated rfl ?_ (le_bits_promoted t) hwide⟩
    dsimp only
    rw [← hcount]
    by_cases hbits : t.promoted.bits = 32
    · have hword : BitVec.ofInt t.promoted.bits v = BitVec.ofInt t.promoted.bits v' := by
        rw [ofInt_eq_ofInt_iff, hbits]
        exact hvalue
      rw [hword]
    · have hwide : t.promoted.bits = 64 := t.bits_promoted.resolve_left hbits
      obtain rfl : op = .shiftLeft := (List.mem_cons.mp hshift).resolve_right fun hright =>
        hop (.inr (.inr ⟨hright, hwide⟩))
      have hmul := hvalue.mul_right (wordCount (shiftCount ⟨v, t⟩ right))
      exact ((ofWord_shiftLeft_modEq _ (le_bits_promoted t) _ _).trans hmul).trans
        (ofWord_shiftLeft_modEq _ (le_bits_promoted t) _ _).symm
  · rw [shift_eq_error op hint] at h
    cases h

end Constant

namespace Operators

/-- The operators agree with those of folding in type and in the lowest bits, as long as these do
not rest on higher ones and there are no results of type `ulong`, unless `wide` holds. Where `lax`
holds, a binary operator may overflow instead. -/
structure Mirrors (ops : Operators) (wide lax : Prop) : Prop where
  unary : ∀ {op c w r}, SameLow wide c w → applyUnary op c = .ok r → (r.type = .ulong → wide) →
    ∃ r', ops.unary op w = .ok r' ∧ SameLow wide r r'
  binary : ∀ {op left right left' right' c}, SameLow wide left left' → SameLow wide right right' →
    ¬ NeedsHigh op left.type → applyBinary op left right = .ok c → (c.type = .ulong → wide) →
    (∃ c', ops.binary op left' right' = .ok c' ∧ SameLow wide c c') ∨
      (lax ∧ ops.binary op left' right' = .error .overflow)

variable {wide : Prop} {left right left' right' c w r : Constant}

/-- Operands with the same lowest bits have results with the same lowest bits. -/
theorem sameLow_unary {op : UnaryOperator} (h : SameLow wide c w) (hr : applyUnary op c = .ok r)
    (hwide : r.type = .ulong → wide) :
    ∃ r', truncating.unary op w = .ok r' ∧ SameLow wide r r' := by
  cases op with
  | plus =>
    cases hr
    refine ⟨_, rfl, ?_⟩
    rw [h.type] at *
    exact sameLow_truncated rfl h.value (le_bits_promoted _) hwide
  | complement =>
    cases hr
    refine ⟨_, rfl, ?_⟩
    rw [h.type] at *
    refine sameLow_truncated rfl ?_ (le_bits_promoted _) hwide
    have hvalue := h.value.neg.sub_right 1
    have hleft := w.type.promoted.wrap_modEq_of_le (-c.value - 1) (le_bits_promoted _)
    have hright := w.type.promoted.wrap_modEq_of_le (-w.value - 1) (le_bits_promoted _)
    exact (hleft.trans hvalue).trans hright.symm
  | minus =>
    rw [applyUnary_minus] at hr
    obtain ⟨v, hv, rfl⟩ := exists_of_map_eq_ok hr
    obtain ⟨-, rfl⟩ := of_checked_eq_ok hv
    have hminus := applyUnary_minus w
    rw [checked_of_fits (fits_neg h.le h.lt)] at hminus
    refine ⟨_, congrArg (Except.map truncated) hminus, ?_⟩
    rw [h.type] at *
    refine sameLow_truncated rfl h.value.neg ?_ hwide
    split
    · exact (by decide : 32 ≤ Integral.long.bits)
    · exact le_bits_promoted _

/-- Where a checked result fits, the truncating operators give it truncated. -/
theorem truncating_of_fits {t : Integral} {v : Int} (h : fits v = true) :
    ((checked v).map (Constant.mk · t)).map truncated = .ok (truncated ⟨v, t⟩) := by
  rw [checked_of_fits h]
  rfl

/-- The operators except for products. -/
theorem sameLow_binary {op : BinaryOperator} (hl : SameLow wide left left')
    (hr : SameLow wide right right') (hop : ¬ NeedsHigh op left.type) (hne : op ≠ .multiply)
    (h : applyBinary op left right = .ok c) (hwide : c.type = .ulong → wide) :
    ∃ c', truncating.binary op left' right' = .ok c' ∧ SameLow wide c c' := by
  cases op with
  | multiply => exact absurd rfl hne
  | divide => exact absurd (.inl rfl) hop
  | remainder => exact absurd (.inr (.inl rfl)) hop
  | shiftLeft | shiftRight | unsignedShiftRight =>
    obtain ⟨c', hc', hsame⟩ := hl.shift hr hop (by decide) h hwide
    exact ⟨_, congrArg (Except.map truncated) hc', hsame⟩
  | add =>
    obtain ⟨v, hv, rfl⟩ := exists_of_map_eq_ok h
    obtain ⟨-, rfl⟩ := of_checked_eq_ok hv
    exact ⟨_, truncating_of_fits (hl.fits_add hr).1, hl.typed hr (hl.value.add hr.value) hwide⟩
  | subtract =>
    obtain ⟨v, hv, rfl⟩ := exists_of_map_eq_ok h
    obtain ⟨-, rfl⟩ := of_checked_eq_ok hv
    exact ⟨_, truncating_of_fits (hl.fits_add hr).2, hl.typed hr (hl.value.sub hr.value) hwide⟩
  | bitAnd =>
    cases h
    exact ⟨_, rfl, hl.typed hr (isBitwise_and.modEq (by decide) hl.value hr.value) hwide⟩
  | bitXor =>
    cases h
    exact ⟨_, rfl, hl.typed hr (isBitwise_xor.modEq (by decide) hl.value hr.value) hwide⟩
  | bitOr =>
    cases h
    exact ⟨_, rfl, hl.typed hr (isBitwise_or.modEq (by decide) hl.value hr.value) hwide⟩

theorem truncatingExact_of_ne {op : BinaryOperator} (h : op ≠ .multiply) :
    truncatingExact.binary op left right = truncating.binary op left right := by
  cases op with
  | multiply => exact absurd rfl h
  | _ => rfl

theorem sameLow_product (hl : SameLow wide left left') (hr : SameLow wide right right')
    (h : applyBinary .multiply left right = .ok c) (hwide : c.type = .ulong → wide) :
    SameLow wide c (truncated ⟨left'.value * right'.value, left'.type.common right'.type⟩) := by
  obtain ⟨v, hv, rfl⟩ := exists_of_map_eq_ok h
  obtain ⟨-, rfl⟩ := of_checked_eq_ok hv
  exact hl.typed hr (hl.value.mul hr.value) hwide

/-- Truncating operators agree with those of folding, unless a product of truncated operands
overflows. This takes unsigned words of 64 bits. -/
theorem mirrors_truncating (wide : Prop) : truncating.Mirrors wide wide where
  unary := sameLow_unary
  binary {op left right left' right' c} hl hr hop h hwide := by
    by_cases hproduct : op = .multiply
    · subst hproduct
      by_cases hfits : fits (left'.value * right'.value) = true
      · exact .inl ⟨_, truncating_of_fits hfits, sameLow_product hl hr h hwide⟩
      · have hchecked : checked (left'.value * right'.value) = .error .overflow := if_neg hfits
        refine .inr ⟨Classical.byContradiction fun hnot => hfits (hl.fits_mul hr hnot), ?_⟩
        change ((checked (left'.value * right'.value)).map _).map truncated = _
        rw [hchecked]
        rfl
    · exact .inl (sameLow_binary hl hr hop hproduct h hwide)

/-- They always agree with them if products may be of any size. -/
theorem mirrors_truncatingExact (wide : Prop) : truncatingExact.Mirrors wide False where
  unary := sameLow_unary
  binary {op left right left' right' c} hl hr hop h hwide := by
    by_cases hproduct : op = .multiply
    · subst hproduct
      exact .inl ⟨_, rfl, sameLow_product hl hr h hwide⟩
    · obtain ⟨c', hc', hsame⟩ := sameLow_binary hl hr hop hproduct h hwide
      exact .inl ⟨c', (truncatingExact_of_ne hproduct).trans hc', hsame⟩

end Operators

end DeclGen
