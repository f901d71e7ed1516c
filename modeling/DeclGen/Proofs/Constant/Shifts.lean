import DeclGen.Constant.Arithmetic
import DeclGen.Proofs.Constant.Truncation

/-!
# Shifts of machine words

A value truncated to an integral type is the machine word of its lowest bits, read with or without a
sign. Shifting such a value by multiplying it with a power of two, or by dividing it by one, shifts
the machine word.

## Main definitions

* `Integral.ofWord`: the value that a machine word stands for in an integral type

## Main statements

* `Integral.wrap_eq_ofWord`: truncation keeps the machine word of the lowest bits
* `Constant.applyBinary_shifts`: shifts of constants are shifts of machine words
-/

namespace DeclGen

open DeclGen.Constant

namespace Integral

def ofWord (t : Integral) (x : BitVec t.bits) : Int := if t.isSigned then x.toInt else x.toNat

variable (t : Integral) (v : Int) (n : Nat)

/-- The word of the lowest bits of a value stands for the value of the type with these bits. -/
theorem wrap_eq_ofWord : t.wrap v = t.ofWord (BitVec.ofInt t.bits v) := by
  unfold wrap ofWord
  rw [wordCount_eq]
  split
  · rw [BitVec.toInt_ofInt]
  · have hnonneg : 0 ≤ v % ((2 ^ t.bits : Nat) : Int) :=
      Int.emod_nonneg _ (by have := Nat.two_pow_pos t.bits; omega)
    rw [BitVec.toNat_ofInt, Int.toNat_of_nonneg hnonneg]

theorem ofWord_eq_wrap (x : BitVec t.bits) : t.ofWord x = t.wrap x.toNat := by
  rw [wrap_eq_ofWord, BitVec.ofInt_natCast, BitVec.ofNat_toNat, BitVec.setWidth_eq]

/-- The lowest bits of a value, read without a sign. -/
theorem wrap_emod : t.wrap v % wordCount t.bits = (BitVec.ofInt t.bits v).toNat := by
  have hnonneg : 0 ≤ v % ((2 ^ t.bits : Nat) : Int) :=
    Int.emod_nonneg _ (by have := Nat.two_pow_pos t.bits; omega)
  rw [BitVec.toNat_ofInt, Int.toNat_of_nonneg hnonneg]
  unfold wrap
  rw [wordCount_eq]
  split
  · exact Int.bmod_emod
  · exact Int.emod_emod _ _

/-! ## The three shifts -/

theorem wrap_mul_wordCount :
    t.wrap (t.wrap v * wordCount n) = t.ofWord (BitVec.ofInt t.bits v <<< n) := by
  have hpower : BitVec.ofInt t.bits (wordCount n) = BitVec.twoPow t.bits n := by
    rw [BitVec.ofInt_natCast, wordCount_eq]
    apply BitVec.eq_of_toNat_eq
    rw [BitVec.toNat_ofNat, BitVec.toNat_twoPow]
  rw [wrap_wrap_mul, wrap_eq_ofWord, BitVec.ofInt_mul, hpower, ← BitVec.shiftLeft_eq_mul_twoPow]

theorem toNat_ediv (x : BitVec t.bits) : (x.toNat : Int) / wordCount n = (x >>> n).toNat := by
  rw [BitVec.toNat_ushiftRight, Nat.shiftRight_eq_div_pow, wordCount_eq, Int.natCast_ediv]

theorem wrap_ediv_wordCount :
    t.wrap v / wordCount n = t.ofWord (if t.isSigned then (BitVec.ofInt t.bits v).sshiftRight n
      else BitVec.ofInt t.bits v >>> n) := by
  rw [wrap_eq_ofWord, ofWord, ofWord]
  by_cases hs : t.isSigned = true
  · rw [if_pos hs, if_pos hs, if_pos hs, BitVec.toInt_sshiftRight, Int.shiftRight_eq_div_pow,
      wordCount_eq]
  · rw [if_neg hs, if_neg hs, if_neg hs, toNat_ediv]

theorem wrap_emod_ediv_wordCount :
    t.wrap (t.wrap v % wordCount t.bits / wordCount n) =
      t.ofWord (BitVec.ofInt t.bits v >>> n) := by
  rw [wrap_emod, toNat_ediv, ← ofWord_eq_wrap]

/-! ## Widths -/

theorem bits_promoted : t.promoted.bits = 32 ∨ t.promoted.bits = 64 := by
  cases t <;> decide

theorem shiftWidth_promoted : t.promoted.shiftWidth = t.promoted.bits := by
  cases t <;> decide

/-- A value of a type, shifted left within its width, still fits into a word. -/
theorem fits_wrap_mul (h : n < t.bits) : fits (t.wrap v * wordCount n) = true := by
  have hlow := Int.le_trans t.le_least (t.least_le_wrap v)
  have hhigh := Int.lt_of_le_of_lt (t.wrap_le_greatest v) t.greatest_lt
  have hpos : (0 : Int) < wordCount n := by exact_mod_cast wordCount_pos n
  have hcount : (wordCount n : Int) ≤ wordCount 63 := by
    have hbits : t.bits ≤ 64 := by cases t <;> decide
    rw [wordCount_eq, wordCount_eq]
    exact_mod_cast Nat.pow_le_pow_right (show 0 < 2 by decide) (show n ≤ 63 by omega)
  have hleast := Int.mul_le_mul_of_nonneg_right hlow (Int.le_of_lt hpos)
  have hgreatest := Int.mul_lt_mul_of_pos_right hhigh hpos
  simp only [fits, Bool.and_eq_true, decide_eq_true_eq]
  simp only [wordCount_eq 63, wordCount_eq 64, wordCount_eq 127] at *
  omega

end Integral

namespace Constant

variable {left right : Constant}

/-- The word shifted by a number of bits: with zeros to the left, with copies of the sign bit to the
right if the type is signed, and with zeros to the right otherwise. -/
def shiftWord (op : BinaryOperator) (t : Integral) (x : BitVec t.bits) (n : Nat) : BitVec t.bits :=
  match op with
  | .shiftLeft => x <<< n
  | .unsignedShiftRight => x >>> n
  | _ => if t.isSigned then x.sshiftRight n else x >>> n

theorem shiftBy_wrap (op : BinaryOperator) (t : Integral) (v : Int) (n : Nat) :
    shiftBy op t (t.wrap v) n = t.ofWord (shiftWord op t (BitVec.ofInt t.bits v) n) := by
  cases op with
  | shiftLeft => exact t.wrap_mul_wordCount v n
  | unsignedShiftRight => exact t.wrap_emod_ediv_wordCount v n
  | _ => exact t.wrap_ediv_wordCount v n

/-- The number of bits by which the right operand shifts the left one. -/
def shiftCount (left right : Constant) : Nat := (right.value % left.type.promoted.bits).toNat

theorem shiftCount_lt (left right : Constant) :
    shiftCount left right < left.type.promoted.bits := by
  have hpos : (0 : Int) < left.type.promoted.bits := by
    rcases left.type.bits_promoted with h | h <;> rw [h] <;> decide
  have hnonneg := Int.emod_nonneg right.value (Int.ne_of_gt hpos)
  have hlt := Int.emod_lt_of_pos right.value hpos
  unfold shiftCount
  omega

/-- The result of a shift is the value of the shifted word. -/
theorem shift_eq (op : BinaryOperator) (hint : right.type.promoted = .int) :
    shift op left right = .ok ⟨left.type.promoted.ofWord (shiftWord op left.type.promoted
      (BitVec.ofInt _ left.value) (shiftCount left right)), left.type.promoted⟩ := by
  rw [shift, if_pos hint]
  dsimp only
  rw [left.type.shiftWidth_promoted, shiftBy_wrap]
  rfl

theorem shift_eq_error (op : BinaryOperator) (hint : right.type.promoted ≠ .int) :
    shift op left right = .error (.invalidShift right.value) := by
  rw [shift, if_neg hint]

/-- Shifts of constants are shifts of machine words. The word is that of the promoted type of the
left operand, 32 or 64 bits wide, and holds the lowest bits of its value; the count is the value of
the right operand modulo the width. Shifting to the left fills up with zeros, shifting to the right
with copies of the sign bit if the type is signed and otherwise with zeros, and unsigned shifting to
the right always with zeros. What is shifted to the left fits into a word of 128 bits before it is
truncated. A count that does not promote to `int` is refused. -/
theorem applyBinary_shifts (left right : Constant) :
    let type := left.type.promoted
    let word := BitVec.ofInt type.bits left.value
    let count := (right.value % type.bits).toNat
    (type.bits = 32 ∨ type.bits = 64) ∧
    (right.type.promoted = .int →
      applyBinary .shiftLeft left right = .ok ⟨type.ofWord (word <<< count), type⟩ ∧
      applyBinary .shiftRight left right =
        .ok ⟨type.ofWord (if type.isSigned then word.sshiftRight count else word >>> count), type⟩ ∧
      applyBinary .unsignedShiftRight left right = .ok ⟨type.ofWord (word >>> count), type⟩ ∧
      fits (type.wrap left.value * wordCount count) = true) ∧
    (right.type.promoted ≠ .int →
      ∀ op ∈ [BinaryOperator.shiftLeft, .shiftRight, .unsignedShiftRight],
        applyBinary op left right = .error (.invalidShift right.value)) := by
  intro type word count
  refine ⟨left.type.bits_promoted, fun hint => ⟨?_, ?_, ?_, ?_⟩, fun hint op hop => ?_⟩
  · exact shift_eq .shiftLeft hint
  · exact shift_eq .shiftRight hint
  · exact shift_eq .unsignedShiftRight hint
  · exact type.fits_wrap_mul _ _ (shiftCount_lt left right)
  · simp only [List.mem_cons, List.not_mem_nil, or_false] at hop
    rcases hop with rfl | rfl | rfl <;> exact shift_eq_error _ hint

theorem applyBinary_shifts_allOnes :
    applyBinary .shiftLeft ⟨0xFFFFFFFFFFFFFFFF, .ulong⟩ ⟨-1, .sbyte⟩ =
        .ok ⟨0x8000000000000000, .ulong⟩ ∧
      applyBinary .shiftRight ⟨-16, .short⟩ ⟨-30, .int⟩ = .ok ⟨-4, .int⟩ ∧
      applyBinary .unsignedShiftRight ⟨-1, .int⟩ ⟨60, .byte⟩ = .ok ⟨15, .int⟩ ∧
      applyBinary .shiftLeft ⟨1, .int⟩ ⟨2, .long⟩ = .error (.invalidShift 2) := by
  have hleft := ((applyBinary_shifts ⟨0xFFFFFFFFFFFFFFFF, .ulong⟩ ⟨-1, .sbyte⟩).2.1 rfl).1
  have hright := ((applyBinary_shifts ⟨-16, .short⟩ ⟨-30, .int⟩).2.1 rfl).2.1
  have hunsigned := ((applyBinary_shifts ⟨-1, .int⟩ ⟨60, .byte⟩).2.1 rfl).2.2.1
  have hrefused := (applyBinary_shifts ⟨1, .int⟩ ⟨2, .long⟩).2.2 (by decide)
  exact ⟨hleft, hright, hunsigned, hrefused .shiftLeft (by decide)⟩

end Constant

end DeclGen
