import DeclGen.Proofs.Constant.Truncation
import Mathlib.Data.Int.ModEq

/-!
# The lowest bits of values

Two values have the same lowest bits if they are congruent modulo the number of different words of
that many bits. The lowest bits of a result rest on those of the operands alone, for sums, products,
negatives and bitwise operators.

## Main definitions

* `Constant.IsBitwise`: an operator that computes every bit from the two bits in its place

## Main statements

* `Integral.wrap_modEq`: truncation keeps the lowest bits
* `Constant.IsBitwise.modEq`: bitwise operators compute the lowest bits from the lowest bits
-/

namespace DeclGen

open DeclGen.Constant

theorem Constant.wordCount_dvd {m n : Nat} (h : m ≤ n) :
    (wordCount m : Int) ∣ (wordCount n : Int) := by
  rw [wordCount_eq, wordCount_eq]
  exact_mod_cast Nat.pow_dvd_pow 2 h

namespace Integral

theorem wrap_modEq (t : Integral) (v : Int) : t.wrap v ≡ v [ZMOD wordCount t.bits] := by
  unfold wrap
  split
  · exact Int.bmod_emod
  · exact Int.mod_modEq v _

theorem wrap_modEq_of_le (t : Integral) (v : Int) {w : Nat} (h : w ≤ t.bits) :
    t.wrap v ≡ v [ZMOD wordCount w] :=
  (t.wrap_modEq v).of_dvd (wordCount_dvd h)

/-- Values with the same lowest bits are the same in a type of this many bits, or fewer. -/
theorem wrap_eq_of_modEq (t : Integral) {v v' : Int} {w : Nat} (hw : t.bits ≤ w)
    (h : v ≡ v' [ZMOD wordCount w]) : t.wrap v = t.wrap v' := by
  have hbits : v % wordCount t.bits = v' % wordCount t.bits := h.of_dvd (wordCount_dvd hw)
  unfold wrap
  split
  · rw [← Int.emod_bmod v, hbits, Int.emod_bmod]
  · exact hbits

end Integral

namespace Constant

/-! ## Bitwise operators -/

/-- Numbers make the same word exactly if they are congruent modulo the number of words. -/
theorem ofInt_eq_ofInt_iff {w : Nat} {v v' : Int} :
    BitVec.ofInt w v = BitVec.ofInt w v' ↔ v ≡ v' [ZMOD wordCount w] := by
  rw [wordCount_eq, Int.ModEq]
  constructor
  · intro h
    have hnat := congrArg BitVec.toNat h
    have hpos : ((2 ^ w : Nat) : Int) ≠ 0 := by exact_mod_cast (Nat.two_pow_pos w).ne'
    have hv := Int.emod_nonneg v hpos
    have hv' := Int.emod_nonneg v' hpos
    rw [BitVec.toNat_ofInt, BitVec.toNat_ofInt] at hnat
    omega
  · intro h
    apply BitVec.eq_of_toNat_eq
    rw [BitVec.toNat_ofInt, BitVec.toNat_ofInt, h]

theorem setWidth_ofInt {w n : Nat} (h : w ≤ n) (v : Int) :
    (BitVec.ofInt n v).setWidth w = BitVec.ofInt w v := by
  apply BitVec.eq_of_toInt_eq
  rw [← BitVec.signExtend_eq_setWidth_of_le _ h, BitVec.toInt_signExtend, BitVec.toInt_ofInt,
    BitVec.toInt_ofInt, Nat.min_eq_left h, Int.bmod_bmod_of_dvd (Nat.pow_dvd_pow 2 h)]

/-- The operator computes every bit from the two bits in its place, so that it may be computed in
wider or narrower words. -/
structure IsBitwise (f : (w : Nat) → BitVec w → BitVec w → BitVec w) : Prop where
  setWidth : ∀ {w n : Nat} (x y : BitVec w),
    (f w x y).setWidth n = f n (x.setWidth n) (y.setWidth n)
  signExtend : ∀ {w n : Nat} (x y : BitVec w),
    (f w x y).signExtend n = f n (x.signExtend n) (y.signExtend n)

theorem isBitwise_and : IsBitwise fun _ x y => x &&& y :=
  ⟨fun _ _ => BitVec.setWidth_and, fun _ _ => BitVec.signExtend_and⟩

theorem isBitwise_or : IsBitwise fun _ x y => x ||| y :=
  ⟨fun _ _ => BitVec.setWidth_or, fun _ _ => BitVec.signExtend_or⟩

theorem isBitwise_xor : IsBitwise fun _ x y => x ^^^ y :=
  ⟨fun _ _ => BitVec.setWidth_xor, fun _ _ => BitVec.signExtend_xor⟩

namespace IsBitwise

variable {f : (w : Nat) → BitVec w → BitVec w → BitVec w} {a a' b b' : Int} {n w : Nat}

theorem modEq (hf : IsBitwise f) (h : w ≤ n) (ha : a ≡ a' [ZMOD wordCount w])
    (hb : b ≡ b' [ZMOD wordCount w]) :
    (f n (.ofInt n a) (.ofInt n b)).toInt ≡ (f n (.ofInt n a') (.ofInt n b')).toInt
      [ZMOD wordCount w] := by
  have lowest (x : BitVec n) : BitVec.ofInt w x.toInt = x.setWidth w := by
    rw [← setWidth_ofInt h, BitVec.ofInt_toInt]
  rw [← ofInt_eq_ofInt_iff, lowest, lowest, hf.setWidth, hf.setWidth]
  simp only [setWidth_ofInt h, ofInt_eq_ofInt_iff.mpr ha, ofInt_eq_ofInt_iff.mpr hb]

end IsBitwise

end Constant

end DeclGen
