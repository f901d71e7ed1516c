import DeclGen.Constant.Arithmetic
import Mathlib.Algebra.Group.Nat.Defs

/-!
# Truncation

Truncating a value to an integral type gives a value of the type, leaves the values of the type as
they are, and may be put off until after an addition or a multiplication.

## Main statements

* `Integral.wrap_eq_self_iff`: the values that truncation leaves alone
* `Integral.wrap_wrap_add`, `Integral.wrap_wrap_mul`: truncation before the operation does not show
  after it
* `Integral.fits_wrap_add`: counting on from a value of a type does not leave the word
-/

namespace DeclGen

open DeclGen.Constant

theorem Constant.wordCount_eq (n : Nat) : wordCount n = 2 ^ n := Nat.one_shiftLeft n

theorem Constant.wordCount_pos (n : Nat) : 0 < wordCount n := by
  rw [wordCount, Nat.one_shiftLeft]
  exact Nat.two_pow_pos n

theorem Constant.of_checked_eq_ok {v w : Int} (h : checked v = .ok w) : fits v = true ∧ w = v := by
  unfold checked at h
  split at h
  · rename_i hfits
    exact ⟨hfits, (Except.ok.inj h).symm⟩
  · cases h

theorem Constant.checked_of_fits {v : Int} (h : fits v = true) : checked v = .ok v := if_pos h

namespace Integral

@[simp] theorem wrap_wrap (t : Integral) (v : Int) : t.wrap (t.wrap v) = t.wrap v := by
  unfold wrap
  split <;> simp

theorem wrap_wrap_add (t : Integral) (v w : Int) : t.wrap (t.wrap v + w) = t.wrap (v + w) := by
  unfold wrap
  split <;> simp [Int.bmod_add_bmod]

theorem wrap_wrap_mul (t : Integral) (v w : Int) : t.wrap (t.wrap v * w) = t.wrap (v * w) := by
  unfold wrap
  split
  · exact Int.bmod_mul_bmod
  · rw [Int.mul_emod, Int.emod_emod, ← Int.mul_emod]

@[simp] theorem wrap_zero (t : Integral) : t.wrap 0 = 0 := by
  unfold wrap
  split <;> simp

theorem least_le_wrap (t : Integral) (v : Int) : t.least ≤ t.wrap v := by
  unfold least wrap
  split
  · have h := Int.le_bmod (x := v) (wordCount_pos t.bits)
    cases t <;> simp [bits, wordCount] at * <;> omega
  · exact Int.emod_nonneg _ (by have := wordCount_pos t.bits; omega)

theorem wrap_le_greatest (t : Integral) (v : Int) : t.wrap v ≤ t.greatest := by
  unfold greatest wrap
  split
  · have h := Int.bmod_lt (x := v) (wordCount_pos t.bits)
    cases t <;> simp [bits, wordCount] at * <;> omega
  · have := Int.emod_lt_of_pos v (b := wordCount t.bits)
      (by have := wordCount_pos t.bits; omega)
    omega

/-- The values of all types together: signed and unsigned words of 64 bits. -/
theorem le_least (t : Integral) : -(wordCount 63 : Int) ≤ t.least := by
  cases t <;> decide

theorem greatest_lt (t : Integral) : t.greatest < wordCount 64 := by
  cases t <;> decide

/-- Only `ulong` needs an unsigned word of 64 bits. -/
theorem greatest_lt_of_ne {t : Integral} (h : t ≠ .ulong) : t.greatest < wordCount 63 := by
  cases t <;> first | decide | exact absurd rfl h

/-- Truncation leaves exactly the values of the type alone. -/
theorem wrap_eq_self_iff (t : Integral) (v : Int) :
    t.wrap v = v ↔ t.least ≤ v ∧ v ≤ t.greatest := by
  constructor
  · intro h
    exact ⟨h ▸ t.least_le_wrap v, h ▸ t.wrap_le_greatest v⟩
  · rintro ⟨hl, hg⟩
    unfold least greatest at *
    unfold wrap
    split at hl <;> rename_i hs
    · rw [if_pos hs] at hg
      rw [if_pos hs]
      apply Int.bmod_eq_of_le <;> cases t <;> simp [bits, wordCount] at * <;> omega
    · rw [if_neg hs] at hg
      rw [if_neg hs]
      exact Int.emod_eq_of_lt hl (by omega)

theorem fits_wrap_add (t : Integral) (v : Int) {k : Nat} (h : k < wordCount 64) :
    Constant.fits (t.wrap v + k) = true := by
  have hl := t.least_le_wrap v
  have hg := t.wrap_le_greatest v
  simp only [fits, Bool.and_eq_true, decide_eq_true_eq]
  unfold least greatest at *
  cases t <;> simp [bits, wordCount, isSigned] at * <;> omega

theorem fits_wrap (t : Integral) (v : Int) : Constant.fits (t.wrap v) = true := by
  simpa using t.fits_wrap_add v (wordCount_pos 64)

end Integral

end DeclGen
