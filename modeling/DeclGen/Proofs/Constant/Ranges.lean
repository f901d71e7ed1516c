import DeclGen.Proofs.Constant.Congruence
import DeclGen.Proofs.Constant.Shifts

/-!
# Values in the range of their type

Operators that truncate give a value of their type, whatever their operands are. The others give the
exact result, which for operands in the ranges of their types may lie outside of the range of the
result's type: products, sums, differences and negatives by their size, a quotient only if the least
value is divided by minus one, and the rest only where a negative operand meets `ulong`.

## Main definitions

* `Integral.Holds`, `Constant.InRange`: the value lies in the range of the type
* `Constant.UnaryLeaves`, `Constant.BinaryLeaves`: the operators that leave the range, from operands
  in range

## Main statements

* `Constant.inRange_shift`: shifts stay in range, whatever the operands
* `Constant.inRange_unary_iff`, `Constant.inRange_binary_iff`: when a result is in range
-/

namespace DeclGen

open DeclGen.Constant

namespace Integral

def Holds (t : Integral) (v : Int) : Prop := t.least ≤ v ∧ v ≤ t.greatest

instance (t : Integral) (v : Int) : Decidable (t.Holds v) :=
  inferInstanceAs (Decidable (t.least ≤ v ∧ v ≤ t.greatest))

variable {t a b : Integral} {v : Int}

theorem holds_wrap (t : Integral) (v : Int) : t.Holds (t.wrap v) :=
  ⟨t.least_le_wrap v, t.wrap_le_greatest v⟩

theorem Holds.wrap_eq (h : t.Holds v) : t.wrap v = v := (t.wrap_eq_self_iff v).mpr h

theorem holds_ofWord (x : BitVec t.bits) : t.Holds (t.ofWord x) := by
  rw [ofWord_eq_wrap]
  exact holds_wrap t _

/-- A value of a type is that of a machine word. -/
theorem Holds.exists_word (h : t.Holds v) : ∃ x : BitVec t.bits, v = t.ofWord x :=
  ⟨BitVec.ofInt t.bits v, by rw [← wrap_eq_ofWord, h.wrap_eq]⟩

theorem Holds.le (h : t.Holds v) : -(wordCount 63 : Int) ≤ v := Int.le_trans t.le_least h.1

theorem Holds.lt (h : t.Holds v) : v < wordCount 64 := Int.lt_of_le_of_lt h.2 t.greatest_lt

theorem Holds.fits (h : t.Holds v) : Constant.fits v = true := h.wrap_eq ▸ t.fits_wrap v

theorem Holds.promoted (h : t.Holds v) : t.promoted.Holds v := by
  have hleast : t.promoted.least ≤ t.least := by cases t <;> decide
  have hgreatest : t.greatest ≤ t.promoted.greatest := by cases t <;> decide
  exact ⟨Int.le_trans hleast h.1, Int.le_trans h.2 hgreatest⟩

theorem promoted_cases (t : Integral) :
    t.promoted = .int ∨ t.promoted = .long ∨ t.promoted = .uint ∨ t.promoted = .ulong := by
  cases t <;> decide

theorem common_comm (a b : Integral) : a.common b = b.common a := by
  cases a <;> cases b <;> rfl

/-- Except for `ulong`, the common type of operands holds the values of both. -/
theorem Holds.common (h : a.Holds v) (hcommon : a.common b ≠ .ulong) : (a.common b).Holds v := by
  have hleast : (a.common b).least ≤ a.least := by
    cases a <;> cases b <;> first | decide | exact absurd rfl hcommon
  have hgreatest : a.greatest ≤ (a.common b).greatest := by
    cases a <;> cases b <;> decide
  exact ⟨Int.le_trans hleast h.1, Int.le_trans h.2 hgreatest⟩

theorem Holds.common_right (h : b.Holds v) (hcommon : a.common b ≠ .ulong) :
    (a.common b).Holds v := by
  rw [common_comm] at hcommon ⊢
  exact h.common hcommon

theorem holds_ulong_iff : Integral.ulong.Holds v ↔ 0 ≤ v ∧ v < wordCount 64 := by
  have hleast : Integral.ulong.least = 0 := rfl
  have hgreatest : Integral.ulong.greatest = wordCount 64 - 1 := rfl
  rw [Holds, hleast, hgreatest]
  omega

/-- One of the operands is never negative if their common type is `ulong`. -/
theorem nonneg_of_common (ha : a.Holds v) {w : Int} (hb : b.Holds w)
    (hcommon : a.common b = .ulong) : 0 ≤ v ∨ 0 ≤ w := by
  have hor : a = .ulong ∨ b = .ulong := by
    cases a <;> cases b <;> first | exact .inl rfl | exact .inr rfl | cases hcommon
  rcases hor with rfl | rfl
  · exact .inl (holds_ulong_iff.mp ha).1
  · exact .inr (holds_ulong_iff.mp hb).1

/-! ## Negatives, quotients and remainders -/

theorem least_nonpos (t : Integral) : t.least ≤ 0 := by
  cases t <;> decide

theorem greatest_nonneg (t : Integral) : 0 ≤ t.greatest := by
  cases t <;> decide

/-- There is no negative value, or one more than there are positive ones. -/
theorem least_eq (t : Integral) : t.least = 0 ∨ t.least = -(t.greatest + 1) := by
  cases t <;> decide

theorem Holds.neg_iff (hv : t.Holds v) (ht : t.least = -(t.greatest + 1)) :
    t.Holds (-v) ↔ v ≠ t.least := by
  unfold Holds at *
  omega

theorem Holds.neg_of_uint (hv : Integral.uint.Holds v) : Integral.long.Holds (-v) := by
  have hleast : Integral.uint.least = 0 := rfl
  have hgreatest : Integral.uint.greatest ≤ -Integral.long.least := by decide
  have hlong := Integral.long.greatest_nonneg
  unfold Holds at *
  omega

/-- A quotient lies outside of the range of the operands only where the least value is divided by
minus one. -/
theorem Holds.tdiv_iff {w : Int} (hv : t.Holds v) (hw : t.Holds w) (hne : w ≠ 0) :
    t.Holds (Int.tdiv v w) ↔ ¬ (v = t.least ∧ w = -1) := by
  have hgreatest := t.greatest_nonneg
  have habs : (Int.tdiv v w).natAbs = v.natAbs / w.natAbs := Int.natAbs_tdiv v w
  have hle : (Int.tdiv v w).natAbs ≤ v.natAbs := Int.natAbs_tdiv_le_natAbs v w
  unfold Holds at *
  rcases t.least_eq with hzero | hsigned
  · have hnonneg : 0 ≤ Int.tdiv v w := Int.tdiv_nonneg (by omega) (by omega)
    omega
  · by_cases hone : w = -1
    · subst hone
      rw [Int.tdiv_neg, Int.tdiv_one]
      omega
    -- For any other divisor a quotient as large as its dividend is the dividend.
    · have hquotient : v.natAbs ≠ 0 → w ≠ 1 → v.natAbs / w.natAbs < v.natAbs := fun hv hw =>
        Nat.div_lt_self (by omega) (by omega)
      by_cases hw : w = 1
      · subst hw
        rw [Int.tdiv_one]
        omega
      · omega

/-- In a common type a quotient is as in one type, except in `ulong`, where it must not be
negative. -/
theorem Holds.common_tdiv_iff {w : Int} (hv : a.Holds v) (hw : b.Holds w) (hne : w ≠ 0) :
    (a.common b).Holds (Int.tdiv v w) ↔
      ¬ if a.common b = .ulong then Int.tdiv v w < 0 else v = (a.common b).least ∧ w = -1 := by
  by_cases hulong : a.common b = .ulong
  · have hlow := hv.le
    have hhigh := hv.lt
    have hle := Int.natAbs_tdiv_le_natAbs v w
    rw [if_pos hulong, hulong, holds_ulong_iff]
    simp only [wordCount_eq] at *
    omega
  · rw [if_neg hulong]
    exact (hv.common hulong).tdiv_iff (hw.common_right hulong) hne

/-- A remainder lies between zero and the dividend. -/
theorem tmod_between (v w : Int) :
    (0 ≤ v → 0 ≤ Int.tmod v w ∧ Int.tmod v w ≤ v) ∧
      (v ≤ 0 → v ≤ Int.tmod v w ∧ Int.tmod v w ≤ 0) := by
  have hle : (Int.tmod v w).natAbs ≤ v.natAbs := by
    rw [Int.natAbs_tmod]
    exact Nat.mod_le _ _
  refine ⟨fun hv => ?_, fun hv => ?_⟩
  · have hnonneg := Int.tmod_nonneg w hv
    omega
  · have hneg := Int.tmod_nonneg w (Int.neg_nonneg_of_nonpos hv)
    rw [Int.neg_tmod] at hneg
    omega

theorem Holds.tmod (hv : t.Holds v) (w : Int) : t.Holds (Int.tmod v w) := by
  have hbetween := tmod_between v w
  have hleast := t.least_nonpos
  have hgreatest := t.greatest_nonneg
  unfold Holds at *
  omega

/-- A remainder is no greater than its dividend, so only its sign can take it out of the type. -/
theorem Holds.common_tmod_iff (hv : a.Holds v) (w : Int) :
    (a.common b).Holds (Int.tmod v w) ↔ ¬ (a.common b = .ulong ∧ Int.tmod v w < 0) := by
  by_cases hulong : a.common b = .ulong
  · have hbetween := tmod_between v w
    have hlow := hv.le
    have hhigh := hv.lt
    rw [hulong, holds_ulong_iff]
    simp only [wordCount_eq, true_and] at *
    omega
  · exact iff_of_true ((hv.common hulong).tmod w) fun h => hulong h.1

end Integral

namespace Constant

/-! ## Bitwise operators -/

namespace IsBitwise

variable {f : (w : Nat) → BitVec w → BitVec w → BitVec w} {t : Integral} {a b : Int}

/-- Computing with the values of two words in a wide word gives the value of the computed word. -/
theorem ofWord (hf : IsBitwise f) (x y : BitVec t.bits) :
    (f 128 (.ofInt 128 (t.ofWord x)) (.ofInt 128 (t.ofWord y))).toInt =
      t.ofWord (f t.bits x y) := by
  have hbits : t.bits ≤ 64 := by cases t <;> decide
  unfold Integral.ofWord
  split
  · change (f 128 (x.signExtend 128) (y.signExtend 128)).toInt = _
    rw [← hf.signExtend, BitVec.toInt_signExtend_of_le (by omega)]
  · rw [BitVec.ofInt_natCast, BitVec.ofInt_natCast, BitVec.ofNat_toNat, BitVec.ofNat_toNat,
      ← hf.setWidth, BitVec.toInt_eq_toNat_of_lt, BitVec.toNat_setWidth_of_le (by omega)]
    rw [BitVec.toNat_setWidth_of_le (by omega)]
    have hlt := (f t.bits x y).isLt
    have hpow : 2 ^ t.bits ≤ 2 ^ 64 := Nat.pow_le_pow_right (by decide) hbits
    omega

theorem holds (hf : IsBitwise f) (ha : t.Holds a) (hb : t.Holds b) :
    t.Holds (f 128 (.ofInt 128 a) (.ofInt 128 b)).toInt := by
  obtain ⟨x, rfl⟩ := ha.exists_word
  obtain ⟨y, rfl⟩ := hb.exists_word
  rw [hf.ofWord]
  exact Integral.holds_ofWord _

end IsBitwise

section Sign

variable {a b : Int}

theorem toInt_neg_iff_msb {n : Nat} (x : BitVec n) : x.toInt < 0 ↔ x.msb = true := by
  rw [BitVec.msb_eq_toInt, decide_eq_true_eq]

theorem toInt_ofInt_of_fits (h : fits a = true) : (BitVec.ofInt 128 a).toInt = a := by
  simp only [fits, wordCount_eq, Bool.and_eq_true, decide_eq_true_eq] at h
  exact BitVec.toInt_ofInt_eq_self (by decide) (by exact_mod_cast h.1) (by exact_mod_cast h.2)

theorem msb_ofInt_of_fits (h : fits a = true) : (BitVec.ofInt 128 a).msb = true ↔ a < 0 := by
  rw [← toInt_neg_iff_msb, toInt_ofInt_of_fits h]

theorem bitOr_neg_iff (ha : fits a = true) (hb : fits b = true) :
    bitOr a b < 0 ↔ a < 0 ∨ b < 0 := by
  rw [bitOr, toInt_neg_iff_msb, BitVec.msb_or, Bool.or_eq_true, msb_ofInt_of_fits ha,
    msb_ofInt_of_fits hb]

theorem bitXor_neg_iff (ha : fits a = true) (hb : fits b = true) :
    bitXor a b < 0 ↔ ¬ (a < 0 ↔ b < 0) := by
  rw [bitXor, toInt_neg_iff_msb, BitVec.msb_xor, bne_iff_ne, ne_eq, Bool.eq_iff_iff,
    msb_ofInt_of_fits ha, msb_ofInt_of_fits hb]

/-- The bits set in a word that is not negative and in another one are a smaller word that is not
negative. -/
theorem bitAnd_between (hb : fits b = true) (hnonneg : 0 ≤ b) :
    0 ≤ bitAnd a b ∧ bitAnd a b ≤ b := by
  have hmsb : (BitVec.ofInt 128 b).msb = false := by
    rw [← Bool.not_eq_true, msb_ofInt_of_fits hb]
    omega
  have hword : (BitVec.ofInt 128 a &&& BitVec.ofInt 128 b).msb = false := by
    rw [BitVec.msb_and, hmsb, Bool.and_false]
  have hle : (BitVec.ofInt 128 a &&& BitVec.ofInt 128 b).toNat ≤ (BitVec.ofInt 128 b).toNat := by
    rw [BitVec.toNat_and]
    exact Nat.and_le_right
  have hvalue := toInt_ofInt_of_fits hb
  rw [BitVec.toInt_eq_toNat_of_msb hmsb] at hvalue
  rw [bitAnd, BitVec.toInt_eq_toNat_of_msb hword]
  omega

theorem bitAnd_comm (a b : Int) : bitAnd a b = bitAnd b a := by
  rw [bitAnd, bitAnd, BitVec.and_comm]

end Sign

section Common

variable {p q : Integral} {a b : Int}

theorem holds_common_bitAnd (ha : p.Holds a) (hb : q.Holds b) :
    (p.common q).Holds (bitAnd a b) := by
  by_cases hulong : p.common q = .ulong
  · rw [hulong, Integral.holds_ulong_iff]
    rcases Integral.nonneg_of_common ha hb hulong with hnonneg | hnonneg
    · have hbetween := bitAnd_between (a := b) ha.fits hnonneg
      rw [bitAnd_comm]
      exact ⟨hbetween.1, Int.lt_of_le_of_lt hbetween.2 ha.lt⟩
    · have hbetween := bitAnd_between (a := a) hb.fits hnonneg
      exact ⟨hbetween.1, Int.lt_of_le_of_lt hbetween.2 hb.lt⟩
  · exact isBitwise_and.holds (ha.common hulong) (hb.common_right hulong)

/-- A bitwise operator whose result is negative if just one operand is keeps to the common type,
except where it is `ulong` and one of the operands is negative. -/
theorem IsBitwise.holds_common_iff {f : (w : Nat) → BitVec w → BitVec w → BitVec w}
    (hf : IsBitwise f) (ha : p.Holds a) (hb : q.Holds b)
    (hsign : (a < 0 ↔ ¬ b < 0) → (f 128 (.ofInt 128 a) (.ofInt 128 b)).toInt < 0) :
    (p.common q).Holds (f 128 (.ofInt 128 a) (.ofInt 128 b)).toInt ↔
      ¬ (p.common q = .ulong ∧ (a < 0 ∨ b < 0)) := by
  by_cases hulong : p.common q = .ulong
  · have hnonneg := Integral.nonneg_of_common ha hb hulong
    rw [hulong]
    by_cases hneg : a < 0 ∨ b < 0
    · have hresult := hsign (by omega)
      refine iff_of_false (fun h => ?_) fun h => h ⟨rfl, hneg⟩
      have := (Integral.holds_ulong_iff.mp h).1
      omega
    · have ha' := Integral.holds_ulong_iff.mpr ⟨by omega, ha.lt⟩
      have hb' := Integral.holds_ulong_iff.mpr ⟨by omega, hb.lt⟩
      exact iff_of_true (hf.holds ha' hb') fun h => hneg h.2
  · exact iff_of_true (hf.holds (ha.common hulong) (hb.common_right hulong)) fun h => hulong h.1

end Common

/-! ## Results in range -/

/-- The value of the constant lies in the range of its type. -/
def InRange (c : Constant) : Prop := c.type.Holds c.value

instance (c : Constant) : Decidable c.InRange := inferInstanceAs (Decidable (c.type.Holds c.value))

/-- The negative of a constant in range lies outside of the range of its type: there is no positive
counterpart of the least value, and in `ulong` there are no negative values. A negative of `uint` is
a `long`. -/
def UnaryLeaves (op : UnaryOperator) (c : Constant) : Prop :=
  match op with
  | .minus =>
    match c.type.promoted with
    | .uint => False
    | .ulong => c.value ≠ 0
    | type => c.value = type.least
  | .plus | .complement => False

/-- The result for constants in range lies outside of the range of the common type. -/
def BinaryLeaves (op : BinaryOperator) (left right : Constant) : Prop :=
  let type := left.type.common right.type
  match op with
  | .multiply => ¬ type.Holds (left.value * right.value)
  | .add => ¬ type.Holds (left.value + right.value)
  | .subtract => ¬ type.Holds (left.value - right.value)
  | .divide =>
    if type = .ulong then Int.tdiv left.value right.value < 0
    else left.value = type.least ∧ right.value = -1
  | .remainder => type = .ulong ∧ Int.tmod left.value right.value < 0
  | .bitOr | .bitXor => type = .ulong ∧ (left.value < 0 ∨ right.value < 0)
  | .bitAnd | .shiftLeft | .shiftRight | .unsignedShiftRight => False

variable {left right c : Constant}

theorem exists_of_map_eq_ok {α β : Type} {y : Except FoldError α} {g : α → β} {b : β}
    (h : y.map g = .ok b) : ∃ a, y = .ok a ∧ g a = b := by
  cases y with
  | error err => cases h
  | ok a => exact ⟨a, rfl, Except.ok.inj h⟩

/-- The negative of a value of at most 64 bits fits into a word. -/
theorem fits_neg {v : Int} (hle : -(wordCount 63 : Int) ≤ v) (hlt : v < wordCount 64) :
    fits (-v) = true := by
  simp only [fits, Bool.and_eq_true, decide_eq_true_eq]
  simp only [wordCount_eq] at *
  omega

theorem applyUnary_minus (c : Constant) :
    applyUnary .minus c = (checked (-c.value)).map fun v =>
      ⟨v, if c.type.promoted = .uint then .long else c.type.promoted⟩ := by
  unfold applyUnary
  cases checked (-c.value) <;> rfl

theorem of_quotient_eq_ok {f : Int → Int → Int} {v w q : Int} (h : quotient f v w = .ok q) :
    w ≠ 0 ∧ q = f v w := by
  unfold quotient at h
  split at h
  · cases h
  · rename_i hne
    split at h
    · exact ⟨hne, (Except.ok.inj h).symm⟩
    · cases h

/-- A shift truncates, so that its result is in range whatever its operands are. -/
theorem inRange_shift {op : BinaryOperator} (h : shift op left right = .ok c) : c.InRange := by
  by_cases hint : right.type.promoted = .int
  · rw [shift_eq op hint] at h
    cases h
    exact Integral.holds_ofWord _
  · rw [shift_eq_error op hint] at h
    cases h

/-- For an operand in range, the results outside are those that `UnaryLeaves` lists. -/
theorem inRange_unary_iff {op : UnaryOperator} (hc : left.InRange)
    (h : applyUnary op left = .ok c) : c.InRange ↔ ¬ UnaryLeaves op left := by
  have hpromoted := hc.promoted
  cases op with
  | plus =>
    cases h
    exact iff_of_true hpromoted id
  | complement =>
    cases h
    exact iff_of_true (Integral.holds_wrap _ _) id
  | minus =>
    rw [applyUnary_minus] at h
    obtain ⟨v, hv, rfl⟩ := exists_of_map_eq_ok h
    obtain ⟨-, rfl⟩ := of_checked_eq_ok hv
    unfold UnaryLeaves
    change Integral.Holds (if _ then _ else _) _ ↔ _
    obtain htype | htype | htype | htype := left.type.promoted_cases <;>
      simp only [htype, reduceCtorEq, if_false, if_true] at hpromoted ⊢
    · exact hpromoted.neg_iff (by decide)
    · exact hpromoted.neg_iff (by decide)
    · exact iff_of_true hpromoted.neg_of_uint id
    · rw [Integral.holds_ulong_iff] at *
      omega

/-- For operands in range, the results outside are those that `BinaryLeaves` lists. -/
theorem inRange_binary_iff {op : BinaryOperator} (hl : left.InRange) (hr : right.InRange)
    (h : applyBinary op left right = .ok c) : c.InRange ↔ ¬ BinaryLeaves op left right := by
  cases op with
  | shiftLeft | shiftRight | unsignedShiftRight => exact iff_of_true (inRange_shift h) id
  | multiply | add | subtract =>
    obtain ⟨v, hv, rfl⟩ := exists_of_map_eq_ok h
    obtain ⟨-, rfl⟩ := of_checked_eq_ok hv
    exact Decidable.not_not.symm
  | divide =>
    obtain ⟨v, hv, rfl⟩ := exists_of_map_eq_ok h
    obtain ⟨hne, rfl⟩ := of_quotient_eq_ok hv
    exact hl.common_tdiv_iff hr hne
  | remainder =>
    obtain ⟨v, hv, rfl⟩ := exists_of_map_eq_ok h
    obtain ⟨-, rfl⟩ := of_quotient_eq_ok hv
    exact hl.common_tmod_iff right.value
  | bitAnd =>
    cases h
    exact iff_of_true (holds_common_bitAnd hl hr) id
  | bitOr =>
    cases h
    refine isBitwise_or.holds_common_iff hl hr fun hsign => (bitOr_neg_iff hl.fits hr.fits).mpr ?_
    omega
  | bitXor =>
    cases h
    refine isBitwise_xor.holds_common_iff hl hr fun hsign =>
      (bitXor_neg_iff hl.fits hr.fits).mpr ?_
    omega

end Constant

end DeclGen
