import DeclGen.EnumNames.Ordinals

/-!
# Decimal text

The decimal text of an integer is its numeral. It reads back as that integer, and as an ordinal if
the integer fits into a word.

## Main definitions

* `Text.IsNumeral`: the decimal numeral of an integer

## Main statements

* `Text.isNumeral_toString`: the text of an integer is its numeral

* `Text.readInt?_toString`: reading undoes writing
* `Text.toString_injective`: different integers have different texts
* `Ordinal.ofText?_toString`: the text of a word is the text of an ordinal
-/

namespace DeclGen

namespace Text

theorem hexValue_of_isDigit {c : Char} (h : c.isDigit = true) :
    hexValue c = c.toNat - '0'.toNat := by
  simp [hexValue, h]

theorem foldl_hexValue {s : List Char} (h : ∀ c ∈ s, c.isDigit = true) (n : Nat) :
    s.foldl (fun n c => 10 * n + hexValue c) n = Nat.ofDigitChars 10 s n := by
  induction s generalizing n with
  | nil => simp
  | cons c s ih =>
    have hc := hexValue_of_isDigit (h c (by simp))
    rw [List.foldl_cons, Nat.ofDigitChars_cons, hc]
    exact ih (fun d hd => h d (by simp [hd])) _

theorem isDigit_of_mem_repr {n : Nat} {c : Char} (h : c ∈ n.repr.toList) : c.isDigit = true := by
  rw [Nat.toList_repr] at h
  exact Nat.isDigit_of_mem_toDigits (by decide) (by decide) h

theorem ofDigits_repr (n : Nat) : ofDigits 10 n.repr.toList = n := by
  rw [ofDigits, foldl_hexValue fun c hc => isDigit_of_mem_repr hc, Nat.toList_repr]
  exact Nat.ofDigitChars_ten_toDigits

theorem repr_ne_nil (n : Nat) : n.repr.toList ≠ [] := by
  rw [Nat.toList_repr]
  exact Nat.toDigits_ne_nil

theorem readNat?_repr (n : Nat) : readNat? n.repr.toList = some n := by
  have hall : n.repr.toList.all Char.isDigit = true :=
    List.all_eq_true.mpr fun c hc => isDigit_of_mem_repr hc
  have hne : n.repr.toList.isEmpty = false := List.isEmpty_eq_false_iff.mpr (repr_ne_nil n)
  rw [readNat?, hall, hne, ofDigits_repr]
  rfl

/-- The decimal text of an integer is its digits, behind a sign if it is negative. -/
theorem toList_toString_ofNat (n : Nat) : (toString (Int.ofNat n)).toList = n.repr.toList := rfl

theorem toList_toString_negSucc (n : Nat) :
    (toString (Int.negSucc n)).toList = '-' :: (n + 1).repr.toList := by
  rw [Int.toString_eq_repr]
  simp [Int.repr]

theorem mem_toString {v : Int} {c : Char} (h : c ∈ (toString v).toList) :
    c = '-' ∨ c.isDigit = true := by
  cases v with
  | ofNat n =>
    rw [toList_toString_ofNat] at h
    exact .inr (isDigit_of_mem_repr h)
  | negSucc n =>
    rw [toList_toString_negSucc, List.mem_cons] at h
    exact h.imp id isDigit_of_mem_repr

/-- Reading the decimal text of an integer gives the integer back. -/
theorem readInt?_toString (v : Int) : readInt? (toString v).toList = some v := by
  cases v with
  | ofNat n =>
    rw [toList_toString_ofNat, readInt?]
    · rw [readNat?_repr]
      rfl
    · intro s hs
      have := isDigit_of_mem_repr (n := n) (c := '-') (by simp [hs])
      contradiction
    · intro s hs
      have := isDigit_of_mem_repr (n := n) (c := '+') (by simp [hs])
      contradiction
  | negSucc n =>
    rw [toList_toString_negSucc, readInt?, readNat?_repr]
    rfl

/-- The text is the integer in decimal digits, without a zero in front of other digits, behind a
minus sign if the integer is negative. -/
def IsNumeral (v : Int) (s : List Char) : Prop :=
  ∃ ds, s = (if v < 0 then '-' :: ds else ds) ∧ ds ≠ [] ∧ (∀ c ∈ ds, c.isDigit = true) ∧
    (ds.head? = some '0' → ds = ['0']) ∧ ofDigits 10 ds = v.natAbs

theorem digitChar_ne_zero {n : Nat} (hpos : 0 < n) (hlt : n < 10) : n.digitChar ≠ '0' := by
  have h : ∀ n < 10, 0 < n → n.digitChar ≠ '0' := by decide
  exact h n hlt hpos

/-- The digits of a positive number do not start with a zero. -/
theorem head?_toDigits_ne {n : Nat} (hpos : 0 < n) : (Nat.toDigits 10 n).head? ≠ some '0' := by
  induction n using Nat.strongRecOn with
  | ind n ih =>
    by_cases hlt : n < 10
    · rw [Nat.toDigits_of_lt_base hlt]
      simpa using digitChar_ne_zero hpos hlt
    · have hquotient : 0 < n / 10 := by omega
      have hne : Nat.toDigits 10 (n / 10) ≠ [] := Nat.toDigits_ne_nil
      obtain ⟨c, ds, hds⟩ := List.exists_cons_of_ne_nil hne
      have hfirst := ih (n / 10) (by omega) hquotient
      rw [Nat.toDigits_of_base_le (by decide) (by omega)]
      rw [hds] at hfirst ⊢
      exact hfirst

theorem head?_repr {n : Nat} (h : n.repr.toList.head? = some '0') : n.repr.toList = ['0'] := by
  rcases Nat.eq_zero_or_pos n with rfl | hpos
  · rfl
  · rw [Nat.toList_repr] at h
    exact absurd h (head?_toDigits_ne hpos)

theorem isNumeral_toString (v : Int) : IsNumeral v (toString v).toList := by
  have digits (n : Nat) : n.repr.toList ≠ [] ∧ (∀ c ∈ n.repr.toList, c.isDigit = true) ∧
      (n.repr.toList.head? = some '0' → n.repr.toList = ['0']) ∧ ofDigits 10 n.repr.toList = n :=
    ⟨repr_ne_nil n, fun c hc => isDigit_of_mem_repr hc, head?_repr, ofDigits_repr n⟩
  cases v with
  | ofNat n =>
    have hnonneg : ¬ Int.ofNat n < 0 := Int.not_lt.mpr (Int.natCast_nonneg n)
    refine ⟨n.repr.toList, ?_, digits n⟩
    rw [toList_toString_ofNat, if_neg hnonneg]
  | negSucc n =>
    refine ⟨(n + 1).repr.toList, ?_, digits (n + 1)⟩
    rw [toList_toString_negSucc, if_pos (Int.negSucc_lt_zero n)]

theorem dropWhile_isBlank {s : List Char} (hs : ∀ c ∈ s, isBlank c = false) :
    s.dropWhile isBlank = s := by
  cases s with
  | nil => rfl
  | cons c s => simp [hs c]

/-- A text without blanks has nothing to trim. -/
theorem trim_eq_self {s : List Char} (hs : ∀ c ∈ s, isBlank c = false) : trim s = s := by
  have hback : s.reverse.dropWhile isBlank = s.reverse :=
    dropWhile_isBlank fun c hc => hs c (List.mem_reverse.mp hc)
  rw [trim, trimStart, dropWhile_isBlank hs, trimEnd, dropTrailing, hback, List.reverse_reverse]

theorem isBlank_of_isDigit {c : Char} (h : c.isDigit = true) : isBlank c = false := by
  have hn : 48 ≤ c.toNat ∧ c.toNat ≤ 57 := Char.isDigit_iff_toNat.mp h
  simp only [isBlank, Bool.or_eq_false_iff, Bool.and_eq_false_iff, decide_eq_false_iff_not,
    beq_eq_false_iff_ne]
  omega

theorem trim_toString (v : Int) : trim (toString v).toList = (toString v).toList := by
  apply trim_eq_self
  intro c hc
  rcases mem_toString hc with rfl | h
  · decide
  · exact isBlank_of_isDigit h

theorem toString_injective {v w : Int} (h : toString v = toString w) : v = w := by
  have hv := readInt?_toString v
  rw [h, readInt?_toString] at hv
  exact (Option.some.inj hv).symm

end Text

/-- The decimal text of a word stands for the word. -/
theorem Ordinal.ofText?_toString {v : Int} (h : Constant.fits v = true) :
    ofText? (toString v) = some v := by
  rw [ofText?, Text.trim_toString, Text.readInt?_toString]
  simpa using h

end DeclGen
