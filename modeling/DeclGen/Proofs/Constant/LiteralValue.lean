import Mathlib.Data.Nat.Digits.Defs
import DeclGen.Constant.Literal
import DeclGen.Proofs.Constant.Truncation
import DeclGen.Proofs.Grammar.IntegerText
import DeclGen.Proofs.Source.LineStarts
import DeclGen.Proofs.Text.Decimal

/-!
# What integer literals stand for

Whatever is read as an integer literal has a value: the number that its digits stand for in the
base of its mark, without `_` and the letters behind them. The value is refused only if it takes
more than 64 bits, or if there is no digit at all, as in `0x_`.

## Main definitions

* `positionalValue`: the number that digits stand for
* `HasParts`: the mark, the digits and the letters of a literal

## Main statements

* `accumulate_eq`, `digitsValue_eq`: reading digits one after the other
* `literalValue_of_token`: the values of literals
-/

namespace DeclGen.Constant

open DeclGen.Grammar DeclGen.Text

variable {base n : Nat} {c : Char} {e : FoldError} {digits letters mark s x : List Char}

/-- The number that digits stand for, each by its place; the last one counts for itself. -/
def positionalValue (base : Nat) (digits : List Char) : Nat :=
  Nat.ofDigits base (digits.reverse.map hexValue)

def IsDigitOf (base : Nat) (c : Char) : Prop := isHexDigit c = true ∧ hexValue c < base

instance (base : Nat) (c : Char) : Decidable (IsDigitOf base c) :=
  inferInstanceAs (Decidable (_ ∧ _))

/-! ## Digits one after the other -/

theorem positionalValue_eq_foldl (base : Nat) (s : List Char) :
    positionalValue base s = s.foldl (fun n c => hexValue c + base * n) 0 := by
  rw [positionalValue, Nat.ofDigits_eq_foldr, List.foldr_map, List.foldr_reverse]
  rfl

theorem digitValue?_eq (h : IsDigitOf base c) : digitValue? base c = some (hexValue c) := by
  simp [digitValue?, h.1, h.2]

/-- With further digits a number does not get smaller. -/
theorem le_foldl_hexValue (hs : ∀ c ∈ s, IsDigitOf base c) (n : Nat) :
    n ≤ s.foldl (fun n c => hexValue c + base * n) n := by
  induction s generalizing n with
  | nil => exact Nat.le_refl n
  | cons c s ih =>
    have hpos : 0 < base := Nat.zero_lt_of_lt (hs c List.mem_cons_self).2
    calc n ≤ base * n := Nat.le_mul_of_pos_left n hpos
      _ ≤ hexValue c + base * n := Nat.le_add_left ..
      _ ≤ _ := ih (fun d hd => hs d (List.mem_cons_of_mem c hd)) _

/-- A number that is too large on the way is too large in the end, and only then. -/
theorem accumulate_eq (hs : ∀ c ∈ s, IsDigitOf base c) (hn : n < wordCount 64) :
    accumulate base e n s =
      if s.foldl (fun n c => hexValue c + base * n) n < wordCount 64 then
        .ok (s.foldl (fun n c => hexValue c + base * n) n)
      else .error .overflow := by
  induction s generalizing n with
  | nil => rw [accumulate, List.foldl_nil, if_pos hn]
  | cons c s ih =>
    have hs' : ∀ d ∈ s, IsDigitOf base d := fun d hd => hs d (List.mem_cons_of_mem c hd)
    have hstep : n * base + hexValue c = hexValue c + base * n := by
      rw [Nat.add_comm, Nat.mul_comm]
    rw [accumulate, digitValue?_eq (hs c List.mem_cons_self), List.foldl_cons]
    simp only [hstep]
    split
    next hlt => exact ih hs' hlt
    next hle => rw [if_neg fun h => hle (Nat.lt_of_le_of_lt (le_foldl_hexValue hs' _) h)]

/-- Digits have their positional value if there are any and it is not too large. -/
theorem digitsValue_eq (hs : ∀ c ∈ s, IsDigitOf base c) :
    digitsValue base e s =
      if s = [] then .error e
      else if positionalValue base s < wordCount 64 then .ok (positionalValue base s)
      else .error .overflow := by
  have hplus : '+' ∉ s := fun h => absurd (hs _ h).1 (by decide)
  have hvalue : accumulate base e 0 s = if positionalValue base s < wordCount 64 then
      .ok (positionalValue base s) else .error .overflow := by
    rw [positionalValue_eq_foldl, accumulate_eq hs (wordCount_pos 64)]
  unfold digitsValue
  split
  next => rw [if_pos rfl]
  next => exact absurd List.mem_cons_self hplus
  next => exact absurd List.mem_cons_self hplus
  next hne _ _ => rw [if_neg hne, hvalue]

/-! ## The parts of a literal -/

/-- What a literal starts with to say that its digits are of the base. -/
inductive Marks : Nat → List Char → Prop where
  | decimal : Marks 10 []
  | hexadecimal : Marks 16 ['0', 'x']
  | upperHexadecimal : Marks 16 ['0', 'X']
  | binary : Marks 2 ['0', 'b']
  | upperBinary : Marks 2 ['0', 'B']

/-- A literal is a mark, digits with `_` among them, and the letters of a suffix. Without a mark, it
starts with a digit. -/
structure HasParts (base : Nat) (mark digits letters : List Char) : Prop where
  marks : Marks base mark
  isDigitOf : ∀ d ∈ digits, d = '_' ∨ IsDigitOf base d
  isSuffix : ∀ d ∈ letters, isIntegerSuffix d = true
  start : mark = [] → ∃ d ds, digits = d :: ds ∧ d.isDigit = true

/-- The suffix is all that is dropped, since no digit is one of its letters. -/
theorem dropTrailing_append_letters (hs : ∀ d ∈ s, isIntegerSuffix d = false)
    (hletters : ∀ d ∈ letters, isIntegerSuffix d = true) :
    dropTrailing isIntegerSuffix (s ++ letters) = s := by
  have hnone : s.reverse.dropWhile isIntegerSuffix = s.reverse := by
    cases hrev : s.reverse with
    | nil => rfl
    | cons d ds =>
      have hd : d ∈ s := List.mem_reverse.mp (hrev ▸ List.mem_cons_self)
      rw [List.dropWhile_cons_of_neg (by simp [hs d hd])]
  rw [dropTrailing_append_of_all hletters, dropTrailing, hnone, List.reverse_reverse]

theorem isIntegerSuffix_of_isHexDigit (h : isHexDigit c = true) : isIntegerSuffix c = false := by
  refine Bool.eq_false_iff.mpr fun hsuffix => ?_
  have hcases : c = 'u' ∨ c = 'U' ∨ c = 'l' ∨ c = 'L' := by
    simpa [isIntegerSuffix, or_assoc] using hsuffix
  rcases hcases with rfl | rfl | rfl | rfl <;> exact absurd h (by decide)

namespace HasParts

variable (h : HasParts base mark digits letters)

include h

theorem isDigitOf_filter : ∀ d ∈ digits.filter (· != '_'), IsDigitOf base d := by
  intro d hd
  obtain ⟨hmem, hne⟩ := List.mem_filter.mp hd
  exact (h.isDigitOf d hmem).resolve_left (by simpa using hne)

/-- The digits are left of a literal once its suffix and every `_` are taken away. -/
theorem cleaned_eq :
    (dropTrailing isIntegerSuffix (mark ++ (digits ++ letters))).filter (· != '_') =
      mark ++ digits.filter (· != '_') := by
  have hmark : ∀ d ∈ mark, isIntegerSuffix d = false ∧ d ≠ '_' := by
    cases h.marks <;> simp [isIntegerSuffix]
  have hdigits : ∀ d ∈ digits, isIntegerSuffix d = false := by
    intro d hd
    rcases h.isDigitOf d hd with rfl | hdigit
    · decide
    · exact isIntegerSuffix_of_isHexDigit hdigit.1
  rw [← List.append_assoc, dropTrailing_append_letters _ h.isSuffix, List.filter_append,
    List.filter_eq_self.mpr fun d hd => by simpa using (hmark d hd).2]
  intro d hd
  rcases List.mem_append.mp hd with hd | hd
  · exact (hmark d hd).1
  · exact hdigits d hd

/-- The value of a literal is that of its digits in the base of its mark. -/
theorem literalValue_eq {text : String} (htext : text.toList = mark ++ (digits ++ letters)) :
    literalValue text =
      (digitsValue base (.invalidLiteral text) (digits.filter (· != '_'))).map Int.ofNat := by
  rw [literalValue, htext, h.cleaned_eq]
  cases h.marks with
  | hexadecimal | upperHexadecimal | binary | upperBinary => rfl
  | decimal =>
    -- behind a first digit, no digit of base ten is the letter of another mark
    have hmark (m : Char) (hm : ¬ IsDigitOf 10 m) (t : List Char) :
        [] ++ digits.filter (· != '_') ≠ '0' :: m :: t := fun heq =>
      hm (h.isDigitOf_filter m (by rw [← List.nil_append (digits.filter _), heq]; simp))
    split
    next heq => exact absurd heq (hmark 'x' (by decide) _)
    next heq => exact absurd heq (hmark 'X' (by decide) _)
    next heq => exact absurd heq (hmark 'b' (by decide) _)
    next heq => exact absurd heq (hmark 'B' (by decide) _)
    next => rfl

end HasParts

/-! ## Tokens -/

theorem toNat_le_of_isDigit (hc : c.isDigit = true) : c.toNat ≤ 57 := by
  simp only [Char.isDigit, Bool.and_eq_true, decide_eq_true_eq, ge_iff_le] at hc
  exact UInt32.le_iff_toNat_le.mp hc.2

theorem isDigitOf_of_isDigit (hc : c.isDigit = true) : IsDigitOf 10 c := by
  have hle := toNat_le_of_isDigit hc
  have hzero : '0'.toNat = 48 := rfl
  refine ⟨by simp [isHexDigit, hc], ?_⟩
  rw [hexValue_of_isDigit hc]
  omega

theorem isDigitOf_of_isHexDigit (hc : isHexDigit c = true) : IsDigitOf 16 c := by
  refine ⟨hc, ?_⟩
  simp only [isHexDigit, Bool.or_eq_true, Bool.and_eq_true, decide_eq_true_eq] at hc
  have hcodes : '0'.toNat = 48 ∧ '9'.toNat = 57 ∧ 'a'.toNat = 97 ∧ 'f'.toNat = 102 ∧
      'A'.toNat = 65 ∧ 'F'.toNat = 70 := ⟨rfl, rfl, rfl, rfl, rfl, rfl⟩
  have hrange : c.toNat ≤ 57 ∨ 97 ≤ c.toNat ∧ c.toNat ≤ 102 ∨ c.toNat ≤ 70 := by
    rcases hc with (hdigit | ⟨hlow, hhigh⟩) | ⟨-, hhigh⟩
    · exact .inl (toNat_le_of_isDigit hdigit)
    · exact .inr (.inl ⟨UInt32.le_iff_toNat_le.mp hlow, UInt32.le_iff_toNat_le.mp hhigh⟩)
    · exact .inr (.inr (UInt32.le_iff_toNat_le.mp hhigh))
  unfold hexValue
  split
  next hdigit =>
    have := toNat_le_of_isDigit hdigit
    omega
  next =>
    split
    next => omega
    next => omega

/-- What is read as an integer literal has these parts. -/
theorem exists_parts_of_token (hx : IsIntegerToken x) :
    ∃ base mark digits letters, x = mark ++ (digits ++ letters) ∧
      HasParts base mark digits letters := by
  rcases hx with ⟨mark, digits, letters, rfl, hmark, -, hdigits, hletters⟩ |
    ⟨mark, digits, letters, rfl, hmark, -, hdigits, hletters⟩ |
    ⟨c, digits, letters, rfl, hc, hdigits, hletters⟩
  · have hall : ∀ d ∈ digits, d = '_' ∨ IsDigitOf 16 d := by
      intro d hd
      have hcases : isHexDigit d = true ∨ d = '_' := by
        simpa [isHexDigitOrLow] using hdigits d hd
      exact hcases.symm.imp_right isDigitOf_of_isHexDigit
    rcases hmark with rfl | rfl
    · exact ⟨16, _, digits, letters, rfl, .hexadecimal, hall, hletters, by simp⟩
    · exact ⟨16, _, digits, letters, rfl, .upperHexadecimal, hall, hletters, by simp⟩
  · have hall : ∀ d ∈ digits, d = '_' ∨ IsDigitOf 2 d := by
      intro d hd
      have hcases : d = '0' ∨ d = '1' ∨ d = '_' := by
        simpa [isBinaryDigitOrLow, or_assoc] using hdigits d hd
      rcases hcases with rfl | rfl | rfl <;> decide
    rcases hmark with rfl | rfl
    · exact ⟨2, _, digits, letters, rfl, .binary, hall, hletters, by simp⟩
    · exact ⟨2, _, digits, letters, rfl, .upperBinary, hall, hletters, by simp⟩
  · refine ⟨10, [], c :: digits, letters, rfl, .decimal, ?_, hletters, fun _ => ⟨c, _, rfl, hc⟩⟩
    intro d hd
    rcases List.mem_cons.mp hd with rfl | hd
    · exact .inr (isDigitOf_of_isDigit hc)
    · have hcases : d.isDigit = true ∨ d = '_' := by simpa [isDigitOrLow] using hdigits d hd
      exact hcases.symm.imp_right isDigitOf_of_isDigit

/-- The value of what is read as an integer literal. It is the positional value of the digits,
without every `_`, in the base of the mark. It is refused if there is no digit and if it takes more
than 64 bits, and in no other case. -/
theorem literalValue_of_token {c c' : Cursor} {text : String}
    (h : integerLiteral c = .ok (text, c')) :
    ∃ base mark digits letters, text.toList = mark ++ (digits ++ letters) ∧
      HasParts base mark digits letters ∧
      literalValue text =
        if digits.filter (· != '_') = [] then .error (.invalidLiteral text)
        else if positionalValue base (digits.filter (· != '_')) < wordCount 64 then
          .ok (positionalValue base (digits.filter (· != '_')))
        else .error .overflow := by
  obtain ⟨base, mark, digits, letters, htext, hparts⟩ :=
    exists_parts_of_token (yields_integerLiteral _ _ _ h)
  refine ⟨base, mark, digits, letters, htext, hparts, ?_⟩
  rw [hparts.literalValue_eq htext, digitsValue_eq hparts.isDigitOf_filter]
  split
  next => rfl
  next =>
    split
    next => rfl
    next => rfl

/-- A mark and `_` alone make a literal, but one without a value. -/
example : literalValue "0x_" = .error (.invalidLiteral "0x_") := by decide

theorem literalValue_of_token_separated :
    integerLiteral (.ofString "0x_Fful;") = .ok ("0x_Fful", ⟨7, [';']⟩) ∧
      literalValue "0x_Fful" = .ok 255 ∧
      ∃ base mark digits letters, "0x_Fful".toList = mark ++ (digits ++ letters) ∧
        HasParts base mark digits letters ∧
        literalValue "0x_Fful" =
          if digits.filter (· != '_') = [] then .error (.invalidLiteral "0x_Fful")
          else if positionalValue base (digits.filter (· != '_')) < wordCount 64 then
            .ok (positionalValue base (digits.filter (· != '_')))
          else .error .overflow := by
  have hread : integerLiteral (.ofString "0x_Fful;") = .ok ("0x_Fful", ⟨7, [';']⟩) := rfl
  exact ⟨hread, by decide, literalValue_of_token hread⟩

end DeclGen.Constant
