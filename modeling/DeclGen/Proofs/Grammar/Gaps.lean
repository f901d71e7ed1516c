import DeclGen.Proofs.Grammar.ItemRegions
import DeclGen.Text.Word

/-!
# Blanks and comments inside regions

What may stand between the tokens of a skipped region. A search steps over it: neither a bracket nor
a quote in a comment shows. Here any blank counts, also one that is no trivia elsewhere.

## Main definitions

* `IsGap`: blanks and closed comments

## Main statements

* `IsGap.balanced`: a search steps over them
-/

namespace DeclGen.Grammar

open DeclGen.Text

variable {c : Char} {x y : List Char}

/-- The text consists of blanks, block comments and line comments with the line feed that ends
them. -/
inductive IsGap : List Char → Prop where
  | nil : IsGap []
  | blank {c : Char} {x : List Char} (hc : isBlank c = true) (hx : IsGap x) : IsGap (c :: x)
  | blockComment {y x : List Char} (hy : ¬ ['*', '/'] <:+: y) (hx : IsGap x) :
      IsGap ('/' :: '*' :: (y ++ ['*', '/']) ++ x)
  | lineComment {y x : List Char} (hy : '\n' ∉ y) (hx : IsGap x) :
      IsGap ('/' :: '/' :: (y ++ ['\n']) ++ x)

theorem ne_of_isBlank {d : Char} (h : isBlank c = true) (hd : isBlank d = false) : c ≠ d := by
  rintro rfl
  rw [h] at hd
  cases hd

theorem isPlain_of_isBlank (h : isBlank c = true) : isPlain c = true := by
  have hne (d : Char) (hd : isBlank d = false) := ne_of_isBlank h hd
  simp [isPlain, isOpening, isClosing, hne '(' (by decide), hne ')' (by decide),
    hne '[' (by decide), hne ']' (by decide), hne '{' (by decide), hne '}' (by decide),
    hne '/' (by decide), hne '\'' (by decide), hne '"' (by decide), hne '@' (by decide),
    hne '$' (by decide)]

def blankCodes : List Nat :=
  [9, 10, 11, 12, 13, 0x20, 0x85, 0xA0, 0x1680, 0x2000, 0x2001, 0x2002, 0x2003, 0x2004, 0x2005,
    0x2006, 0x2007, 0x2008, 0x2009, 0x200A, 0x2028, 0x2029, 0x202F, 0x205F, 0x3000]

theorem toNat_mem_blankCodes (h : isBlank c = true) : c.toNat ∈ blankCodes := by
  simp only [isBlank, Bool.or_eq_true, Bool.and_eq_true, decide_eq_true_eq, beq_iff_eq] at h
  simp only [blankCodes, List.mem_cons, List.not_mem_nil]
  omega

/-- No blank is a character of a word. -/
theorem isWordPart_of_isBlank (h : isBlank c = true) : isWordPart c = false := by
  have hall : ∀ n ∈ blankCodes, isWordPart (Char.ofNat n) = false := by decide +kernel
  rw [← Char.ofNat_toNat c]
  exact hall c.toNat (toNat_mem_blankCodes h)

theorem Balanced.steps {k : Char} {depth : Nat} (hx : Balanced x) (hk : isClosing k = true) :
    Steps (· == k) depth x :=
  fun seen t _ => hx k hk depth seen t

/-- A comment is stepped over at once. -/
theorem Balanced.comment (h : ∀ t, commentTail (x ++ t) = some x.length) :
    Balanced ('/' :: x) := by
  intro k hk depth seen t
  have hslash : '/' ≠ k := by
    rintro rfl
    cases hk
  have htail : literalTail '/' (x ++ t) = some x.length := by simp [literalTail, h t]
  rw [List.cons_append, scan_literal (· == k) (fun _ => beq_eq_false_iff_ne.mpr hslash)
    (by decide) htail, List.drop_left, List.length_cons]

theorem Balanced.blockComment (hy : ¬ ['*', '/'] <:+: y) :
    Balanced ('/' :: '*' :: (y ++ ['*', '/'])) :=
  .comment (commentTail_block hy)

theorem Balanced.lineComment (hy : '\n' ∉ y) : Balanced ('/' :: '/' :: (y ++ ['\n'])) :=
  .comment (commentTail_line hy)

namespace IsGap

/-- A search steps over blanks and comments. -/
theorem balanced (hx : IsGap x) : Balanced x := by
  induction hx with
  | nil => exact .nil
  | blank hc _ ih => exact .plain (isPlain_of_isBlank hc) ih
  | blockComment hy _ ih => exact (Balanced.blockComment hy).append ih
  | lineComment hy _ ih => exact (Balanced.lineComment hy).append ih

end IsGap

end DeclGen.Grammar
