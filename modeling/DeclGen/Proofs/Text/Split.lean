import DeclGen.Text.Blank
import DeclGen.Text.Size
import DeclGen.Text.Split
import Mathlib.Data.List.TakeWhile

/-!
# Cutting texts

Texts are cut at separators, and blanks are cut off at their ends.

## Main statements

* `splitAt_append_sep`: a separator ends a piece
* `splitAt_intercalate`: the pieces of texts with separators between them
* `exists_last_piece`: the last piece is what stands behind the last separator
* `trim_isEmpty_iff`: nothing is left of a text exactly if it consists of blanks
* `eq_of_size_trimEnd`: what is left without the blanks at the end is known from its size
-/

namespace DeclGen.Text

variable {c sep : Char} {s t x y : List Char}

/-! ## At a separator -/

theorem splitAt_append_sep (sep : Char) (x s : List Char) :
    splitAt sep (x ++ sep :: s) = splitAt sep x ++ splitAt sep s := by
  induction x with
  | nil => simp [splitAt]
  | cons c x ih =>
    rw [List.cons_append, splitAt, splitAt, ih]
    split
    · rfl
    · obtain ⟨p, ps, hp⟩ := List.exists_cons_of_ne_nil (splitAt_ne_nil sep x)
      rw [hp]
      rfl

theorem splitAt_of_notMem (h : sep ∉ x) : splitAt sep x = [x] := by
  induction x with
  | nil => rfl
  | cons c x ih =>
    simp only [List.mem_cons, not_or] at h
    rw [splitAt, if_neg (by simpa using Ne.symm h.1), ih h.2]

theorem splitAt_append_cons (h : sep ∉ x) (s : List Char) :
    splitAt sep (x ++ sep :: s) = x :: splitAt sep s := by
  rw [splitAt_append_sep, splitAt_of_notMem h]
  rfl

/-- Texts with a separator between each two fall into the pieces of all of them. -/
theorem splitAt_intercalate {between : String} (hsep : between.toList = [sep]) {ys : List String}
    (hne : ys ≠ []) : splitAt sep (between.intercalate ys).toList =
      ys.flatMap fun y => splitAt sep y.toList := by
  induction ys with
  | nil => exact absurd rfl hne
  | cons y ys ih =>
    cases ys with
    | nil => simp
    | cons z zs =>
      rw [String.intercalate_cons_cons, String.toList_append, String.toList_append, hsep,
        List.append_assoc, List.singleton_append, splitAt_append_sep, ih (by simp)]
      rfl

/-- The last piece is at the end of the text, with all that is there without a separator. -/
theorem exists_last_piece (sep : Char) (s : List Char) : ∃ ps p, splitAt sep s = ps ++ [p] ∧
    p <:+ s ∧ ∀ t, sep ∉ t → t <:+ s → t <:+ p := by
  by_cases h : sep ∈ s
  · obtain ⟨y, x, hsplit, hy⟩ := List.eq_append_cons_of_mem (List.mem_reverse.mpr h)
    have hs : s = x.reverse ++ sep :: y.reverse := by simpa using congrArg List.reverse hsplit
    have hy : sep ∉ y.reverse := by simpa using hy
    refine ⟨splitAt sep x.reverse, y.reverse, ?_, ?_, fun t ht hsuffix => ?_⟩
    · rw [hs, splitAt_append_sep, splitAt_of_notMem hy]
    · rw [hs]
      exact (List.suffix_cons sep _).trans (List.suffix_append _ _)
    · have hend : sep :: y.reverse <:+ s := hs ▸ List.suffix_append _ _
      rcases List.suffix_or_suffix_of_suffix hsuffix hend with h | h
      · rcases List.suffix_cons_iff.mp h with rfl | h
        · simp at ht
        · exact h
      · exact absurd (h.subset List.mem_cons_self) ht
  · exact ⟨[], s, splitAt_of_notMem h, List.suffix_rfl, fun t _ hsuffix => hsuffix⟩

/-! ## At blanks -/

theorem trim_isEmpty_iff : (trim s).isEmpty = true ↔ ∀ c ∈ s, isBlank c = true := by
  have hend : (trim s).isEmpty = true ↔ ∀ c ∈ s.dropWhile isBlank, isBlank c = true := by
    simp [trim, trimEnd, trimStart, dropTrailing, List.dropWhile_eq_nil_iff]
  rw [hend]
  refine ⟨fun h c hc => ?_, fun h c hc => h c ((List.dropWhile_suffix _).subset hc)⟩
  rw [← s.takeWhile_append_dropWhile (p := isBlank)] at hc
  rcases List.mem_append.mp hc with hc | hc
  · exact List.all_eq_true.mp List.all_takeWhile c hc
  · exact h c hc

theorem trimEnd_concat (hc : isBlank c = false) : trimEnd (s ++ [c]) = s ++ [c] := by
  simp [trimEnd, dropTrailing, hc]

/-- Front parts of one text that have the same size are the same. -/
theorem append_inj_of_size (h : x ++ s = y ++ t) (hsize : size x = size y) : x = y ∧ s = t := by
  have hx : x = y := by
    have htake := takeBytes?_size_append x s
    rw [h, hsize, takeBytes?_size_append] at htake
    exact (Option.some.inj htake).symm
  subst hx
  exact ⟨rfl, List.append_cancel_left h⟩

/-- If no blank comes next behind `x`, a front part of the text that without the blanks at its end
is as large as `x` is `x`. -/
theorem eq_of_size_trimEnd (h : y ++ s = x ++ t) (ht : ∀ c, t.head? = some c → isBlank c = false)
    (hsize : size (trimEnd y) = size x) : y = x ∧ s = t := by
  obtain ⟨blanks, hy, hblanks⟩ := dropTrailing_append isBlank y
  change y = trimEnd y ++ blanks at hy
  rw [hy, List.append_assoc] at h
  obtain ⟨hx, hrest⟩ := append_inj_of_size h hsize
  cases blanks with
  | nil => exact ⟨by rw [hy, hx, List.append_nil], hrest⟩
  | cons c blanks =>
    have hc := ht c (by rw [← hrest]; rfl)
    rw [hblanks c List.mem_cons_self] at hc
    cases hc

end DeclGen.Text
