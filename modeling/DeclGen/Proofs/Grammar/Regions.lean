import DeclGen.Grammar.Region
import DeclGen.Proofs.Grammar.Headers

/-!
# Reading regions

A region is read to the bracket that closes it if what stands in it is balanced: brackets match and
neither comments nor literals open.

## Main definitions

* `Balanced`: a text that a search steps over, at any depth

## Main statements

* `Balanced.bracket`, `Balanced.append`: how balanced texts are put together
* `reads_delimited`: a balanced region is read
-/

namespace DeclGen.Grammar

open DeclGen.Grammar.Parser DeclGen.Text

variable {x y s t : List Char} {c o k : Char}

/-- A search for a closing bracket steps over the text, at any depth and whatever follows. -/
def Balanced (x : List Char) : Prop :=
  ∀ k, isClosing k = true → ∀ depth seen t,
    scan (· == k) depth seen (x ++ t) = scan (· == k) depth (seen + x.length) t

/-- The character has no meaning for the search. -/
def isPlain (c : Char) : Bool :=
  !isOpening c && !isClosing c && c != '/' && c != '\'' && c != '"' && c != '@' && c != '$'

namespace Balanced

theorem nil : Balanced [] := fun k _ depth seen t => by simp

theorem append (hx : Balanced x) (hy : Balanced y) : Balanced (x ++ y) := by
  intro k hk depth seen t
  rw [List.append_assoc, hx k hk, hy k hk, List.length_append, Nat.add_assoc]

theorem cons_of (h : ∀ k, isClosing k = true → ∀ depth seen t,
    scan (· == k) depth seen (c :: (x ++ t)) = scan (· == k) depth (seen + 1) (x ++ t))
    (hx : Balanced x) : Balanced (c :: x) := by
  intro k hk depth seen t
  rw [List.cons_append, h k hk, hx k hk, List.length_cons]
  congr 1
  omega

theorem plain (hc : isPlain c = true) (hx : Balanced x) : Balanced (c :: x) := by
  simp only [isPlain, Bool.and_eq_true, Bool.not_eq_true', bne_iff_ne] at hc
  obtain ⟨⟨⟨⟨⟨⟨hopen, hclose⟩, hslash⟩, hquote⟩, hstring⟩, hat⟩, hdollar⟩ := hc
  refine cons_of (fun k hk depth seen t => ?_) hx
  have hne : (c == k) = false := by
    rw [beq_eq_false_iff_ne]
    rintro rfl
    rw [hk] at hclose
    cases hclose
  have htail : literalTail c (x ++ t) = none := by
    simp [literalTail, hslash, hquote, hstring, hat, hdollar]
  rw [scan]
  simp [hne, hopen, hclose, htail, hquote, hstring]

/-- An `@` before a plain character opens nothing. -/
theorem verbatim (hc : isPlain c = true) (hx : Balanced x) : Balanced ('@' :: c :: x) := by
  refine cons_of (fun k hk depth seen t => ?_) (plain hc hx)
  simp only [isPlain, Bool.and_eq_true, Bool.not_eq_true', bne_iff_ne] at hc
  obtain ⟨⟨⟨⟨⟨⟨hopen, hclose⟩, hslash⟩, hquote⟩, hstring⟩, hat⟩, hdollar⟩ := hc
  have hne : ('@' == k) = false := by
    rw [beq_eq_false_iff_ne]
    rintro rfl
    exact absurd hk (by decide)
  have htail : literalTail '@' (c :: x ++ t) = none := by
    simp [literalTail, hat, hdollar, hstring]
  rw [scan]
  simp only [hne, htail]
  simp [isOpening, isClosing]

/-- Brackets around a balanced text. -/
theorem bracket (ho : isOpening o = true) (hk : isClosing k = true) (hx : Balanced x)
    (hy : Balanced y) : Balanced (o :: (x ++ k :: y)) := by
  intro k' hk' depth seen t
  have hne : (o == k') = false := by
    rw [beq_eq_false_iff_ne]
    rintro rfl
    revert ho hk'
    simp only [isOpening, isClosing, Bool.or_eq_true, beq_iff_eq]
    rintro ((rfl | rfl) | rfl) h <;> simp at h
  have hopen : isOpening k = false := by
    revert hk
    simp only [isOpening, isClosing, Bool.or_eq_true, beq_iff_eq]
    rintro ((rfl | rfl) | rfl) <;> rfl
  simp only [List.cons_append, List.append_assoc]
  rw [scan]
  simp only [hne, Bool.and_false, Bool.false_eq_true, if_false, ho, if_true]
  rw [hx k' hk', scan]
  simp only [hopen, hk, Bool.false_eq_true, if_false, if_true, Nat.add_sub_cancel]
  simp only [Nat.add_one_ne_zero, beq_iff_eq, Bool.and_eq_true, false_and, if_false]
  rw [hy k' hk']
  congr 1
  simp only [List.length_cons, List.length_append]
  omega

theorem of_all (h : x.all isPlain = true) : Balanced x := by
  induction x with
  | nil => exact nil
  | cons c x ih =>
    rw [List.all_cons, Bool.and_eq_true] at h
    exact plain h.1 (ih h.2)

end Balanced

/-- The characters of words are plain. -/
theorem isPlain_of_isWordPart (h : isWordPart c = true) : isPlain c = true := by
  have hne (d : Char) (hd : isWordPart d = false) := ne_of_isWordPart h hd
  simp [isPlain, isOpening, isClosing, hne '(' (by decide), hne ')' (by decide),
    hne '[' (by decide), hne ']' (by decide), hne '{' (by decide), hne '}' (by decide),
    hne '/' (by decide), hne '\'' (by decide), hne '"' (by decide), hne '@' (by decide),
    hne '$' (by decide)]

theorem IsWord.balanced (h : IsWord x) : Balanced x :=
  .of_all (List.all_eq_true.mpr fun c hc => isPlain_of_isWordPart (h.forall_isWordPart c hc))

theorem IsIdentifier.balanced (h : IsIdentifier x) : Balanced x := by
  rcases h with ⟨h, -⟩ | ⟨y, rfl, h⟩
  · exact h.balanced
  · cases y with
    | nil => exact h.elim
    | cons c y =>
      have hplain := fun d hd => isPlain_of_isWordPart (h.forall_isWordPart d hd)
      exact .verbatim (hplain c (by simp))
        (.of_all (List.all_eq_true.mpr fun d hd => hplain d (by simp [hd])))

theorem Balanced.flatMap {ι : Type} {xs : List ι} {f : ι → List Char}
    (h : ∀ a ∈ xs, Balanced (f a)) : Balanced (xs.flatMap f) := by
  induction xs with
  | nil => exact .nil
  | cons a xs ih =>
    rw [List.forall_mem_cons] at h
    exact h.1.append (ih h.2)

theorem IsDottedName.balanced (h : IsDottedName x) : Balanced x := by
  obtain ⟨y, ys, rfl, hy, hys⟩ := h
  exact hy.balanced.append (.flatMap fun z hz => .plain (by decide) (hys z hz).balanced)

/-- Balanced texts with a balanced text between each two. -/
theorem Balanced.intercalate {sep : String} {ys : List String} (hsep : Balanced sep.toList)
    (h : ∀ y ∈ ys, Balanced y.toList) : Balanced (sep.intercalate ys).toList := by
  cases ys with
  | nil => exact .nil
  | cons y ys =>
    refine intercalate_induction (fun _ _ hu hv => ?_) (List.cons_ne_nil y ys) h
    exact hu.append (hsep.append hv)

/-- The search for the bracket that closes a balanced text. -/
theorem Balanced.scan_closing (hx : Balanced x) (hk : isClosing k = true) :
    scan (· == k) 0 0 (x ++ k :: t) = some x.length := by
  rw [hx k hk, scan]
  simp

/-- A balanced region is read to the bracket that closes it. -/
theorem reads_delimited (hk : isClosing k = true) (hx : Balanced x) :
    Reads (delimited o k) (o :: (x ++ k :: t)) t (· = o :: (x ++ [k])) := by
  have hscan := hx.scan_closing (t := t) hk
  refine .ahead_bind ?_
  simp only [beq_self_eq_true, if_true, hscan]
  have htake := Reads.take_append (t := t) (o :: (x ++ [k]))
  simpa using htake

end DeclGen.Grammar
