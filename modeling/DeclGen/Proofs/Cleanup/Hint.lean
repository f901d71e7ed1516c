import DeclGen.Proofs.Cleanup.Unit
import DeclGen.Proofs.Text.Bytes
import DeclGen.Proofs.Text.Decimal

/-!
# The names of cleanup units

A hint name is put together from names that were read from a text. None of their characters is
forbidden in a hint name, so the name of every holder is accepted, whatever the settings are.

## Main definitions

* `isHintChar`: the characters that may occur in a hint name
* `IsHintPart`: the texts that a hint name may start with

## Main statements

* `SourceSet.isValidHint_of_mem_holders`: the names of holders are accepted
-/

namespace DeclGen

open DeclGen.Grammar DeclGen.Text

def isHintChar (c : Char) : Bool := !forbiddenInHints.contains c && !isControl c

/-! ## Characters -/

theorem lowest_of_inRanges {n bound : Nat} {ranges : List (Nat × Nat)}
    (hranges : ∀ r ∈ ranges, bound ≤ r.1) (h : inRanges n ranges = true) : bound ≤ n := by
  obtain ⟨r, hr, hn⟩ := List.any_eq_true.mp h
  have := hranges r hr
  grind

/-- Letters and digits are no control characters: the tables start behind the last of these. -/
theorem isControl_of_isAlphanumeric {c : Char} (h : isAlphanumeric c = true) :
    isControl c = false := by
  have halphabetic : ∀ r ∈ alphabeticRanges, 0xA0 ≤ r.1 := by decide +kernel
  have hnumeric : ∀ r ∈ numericRanges, 0xA0 ≤ r.1 := by decide +kernel
  rw [isAlphanumeric, isAlphabetic, isNumeric, Bool.or_eq_true] at h
  have hrange : 0x20 ≤ c.toNat ∧ (c.toNat < 0x7F ∨ 0xA0 ≤ c.toNat) := by
    by_cases hascii : c.toNat < 0x80
    · rw [if_pos hascii, if_pos hascii] at h
      have hprintable := printable_of_isAlphanum (c := c) (by simpa [Char.isAlphanum] using h)
      omega
    · rw [if_neg hascii, if_neg hascii] at h
      have hlow : 0xA0 ≤ c.toNat := by
        rcases h with h | h
        · exact lowest_of_inRanges halphabetic h
        · exact lowest_of_inRanges hnumeric h
      omega
  simp only [isControl]
  grind

theorem isHintChar_of_isWordPart {c : Char} (h : isWordPart c = true) : isHintChar c = true := by
  have hforbidden : forbiddenInHints.all (!isWordPart ·) = true := by decide
  have hcontrol : isControl c = false := by
    rw [isWordPart, Bool.or_eq_true, beq_iff_eq] at h
    rcases h with h | rfl
    · exact isControl_of_isAlphanumeric h
    · decide
  have hmem : c ∉ forbiddenInHints := by
    intro hc
    have hno := List.all_eq_true.mp hforbidden c hc
    rw [h] at hno
    cases hno
  simp [isHintChar, hcontrol, hmem]

/-! ## Names -/

/-- The text can stand at the start of a hint name, and between dots in it. -/
structure IsHintPart (x : List Char) : Prop where
  ne_nil : x ≠ []
  head?_ne : x.head? ≠ some '.'
  isHintChar : ∀ c ∈ x, isHintChar c = true

namespace IsHintPart

variable {x y : List Char}

theorem append (hx : IsHintPart x) (hy : ∀ c ∈ y, DeclGen.isHintChar c = true) :
    IsHintPart (x ++ y) := by
  obtain ⟨c, x, rfl⟩ := List.exists_cons_of_ne_nil hx.ne_nil
  refine ⟨by simp, hx.head?_ne, fun d hd => ?_⟩
  rcases List.mem_append.mp hd with hd | hd
  · exact hx.isHintChar d hd
  · exact hy d hd

theorem of_isWord (h : IsWord x) : IsHintPart x := by
  refine ⟨?_, ?_, fun c hc => isHintChar_of_isWordPart (h.forall_isWordPart c hc)⟩
  · rintro rfl
    exact h.elim
  · simpa using h.head?_ne (t := []) (c := '.') (by decide)

theorem of_isIdentifier (h : IsIdentifier x) : IsHintPart x := by
  rcases h with ⟨h, -⟩ | ⟨y, rfl, h⟩
  · exact of_isWord h
  · have hat : IsHintPart ['@'] := ⟨by decide, by decide, List.all_eq_true.mp (by decide)⟩
    exact hat.append (of_isWord h).isHintChar

theorem of_isDottedName (h : IsDottedName x) : IsHintPart x := by
  obtain ⟨y, ys, rfl, hy, hys⟩ := h
  refine (of_isIdentifier hy).append fun c hc => ?_
  obtain ⟨z, hz, hc⟩ := List.mem_flatMap.mp hc
  rcases List.mem_cons.mp hc with rfl | hc
  · decide
  · exact (of_isIdentifier (hys z hz)).isHintChar c hc

/-- Parts with dots between them are a part. -/
theorem intercalate {ys : List String} (hne : ys ≠ []) (h : ∀ y ∈ ys, IsHintPart y.toList) :
    IsHintPart (".".intercalate ys).toList := by
  refine intercalate_induction (fun u v hu hv => hu.append fun c hc => ?_) hne h
  rcases List.mem_append.mp hc with hc | hc
  · obtain rfl := List.mem_singleton.mp hc
    decide
  · exact hv.isHintChar c hc

/-- A part in front of the extension is a hint name. -/
theorem isValidHint {s : String} (h : IsHintPart s.toList) :
    isValidHint (s ++ ".AutoDispose.g.cs") = true := by
  have hall := h.append (y := ".AutoDispose.g.cs".toList) (List.all_eq_true.mp (by decide))
  have hsuffix : ".cs".toList <:+ (s ++ ".AutoDispose.g.cs").toList :=
    ⟨s.toList ++ ".AutoDispose.g".toList, by simp⟩
  rw [← String.toList_append] at hall
  simp only [DeclGen.isValidHint, Bool.and_eq_true, decide_eq_true_eq, bne_iff_ne,
    List.isSuffixOf_iff_suffix]
  exact ⟨⟨⟨by simp, hsuffix⟩, hall.head?_ne⟩, List.all_eq_true.mpr hall.isHintChar⟩

end IsHintPart

/-- An identifier that is written as a word binds the word. -/
theorem Identifier.name_of_isWord {i : Identifier} (h : IsWord i.text.toList) :
    i.name = i.text := by
  rw [Identifier.name]
  split
  next s hs => exact absurd (by simp [hs]) (h.head?_ne (t := []) (c := '@') (by decide))
  next => rfl

/-- The name that an identifier binds is a word. -/
theorem Identifier.WellNamed.isWord_name {i : Identifier} (h : i.WellNamed) :
    IsWord i.name.toList := by
  rcases h with ⟨h, -⟩ | ⟨y, hy, h⟩
  · rwa [Identifier.name_of_isWord h]
  · have hname : i.name = String.ofList y := by simp [Identifier.name, hy]
    rwa [hname, String.toList_ofList]

/-- What is added to the name of a generic type may stand in a file name too. -/
theorem TypeHead.WellNamed.isHintPart_metadataName {t : TypeHead} (h : t.WellNamed) :
    IsHintPart t.metadataName.toList := by
  have hname := IsHintPart.of_isWord h.1.isWord_name
  rw [TypeHead.metadataName]
  split
  next ps _ =>
    rw [String.toList_append, String.toList_append, List.append_assoc]
    refine hname.append fun c hc => ?_
    rcases List.mem_append.mp hc with hc | hc
    · obtain rfl := List.mem_singleton.mp hc
      decide
    · have hdigit := isDigit_of_mem_repr hc
      refine isHintChar_of_isWordPart ?_
      have hprintable := printable_of_isAlphanum (c := c) (by simp [Char.isAlphanum, hdigit])
      have hascii : c.toNat < 0x80 := by omega
      simp [isWordPart, isAlphanumeric, isNumeric, hascii, hdigit]
  next => exact hname

/-! ## Holders -/

/-- The name of the unit of a holder with names that can be read back is accepted. -/
theorem Holder.isValidHint_hint {h : Holder} (hsite : h.site.WellNamed) :
    isValidHint h.hint = true := by
  refine IsHintPart.isValidHint (IsHintPart.intercalate (by simp) fun s hs => ?_)
  rcases List.mem_append.mp hs with hs | hs
  · rcases List.mem_append.mp hs with hs | hs
    · exact .of_isDottedName
        (Enclosing.isDottedName_namespaceName? hsite.chain s (Option.mem_toList.mp hs))
    · obtain ⟨t, ht, rfl⟩ := List.mem_map.mp hs
      exact (Enclosing.wellNamed_types hsite.chain t ht).isHintPart_metadataName
  · obtain rfl := List.mem_singleton.mp hs
    exact hsite.head.isHintPart_metadataName

/-- The names of the units of all holders are accepted, whatever is read and is looked for. -/
theorem SourceSet.isValidHint_of_mem_holders {files : List (String × String)}
    {settings : CleanupSettings} {h : Holder} (hh : h ∈ (ofFiles files).1.holders settings) :
    isValidHint h.hint = true :=
  Holder.isValidHint_hint (wellNamed_of_mem_holders hh).1

end DeclGen
