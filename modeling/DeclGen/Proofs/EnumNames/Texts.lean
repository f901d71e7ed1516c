import DeclGen.Proofs.Constant.Congruence
import DeclGen.Proofs.EnumNames.Numbering

/-!
# From folding to ordinals as text

Folding hands the value of an initializer on as decimal text, and the pass that finds the ordinals
reads the text again. Nothing is lost on the way: the text is the numeral of the truncated value and
reads back as it. The pass therefore fails only where an initializer has no value, at the first such
member; counting on from a value of the underlying type never leaves a word.

## Main definitions

* `EnumDecl.foldFailure?`: the failure of a member whose initializer has no value

## Main statements

* `Numbering.failure_ofMembers`: where the pass over the members ends
* `EnumDecl.texts_lossless`: the texts of initializers, and the failures of the pass
-/

namespace DeclGen

open DeclGen.Constant DeclGen.Fold

namespace EnumDecl

def foldFailure? (d : EnumDecl) (m : EnumMember) : Option OrdinalFailure :=
  m.initializer.bind fun e =>
    match d.constantText e with
    | .ok _ => none
    | .error err => some ⟨m, .evaluation err⟩

end EnumDecl

namespace Numbering

open EnumDecl

variable {d : EnumDecl} {m : EnumMember} {previous : Option Int} {left : Nat}

/-- The value is one that the pass may have reached with a number of members left to go. -/
def Reachable (left : Nat) (v : Int) : Prop := -(wordCount 63 : Int) ≤ v ∧ v + left < wordCount 65

theorem Reachable.fits_succ {v : Int} (h : Reachable (left + 1) v) : fits (v + 1) = true := by
  obtain ⟨hlow, hhigh⟩ := h
  simp only [fits, Bool.and_eq_true, decide_eq_true_eq]
  simp only [wordCount_eq] at *
  omega

/-- A member of the pass has a value, with which the pass can go on, or its initializer has none. -/
theorem value?_cases (hleft : left < wordCount 64)
    (h : ∀ p, previous = some p → Reachable (left + 1) p) :
    (∃ v, Ordinal.value? (d.constantText ·) previous m = .ok v ∧ d.foldFailure? m = none ∧
      Reachable left v) ∨
    (∃ err, Ordinal.value? (d.constantText ·) previous m = .error err ∧
      d.foldFailure? m = some ⟨m, err⟩) := by
  cases he : m.initializer with
  | some e =>
    cases htext : d.constantText e with
    | error err =>
      exact .inr ⟨.evaluation err, by simp [Ordinal.value?, he, htext],
        by simp [foldFailure?, he, htext]⟩
    | ok text =>
      obtain ⟨c, -, rfl⟩ := exists_of_constantText htext
      refine .inl ⟨_, value?_of_constantText he htext previous, by simp [foldFailure?, he, htext],
        ?_⟩
      have hlow := Int.le_trans d.underlying.le_least (d.underlying.least_le_wrap c.value)
      have hhigh := Int.lt_of_le_of_lt (d.underlying.wrap_le_greatest c.value)
        d.underlying.greatest_lt
      simp only [Reachable, wordCount_eq] at *
      omega
  | none =>
    have hnone : d.foldFailure? m = none := by simp [foldFailure?, he]
    cases previous with
    | none =>
      refine .inl ⟨0, by simp [Ordinal.value?, he], hnone, ?_⟩
      simp only [Reachable, wordCount_eq] at *
      omega
    | some p =>
      have hp := h p rfl
      refine .inl ⟨p + 1, by simp [Ordinal.value?, he, hp.fits_succ], hnone, ?_⟩
      simp only [Reachable] at *
      omega

/-- The pass ends at the first member whose initializer has no value. -/
theorem failure_ofMembers {ms : List EnumMember} (hlen : ms.length < wordCount 64)
    (h : ∀ p, previous = some p → Reachable ms.length p) :
    (ofMembers (d.constantText ·) previous ms).failure = ms.findSome? d.foldFailure? := by
  induction ms generalizing previous with
  | nil => rfl
  | cons m ms ih =>
    rw [List.length_cons] at hlen h
    rw [ofMembers, List.findSome?_cons]
    obtain ⟨v, hv, hnone, hreach⟩ | ⟨err, herr, hsome⟩ := value?_cases (m := m) (by omega) h
    · rw [hv, hnone]
      exact ih (by omega) fun p hp => Option.some.inj hp ▸ hreach
    · rw [herr, hsome]

end Numbering

namespace EnumDecl

/-- The text of a value that folding finds is the numeral of the integer of the underlying type that
agrees with the value modulo the number of different words of this type, and the pass over the
members reads it back as this integer. The pass has no failures of its own: it fails exactly if the
initializer of some member has no value, with the error of folding and at the first such member. -/
theorem texts_lossless (d : EnumDecl) (hlen : d.members.length < wordCount 64) :
    (∀ e text, d.constantText e = .ok text → ∃ c v, evaluateIn d e = .ok c ∧
      text = toString v ∧ Text.IsNumeral v text.toList ∧
      d.underlying.least ≤ v ∧ v ≤ d.underlying.greatest ∧
      v ≡ c.value [ZMOD wordCount d.underlying.bits] ∧
      Ordinal.ofText? text = some v ∧
      ∀ m, m.initializer = some e → ∀ previous,
        Ordinal.value? (d.constantText ·) previous m = .ok v) ∧
    (∀ failure, d.ordinals constantText = .error failure ↔
      d.members.findSome? d.foldFailure? = some failure) := by
  constructor
  · intro e text htext
    obtain ⟨c, hfold, rfl⟩ := exists_of_constantText htext
    exact ⟨c, _, hfold, rfl, Text.isNumeral_toString _, d.underlying.least_le_wrap _,
      d.underlying.wrap_le_greatest _, d.underlying.wrap_modEq _,
      Ordinal.ofText?_toString (d.underlying.fits_wrap _),
      fun m hm previous => value?_of_constantText hm htext previous⟩
  · intro failure
    have hfailure : (d.numbering constantText).failure = d.members.findSome? d.foldFailure? :=
      Numbering.failure_ofMembers hlen nofun
    rw [← hfailure, ordinals]
    cases (d.numbering constantText).failure with
    | none => simp
    | some first => simp

/-- The enum `enum E : sbyte { A = 200, B, C = Missing, D = 1 / 0 }`, in which `C` is the first
member without a value. -/
def pastSByte : EnumDecl where
  attributes := []
  modifiers := []
  identifier := ⟨"E", ⟨5, 6⟩⟩
  base := some (.predefined "sbyte" ⟨9, 14⟩)
  members := [
    ⟨[], ⟨"A", ⟨17, 18⟩⟩, some (.integer "200" ⟨21, 24⟩), ⟨17, 24⟩⟩,
    ⟨[], ⟨"B", ⟨26, 27⟩⟩, none, ⟨26, 27⟩⟩,
    ⟨[], ⟨"C", ⟨29, 30⟩⟩, some (.name [⟨"Missing", ⟨33, 40⟩⟩] ⟨33, 40⟩), ⟨29, 40⟩⟩,
    ⟨[], ⟨"D", ⟨42, 43⟩⟩, some (.binary .divide (.integer "1" ⟨46, 47⟩) (.integer "0" ⟨50, 51⟩)
      ⟨46, 51⟩), ⟨42, 51⟩⟩]
  span := ⟨0, 53⟩

theorem texts_lossless_pastSByte :
    pastSByte.members.length < wordCount 64 ∧
      pastSByte.constantText (.integer "200" ⟨21, 24⟩) = .ok "-56" ∧
      Ordinal.ofText? "-56" = some (-56) ∧
      ∃ failure, pastSByte.ordinals constantText = .error failure ∧
        failure.member.identifier.name = "C" ∧
        failure.error = .evaluation (.unknownName "Missing") := by
  have hlen : pastSByte.members.length < wordCount 64 := by decide
  obtain ⟨texts, failures⟩ := texts_lossless pastSByte hlen
  have htext : pastSByte.constantText (.integer "200" ⟨21, 24⟩) = .ok "-56" := rfl
  obtain ⟨c, v, -, hv, -, -, -, -, hread, -⟩ := texts _ _ htext
  have hvalue : v = -56 := Text.toString_injective hv.symm
  exact ⟨hlen, htext, hvalue ▸ hread, _, (failures _).mpr rfl, rfl, rfl⟩

end EnumDecl

end DeclGen
