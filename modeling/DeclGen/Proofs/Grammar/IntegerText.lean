import Mathlib.Data.Bool.AllAny
import DeclGen.Proofs.Grammar.LiteralText
import DeclGen.Proofs.Grammar.Gives

/-!
# The texts of integer literals

An integer literal has decimal digits, or hexadecimal or binary ones behind a mark, and perhaps
letters behind them. What is read as one is such a text, and such a text is read whole wherever what
follows could not belong to it.

## Main definitions

* `IsIntegerToken`: the texts of integer literals
* `TokenEnds`: what may follow an integer literal

## Main statements

* `yields_integerLiteral`: what is read as an integer literal
* `IsIntegerToken.reads`: the text of an integer literal is read as it
-/

namespace DeclGen.Grammar

open DeclGen.Grammar.Parser DeclGen.Text

variable {s t x : List Char} {c : Char}

def isHexDigitOrLow (c : Char) : Bool := isHexDigit c || c == '_'

def isBinaryDigitOrLow (c : Char) : Bool := c == '0' || c == '1' || c == '_'

/-- The text is digits behind one of two marks, and letters. -/
def IsBased (lower upper : String) (p : Char → Bool) (x : List Char) : Prop :=
  ∃ mark digits letters, x = mark ++ (digits ++ letters) ∧
    (mark = lower.toList ∨ mark = upper.toList) ∧ digits ≠ [] ∧ (∀ d ∈ digits, p d = true) ∧
    ∀ d ∈ letters, isIntegerSuffix d = true

def IsIntegerToken (x : List Char) : Prop :=
  IsBased "0x" "0X" isHexDigitOrLow x ∨ IsBased "0b" "0B" isBinaryDigitOrLow x ∨ IsDecimal x

/-- A text before which an integer literal ends. -/
def TokenEnds (s : List Char) : Prop := WordEnds s ∧ s.head? ≠ some '.'

/-! ## What is read -/

theorem gives_literal (k : String) (s : List Char) :
    Gives (literal k) s fun _ t => s = k.toList ++ t := by
  refine .bind_reads (reads_startsWith k s) ?_
  rintro _ rfl
  split
  next hprefix =>
    obtain ⟨t, rfl⟩ := List.isPrefixOf_iff_prefix.mp hprefix
    rw [← String.length_toList]
    exact .bind_reads (Reads.take_append k.toList) fun _ _ => .pure rfl
  next => exact .of_fails .fail

theorem takeWhile_append_drop (p : Char → Bool) (t : List Char) :
    t.takeWhile p ++ t.drop (t.takeWhile p).length = t :=
  List.prefix_iff_eq_append.mp (List.takeWhile_prefix p)

theorem of_mem_takeWhile {p : Char → Bool} (h : c ∈ t.takeWhile p) : p c = true :=
  List.all_eq_true.mp List.all_takeWhile c h

theorem gives_digitsAfter (lower upper : String) (p : Char → Bool) (s : List Char) :
    Gives (digitsAfter lower upper p) s fun _ t => ∃ x, s = x ++ t ∧
      ∀ letters, (∀ d ∈ letters, isIntegerSuffix d = true) →
        IsBased lower upper p (x ++ letters) := by
  have hmarks : Gives (orElse (literal lower) (literal upper)) s fun _ t =>
      ∃ mark, s = mark ++ t ∧ (mark = lower.toList ∨ mark = upper.toList) :=
    .orElse ((gives_literal lower s).mono fun _ _ h => ⟨_, h, .inl rfl⟩)
      ((gives_literal upper s).mono fun _ _ h => ⟨_, h, .inr rfl⟩)
  refine hmarks.bind ?_
  rintro _ t ⟨mark, rfl, hmark⟩
  refine .ahead_bind ?_
  split
  next => exact .of_fails .fail
  next n hn =>
    have hsplit := takeWhile_append_drop p t
    rw [hn] at hsplit
    refine .bind_reads (Reads.take (n + 1)) fun _ _ => .pure ?_
    refine ⟨mark ++ t.takeWhile p, by rw [List.append_assoc, hsplit], fun letters hletters => ?_⟩
    refine ⟨mark, t.takeWhile p, letters, by simp, hmark, ?_, fun d => of_mem_takeWhile, hletters⟩
    exact List.ne_nil_of_length_eq_add_one hn

theorem gives_decimalDigits (s : List Char) :
    Gives decimalDigits s fun _ t => ∃ x, s = x ++ t ∧
      ∀ letters, (∀ d ∈ letters, isIntegerSuffix d = true) → IsDecimal (x ++ letters) := by
  refine .ahead_bind ?_
  split
  next c s =>
    split
    next hc =>
      change Gives (do let _ ← take ((s.takeWhile isDigitOrLow).length + 1)) _ _
      refine .bind_reads (Reads.take _) fun _ _ => .pure ⟨c :: s.takeWhile isDigitOrLow, ?_, ?_⟩
      · rw [List.drop_succ_cons, List.cons_append, takeWhile_append_drop]
      · exact fun letters hletters => ⟨c, _, letters, rfl, hc, fun d => of_mem_takeWhile, hletters⟩
    next => exact .of_fails .fail
  next => exact .of_fails .fail

theorem gives_integerToken (s : List Char) :
    Gives integerToken s fun _ t => ∃ x, s = x ++ t ∧ IsIntegerToken x := by
  have hdigits : Gives (orElse (digitsAfter "0x" "0X" isHexDigitOrLow)
      (orElse (digitsAfter "0b" "0B" isBinaryDigitOrLow) decimalDigits)) s fun _ t =>
        ∃ x, s = x ++ t ∧
          ∀ letters, (∀ d ∈ letters, isIntegerSuffix d = true) → IsIntegerToken (x ++ letters) := by
    refine .orElse ((gives_digitsAfter _ _ _ s).mono ?_)
      (.orElse ((gives_digitsAfter _ _ _ s).mono ?_) ((gives_decimalDigits s).mono ?_))
    · exact fun _ t ⟨x, hx, h⟩ => ⟨x, hx, fun letters hletters => .inl (h letters hletters)⟩
    · exact fun _ t ⟨x, hx, h⟩ => ⟨x, hx, fun letters hletters => .inr (.inl (h letters hletters))⟩
    · exact fun _ t ⟨x, hx, h⟩ => ⟨x, hx, fun letters hletters => .inr (.inr (h letters hletters))⟩
  refine hdigits.bind ?_
  rintro _ t ⟨x, rfl, hx⟩
  refine .ahead_bind (.bind_reads (Reads.take _) fun _ _ => .pure ?_)
  refine ⟨x ++ t.takeWhile isIntegerSuffix, ?_, hx _ fun d => of_mem_takeWhile⟩
  rw [List.append_assoc, takeWhile_append_drop]

/-- What is read as an integer literal is the text of one. -/
theorem yields_integerLiteral : Yields integerLiteral fun text => IsIntegerToken text.toList := by
  refine .of_gives fun s => ?_
  have hread := (gives_integerToken s).withText
  refine .bind_reads (t := s) (S := fun _ => True) (fun o => ⟨_, _, rfl, trivial⟩) fun start _ => ?_
  refine hread.bind fun r t hr => .ahead_bind ?_
  have hvalue : Gives (Pure.pure (String.ofList r.2)) t fun (text : String) _ =>
      IsIntegerToken text.toList := .pure (by rwa [String.toList_ofList])
  split
  next c _ =>
    cases isAlphanumeric c || c == '_' || c == '.' with
    | true =>
      rintro o a c' ⟨⟩
    | false => exact hvalue
  next => exact hvalue

/-! ## Reading the text of a literal -/

theorem Reads.orElse_left {α : Type} {p q : Parser α} {Q : α → Prop} (h : Reads p s t Q) :
    Reads (orElse p q) s t Q := by
  intro o
  obtain ⟨a, o', hp, ha⟩ := h o
  exact ⟨a, o', by rw [Parser.orElse, hp], ha⟩

theorem isAlpha_iff_toNat : c.isAlpha = true ↔
    (65 ≤ c.toNat ∧ c.toNat ≤ 90) ∨ (97 ≤ c.toNat ∧ c.toNat ≤ 122) := by
  delta Char.isAlpha Char.isUpper Char.isLower
  simp only [Bool.or_eq_true, Bool.and_eq_true, decide_eq_true_eq, ge_iff_le,
    UInt32.le_iff_toNat_le]
  rfl

/-- The letters among the hexadecimal digits are letters of a word. -/
theorem isWordPart_of_between {low high : Char} (hlow : low ≤ c) (hhigh : c ≤ high)
    (hall : ∀ n, low.toNat ≤ n → n ≤ high.toNat → (65 ≤ n ∧ n ≤ 90) ∨ (97 ≤ n ∧ n ≤ 122)) :
    isWordPart c = true := by
  have hcases := hall c.toNat (UInt32.le_iff_toNat_le.mp hlow) (UInt32.le_iff_toNat_le.mp hhigh)
  have hlt : c.toNat < 0x80 := by omega
  have halpha : c.isAlpha = true := isAlpha_iff_toNat.mpr hcases
  simp [isWordPart, isAlphanumeric, isAlphabetic, hlt, halpha]

theorem isWordPart_of_isHexDigitOrLow (h : isHexDigitOrLow c = true) : isWordPart c = true := by
  simp only [isHexDigitOrLow, isHexDigit, Bool.or_eq_true, Bool.and_eq_true, decide_eq_true_eq,
    beq_iff_eq] at h
  rcases h with ((h | ⟨hlow, hhigh⟩) | ⟨hlow, hhigh⟩) | rfl
  · exact isWordPart_of_isDigit h
  · exact isWordPart_of_between hlow hhigh fun n h₁ h₂ => .inr ⟨h₁, Nat.le_trans h₂ (by decide)⟩
  · exact isWordPart_of_between hlow hhigh fun n h₁ h₂ => .inl ⟨h₁, Nat.le_trans h₂ (by decide)⟩
  · decide

theorem isWordPart_of_isBinaryDigitOrLow (h : isBinaryDigitOrLow c = true) :
    isWordPart c = true := by
  have hcases : c = '0' ∨ c = '1' ∨ c = '_' := by
    simpa [isBinaryDigitOrLow, or_assoc] using h
  rcases hcases with rfl | rfl | rfl <;> decide

/-- The letters behind the digits are no digits. -/
theorem eq_false_of_isIntegerSuffix {p : Char → Bool} (h : isIntegerSuffix c = true)
    (hp : ∀ d ∈ ['u', 'U', 'l', 'L'], p d = false) : p c = false :=
  hp c (by simpa [isIntegerSuffix, or_assoc] using h)

/-- Behind the digits of a literal there is no further one. -/
theorem not_digit_of_head? {p : Char → Bool} {letters : List Char}
    (hword : ∀ d, p d = true → isWordPart d = true)
    (hsuffix : ∀ d ∈ ['u', 'U', 'l', 'L'], p d = false)
    (hletters : ∀ d ∈ letters, isIntegerSuffix d = true) (hs : WordEnds s)
    (h : (letters ++ s).head? = some c) : p c = false := by
  cases letters with
  | nil => exact Bool.eq_false_iff.mpr fun hc => ne_of_isWordPart (hword c hc) (hs c h) rfl
  | cons d letters =>
    cases h
    exact eq_false_of_isIntegerSuffix (hletters c List.mem_cons_self) hsuffix

theorem reads_digitsAfter {lower upper : String} {p : Char → Bool} {mark digits : List Char}
    (hmark : mark = lower.toList ∨ mark = upper.toList)
    (hmarks : ∀ u, lower.toList.isPrefixOf (upper.toList ++ u) = false) (hne : digits ≠ [])
    (hdigits : ∀ d ∈ digits, p d = true) (ht : ∀ c, t.head? = some c → p c = false) :
    Reads (digitsAfter lower upper p) (mark ++ (digits ++ t)) t fun _ => True := by
  have hread : Reads (orElse (literal lower) (literal upper)) (mark ++ (digits ++ t)) (digits ++ t)
      fun _ => True := by
    rcases hmark with rfl | rfl
    · exact .orElse_left (reads_literal lower _)
    · exact .orElse_right (fails_literal (hmarks _)) (reads_literal upper _)
  refine hread.bind fun _ _ => .ahead_bind ?_
  rw [takeWhile_append_of_head? hdigits ht]
  obtain ⟨n, hn⟩ : ∃ n, digits.length = n + 1 :=
    ⟨digits.length - 1, by have := List.length_pos_iff.mpr hne; omega⟩
  have htake := Reads.take_append (t := t) digits
  rw [hn] at htake ⊢
  exact htake.bind fun _ _ => .pure trivial

theorem reads_integerToken_of_digits {x letters : List Char}
    (hdigits : Reads (orElse (digitsAfter "0x" "0X" isHexDigitOrLow)
      (orElse (digitsAfter "0b" "0B" isBinaryDigitOrLow) decimalDigits)) (x ++ (letters ++ s))
        (letters ++ s) fun _ => True)
    (hletters : ∀ d ∈ letters, isIntegerSuffix d = true) (hs : WordEnds s) :
    Reads integerToken (x ++ (letters ++ s)) s fun _ => True := by
  refine hdigits.bind fun _ _ => .ahead_bind ?_
  rw [takeWhile_append_of_head? hletters fun d hd => isIntegerSuffix_of_wordEnds hs hd]
  exact (Reads.take_append letters).bind fun _ _ => .pure trivial

theorem IsIntegerToken.reads_integerToken (hx : IsIntegerToken x) (hs : WordEnds s) :
    Reads integerToken (x ++ s) s fun _ => True := by
  rcases hx with ⟨mark, digits, letters, rfl, hmark, hne, hdigits, hletters⟩ |
    ⟨mark, digits, letters, rfl, hmark, hne, hdigits, hletters⟩ | hx
  · have hsuffix : ∀ d ∈ ['u', 'U', 'l', 'L'], isHexDigitOrLow d = false :=
      List.all_iff_forall_prop.mp (by decide)
    have hread := reads_digitsAfter hmark (fun _ => rfl) hne hdigits fun c =>
      not_digit_of_head? (fun _ => isWordPart_of_isHexDigitOrLow) hsuffix hletters hs
    have h := reads_integerToken_of_digits (x := mark ++ digits) (by simpa using hread.orElse_left)
      hletters hs
    simpa using h
  · have hother (m : Char) (hx : m ≠ 'x') (hX : m ≠ 'X') :
        Fails (digitsAfter "0x" "0X" isHexDigitOrLow)
          ('0' :: m :: (digits ++ (letters ++ s))) := by
      have hhead {d : Char} (hd : m ≠ d) : (m :: (digits ++ (letters ++ s))).head? ≠ some d := by
        simpa using hd
      exact fails_digitsAfter rfl rfl (hhead hx) (hhead hX)
    have hhex : Fails (digitsAfter "0x" "0X" isHexDigitOrLow)
        (mark ++ (digits ++ (letters ++ s))) := by
      rcases hmark with rfl | rfl
      · exact hother 'b' (by decide) (by decide)
      · exact hother 'B' (by decide) (by decide)
    have hsuffix : ∀ d ∈ ['u', 'U', 'l', 'L'], isBinaryDigitOrLow d = false :=
      List.all_iff_forall_prop.mp (by decide)
    have hread := reads_digitsAfter hmark (fun _ => rfl) hne hdigits fun c =>
      not_digit_of_head? (fun _ => isWordPart_of_isBinaryDigitOrLow) hsuffix hletters hs
    have h := reads_integerToken_of_digits (x := mark ++ digits)
      (by simpa using Reads.orElse_right hhex hread.orElse_left) hletters hs
    simpa using h
  · exact Grammar.reads_integerToken hx hs

/-- The text of an integer literal is read as it. -/
theorem IsIntegerToken.reads (hx : IsIntegerToken x) (hs : TokenEnds s) :
    Reads integerLiteral (x ++ s) s (· = String.ofList x) := by
  refine .place_bind fun start => (hx.reads_integerToken hs.1).withText_append.bind ?_
  rintro ⟨_, text⟩ ⟨-, rfl⟩
  refine .ahead_bind ?_
  cases s with
  | nil => exact .pure rfl
  | cons d s =>
    have hno : (isAlphanumeric d || d == '_' || d == '.') = false := by
      have hdot : d ≠ '.' := by simpa using hs.2
      rw [beq_eq_false_iff_ne.mpr hdot, Bool.or_false]
      exact hs.1 d rfl
    simp only [hno, Bool.false_eq_true]
    exact .pure rfl

/-- A literal starts with a digit. -/
theorem IsIntegerToken.exists_eq_cons (hx : IsIntegerToken x) :
    ∃ c y, x = c :: y ∧ c.isDigit = true := by
  rcases hx with hx | hx | hx
  · obtain ⟨mark, digits, letters, rfl, rfl | rfl, -⟩ := hx
    · exact ⟨'0', _, rfl, by decide⟩
    · exact ⟨'0', _, rfl, by decide⟩
  · obtain ⟨mark, digits, letters, rfl, rfl | rfl, -⟩ := hx
    · exact ⟨'0', _, rfl, by decide⟩
    · exact ⟨'0', _, rfl, by decide⟩
  · exact hx.exists_eq_cons

end DeclGen.Grammar
