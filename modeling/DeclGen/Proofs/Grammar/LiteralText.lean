import DeclGen.Proofs.Grammar.TypeText

/-!
# Reading decimal literals back

A decimal literal is read as the whole initializer of an enum member, if what follows ends the
member.

## Main definitions

* `IsDecimal`: the texts of decimal literals

## Main statements

* `reads_initializerExpr`: a literal is read as the initializer that it is
-/

namespace DeclGen.Grammar

open DeclGen.Grammar.Parser DeclGen.Text

variable {c : Char} {cs s t w x : List Char}

def isDigitOrLow (c : Char) : Bool := c.isDigit || c == '_'

/-- The text is a decimal literal: digits, perhaps with `_` between them and a suffix behind. -/
def IsDecimal (x : List Char) : Prop :=
  ∃ c digits letters, x = c :: (digits ++ letters) ∧ c.isDigit = true ∧
    (∀ d ∈ digits, isDigitOrLow d = true) ∧ ∀ d ∈ letters, isIntegerSuffix d = true

/-! ## Characters -/

theorem isWordPart_of_isDigit (h : c.isDigit = true) : isWordPart c = true := by
  have hlt : c.toNat < 0x80 := by
    simp only [Char.isDigit, Bool.and_eq_true, decide_eq_true_eq, ge_iff_le] at h
    have := UInt32.le_iff_toNat_le.mp h.2
    change c.toNat ≤ 57 at this
    omega
  simp [isWordPart, isAlphanumeric, isNumeric, hlt, h]

theorem isWordPart_of_isDigitOrLow (h : isDigitOrLow c = true) : isWordPart c = true := by
  rcases Bool.or_eq_true_iff.mp h with h | h
  · exact isWordPart_of_isDigit h
  · rw [beq_iff_eq.mp h]
    decide

/-- The letters behind the digits are letters of a word, but no digits. -/
theorem wordPart_of_isIntegerSuffix (h : isIntegerSuffix c = true) :
    isWordPart c = true ∧ isDigitOrLow c = false := by
  have hcases : c = 'u' ∨ c = 'U' ∨ c = 'l' ∨ c = 'L' := by
    simpa [isIntegerSuffix, or_assoc] using h
  rcases hcases with rfl | rfl | rfl | rfl <;> decide

theorem takeWhile_append_of_head? {p : Char → Bool} (hx : ∀ c ∈ x, p c = true)
    (hs : ∀ c, s.head? = some c → p c = false) : (x ++ s).takeWhile p = x := by
  rw [List.takeWhile_append_of_pos hx]
  cases s with
  | nil => simp
  | cons c s => simp [hs c rfl]

/-- The character that comes next opens trivia or is one of those that are known to be ahead. -/
theorem Ahead.exists_eq_cons (h : Ahead cs s) :
    ∃ d t, s = d :: t ∧ (opensTrivia d = true ∨ d ∈ cs) := by
  obtain ⟨w, c, t, rfl, hw, hc⟩ := h
  cases w with
  | nil => exact ⟨c, t, rfl, .inr hc⟩
  | cons d w =>
    refine ⟨d, w ++ c :: t, rfl, .inl ?_⟩
    cases hopens : opensTrivia d with
    | true => rfl
    | false =>
      have hlength := hw []
      simp [triviaLength, triviaTail_eq_none hopens] at hlength

/-! ## The literal -/

def baseMarks : List Char := ['x', 'X', 'b', 'B']

/-- No mark of another base comes behind the first digit. -/
theorem fails_digitsAfter {k₁ k₂ : String} {m₁ m₂ d : Char} {p : Char → Bool}
    (hk₁ : k₁.toList = ['0', m₁]) (hk₂ : k₂.toList = ['0', m₂]) (hm₁ : s.head? ≠ some m₁)
    (hm₂ : s.head? ≠ some m₂) : Fails (digitsAfter k₁ k₂ p) (d :: s) := by
  have hliteral (k : String) (m : Char) (hk : k.toList = ['0', m]) (hm : s.head? ≠ some m) :
      Fails (literal k) (d :: s) := by
    refine fails_literal ?_
    rw [hk, List.isPrefixOf_cons_cons, isPrefixOf_of_head?_ne hm, Bool.and_false]
  exact .bind_left (.orElse (hliteral k₁ m₁ hk₁ hm₁) (hliteral k₂ m₂ hk₂ hm₂))

/-- Behind the letters of a literal there is no further one. -/
theorem isIntegerSuffix_of_wordEnds (hs : WordEnds s) (h : s.head? = some c) :
    isIntegerSuffix c = false := by
  refine Bool.eq_false_iff.mpr fun hsuffix => ?_
  exact ne_of_isWordPart (wordPart_of_isIntegerSuffix hsuffix).1 (hs c h) rfl

/-- Behind the digits of a literal there is no further one. -/
theorem isDigitOrLow_of_letters (hx : ∀ d ∈ x, isIntegerSuffix d = true) (hs : WordEnds s)
    (h : (x ++ s).head? = some c) : isDigitOrLow c = false := by
  cases x with
  | nil =>
    refine Bool.eq_false_iff.mpr fun hdigit => ?_
    exact ne_of_isWordPart (isWordPart_of_isDigitOrLow hdigit) (hs c h) rfl
  | cons d x =>
    cases h
    exact (wordPart_of_isIntegerSuffix (hx c List.mem_cons_self)).2

/-- Behind the first digit of a literal comes no mark of another base. -/
theorem head?_ne_of_mem_baseMarks {digits letters : List Char}
    (hdigits : ∀ d ∈ digits, isDigitOrLow d = true)
    (hletters : ∀ d ∈ letters, isIntegerSuffix d = true) (hs : WordEnds s) (hc : c ∈ baseMarks) :
    (digits ++ (letters ++ s)).head? ≠ some c := by
  intro h
  have hclasses : baseMarks.all
      (fun m => !isDigitOrLow m && !isIntegerSuffix m && isWordPart m) = true := by decide
  obtain ⟨⟨hdigit, hsuffix⟩, hword⟩ :
      (isDigitOrLow c = false ∧ isIntegerSuffix c = false) ∧ isWordPart c = true := by
    simpa using List.all_eq_true.mp hclasses c hc
  cases digits with
  | cons d digits =>
    cases h
    rw [hdigits c List.mem_cons_self] at hdigit
    cases hdigit
  | nil =>
    cases letters with
    | cons d letters =>
      cases h
      rw [hletters c List.mem_cons_self] at hsuffix
      cases hsuffix
    | nil => exact ne_of_isWordPart hword (hs c h) rfl

theorem reads_decimalDigits (hc : c.isDigit = true) (hx : ∀ d ∈ x, isDigitOrLow d = true)
    (ht : ∀ d, t.head? = some d → isDigitOrLow d = false) :
    Reads decimalDigits (c :: (x ++ t)) t fun _ => True := by
  refine .ahead_bind ?_
  simp only [hc, if_true]
  change Reads (do let _ ← take (((x ++ t).takeWhile isDigitOrLow).length + 1)) _ _ _
  rw [takeWhile_append_of_head? hx ht]
  exact (Reads.take_append (t := t) (c :: x)).bind fun _ _ => .pure trivial

/-- A literal is read to its end. -/
theorem reads_integerToken (hx : IsDecimal x) (hs : WordEnds s) :
    Reads integerToken (x ++ s) s fun _ => True := by
  obtain ⟨c, digits, letters, rfl, hc, hdigits, hletters⟩ := hx
  simp only [List.cons_append, List.append_assoc]
  have hmark (m : Char) (hm : m ∈ baseMarks) :=
    head?_ne_of_mem_baseMarks hdigits hletters hs hm
  have hhex : Fails (digitsAfter "0x" "0X" fun c => isHexDigit c || c == '_')
      (c :: (digits ++ (letters ++ s))) :=
    fails_digitsAfter rfl rfl (hmark 'x' (by decide)) (hmark 'X' (by decide))
  have hbinary : Fails (digitsAfter "0b" "0B" fun c => c == '0' || c == '1' || c == '_')
      (c :: (digits ++ (letters ++ s))) :=
    fails_digitsAfter rfl rfl (hmark 'b' (by decide)) (hmark 'B' (by decide))
  have hdecimal := reads_decimalDigits hc hdigits
    fun d hd => isDigitOrLow_of_letters hletters hs hd
  refine (Reads.orElse_right hhex (.orElse_right hbinary hdecimal)).bind fun _ _ => ?_
  refine .ahead_bind ?_
  rw [takeWhile_append_of_head? hletters fun d hd => isIntegerSuffix_of_wordEnds hs hd]
  exact (Reads.take_append letters).bind fun _ _ => .pure trivial

/-! ## The initializer -/

def itemEnds : List Char := [',', '}']

theorem reads_integerLiteral (hx : IsDecimal x) (hs : Ahead itemEnds s) :
    Reads integerLiteral (x ++ s) s (· = String.ofList x) := by
  have hends : WordEnds s := hs.wordEnds (by decide)
  refine .place_bind fun start => (reads_integerToken hx hends).withText_append.bind ?_
  rintro ⟨_, text⟩ ⟨-, rfl⟩
  obtain ⟨d, t, rfl, hd⟩ := hs.exists_eq_cons
  have hdot : d ≠ '.' := by
    rcases hd with hd | hd
    · rintro rfl
      revert hd
      decide
    · rintro rfl
      revert hd
      decide
  have hno : (isAlphanumeric d || d == '_' || d == '.') = false := by
    rw [beq_eq_false_iff_ne.mpr hdot, Bool.or_false]
    exact hends d rfl
  refine .ahead_bind ?_
  simp only [hno, Bool.false_eq_true]
  exact .pure rfl

/-- A literal starts like no other expression. -/
theorem IsDecimal.exists_eq_cons (hx : IsDecimal x) : ∃ c y, x = c :: y ∧ c.isDigit = true := by
  obtain ⟨c, digits, letters, rfl, hc, -⟩ := hx
  exact ⟨c, digits ++ letters, rfl, hc⟩

theorem IsDecimal.stops (hx : IsDecimal x) : Stops (x ++ t) := by
  obtain ⟨c, y, rfl, hc⟩ := hx.exists_eq_cons
  exact .cons (opensTrivia_of_isWordPart (isWordPart_of_isDigit hc))

theorem ne_of_isDigit {d : Char} (hc : c.isDigit = true) (hd : d.isDigit = false) : c ≠ d := by
  rintro rfl
  rw [hc] at hd
  cases hd

theorem reads_primaryExpr (expr : Parser Expr) (hx : IsDecimal x) (hs : Ahead itemEnds s) :
    Reads (primaryExpr expr) (x ++ s) s (·.bare = .integer (String.ofList x) default) := by
  have hliteral := reads_integerLiteral hx hs
  obtain ⟨c, y, rfl, hc⟩ := hx.exists_eq_cons
  refine .offset_bind fun start => .ahead_bind ?_
  split
  next heq => exact absurd (List.cons.inj heq).1 (ne_of_isDigit hc (by decide))
  next heq =>
    obtain ⟨rfl, -⟩ := List.cons.inj heq
    rw [if_pos hc]
    refine hliteral.label.bind_eq ?_
    exact (reads_spanFrom start s).bind fun _ _ => .pure rfl
  next heq => cases heq

theorem reads_unaryExpr {expr : Parser Expr} (hw : Trivia w) (hx : IsDecimal x)
    (hs : Ahead itemEnds s) :
    Reads (unaryExpr expr) (w ++ (x ++ s)) s
      (·.bare = .integer (String.ofList x) default) := by
  have hprimary := reads_primaryExpr expr hx hs
  have hstops := hx.stops (t := s)
  obtain ⟨c, y, rfl, hc⟩ := hx.exists_eq_cons
  have hunary : unaryOperator? (c :: (y ++ s)) = none := by
    rw [unaryOperator?.eq_def]
    split
    next => rfl
    next heq => exact absurd (List.cons.inj heq).1 (ne_of_isDigit hc (by decide))
    next => rfl
    next heq => exact absurd (List.cons.inj heq).1 (ne_of_isDigit hc (by decide))
    next heq => exact absurd (List.cons.inj heq).1 (ne_of_isDigit hc (by decide))
    next => rfl
  have hopen : ((c :: (y ++ s)).head? == some '(') = false :=
    beq_eq_false_iff_ne.mpr (by simpa using ne_of_isDigit hc (by decide))
  refine .fix (.skip hw (.of_stops hstops (.offset_bind fun start => .ahead_bind ?_)))
  rw [List.cons_append]
  simp only [hunary, hopen]
  exact hprimary

theorem fails_operatorFrom {least : Nat} (hs : Ahead itemEnds s) :
    Fails (operatorFrom least) s := by
  obtain ⟨w, c, t, rfl, hw, hc⟩ := hs
  have hnone : opensTrivia c = false ∧ binaryOperator? (c :: t) = none := by
    simp only [itemEnds, List.mem_cons, List.not_mem_nil, or_false] at hc
    rcases hc with rfl | rfl
    · exact ⟨by decide, rfl⟩
    · exact ⟨by decide, rfl⟩
  refine .skip hw (.of_stops (.cons hnone.1) (.ahead_bind ?_))
  rw [hnone.2]
  exact .fail

theorem reads_constantExpr (hw : Trivia w) (hx : IsDecimal x) (hs : Ahead itemEnds s) :
    Reads constantExpr (w ++ (x ++ s)) s (·.bare = .integer (String.ofList x) default) := by
  refine .fix ((reads_unaryExpr hw hx hs).bind fun e he => ?_)
  refine (Reads.many_nil (t := s) ((Reads.attempt_none (fails_operatorFrom hs)).bind_eq ?_)).bind_eq
    ?_
  · exact .pure rfl
  · exact .pure he

theorem reads_closedExpr (hw : Trivia w) (hx : IsDecimal x) (hs : Ahead itemEnds s) :
    Reads closedExpr (w ++ (x ++ s)) s (·.bare = .integer (String.ofList x) default) := by
  refine (reads_constantExpr hw hx hs).bind fun e he => ?_
  obtain ⟨v, c, t, rfl, hv, hc⟩ := hs
  simp only [itemEnds, List.mem_cons, List.not_mem_nil, or_false] at hc
  have hopens : opensTrivia c = false := by rcases hc with rfl | rfl <;> decide
  have hahead : Reads (do trivia; ahead) (v ++ c :: t) (c :: t) (· = c :: t) :=
    .skip hv (.of_stops (.cons hopens) fun o => ⟨_, o, rfl, rfl⟩)
  refine hahead.lookahead.bind fun r hr => ?_
  obtain ⟨_, rfl, rfl⟩ := hr
  rcases hc with rfl | rfl
  · exact .pure he
  · exact .pure he

/-- A literal is read as the initializer that it is. -/
theorem reads_initializerExpr (hw : Trivia w) (hx : IsDecimal x) (hs : Ahead itemEnds s) :
    Reads initializerExpr (w ++ (x ++ s)) s (·.bare = .integer (String.ofList x) default) := by
  refine (reads_closedExpr hw hx hs).attempt.bind fun r hr => ?_
  obtain ⟨e, rfl, he⟩ := hr
  exact .pure he

end DeclGen.Grammar
