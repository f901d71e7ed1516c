import DeclGen.Grammar.Expr
import DeclGen.Proofs.Constant.Parts
import DeclGen.Proofs.Grammar.Headers
import DeclGen.Proofs.Grammar.IntegerText
import DeclGen.Proofs.Grammar.Precedence
import DeclGen.Proofs.Grammar.TypeText

/-!
# Texts of operands

What an expression may start with when it is written out, and what may come behind it: nothing, a
closing parenthesis, or an operator with another expression between blanks.

## Main definitions

* `IsNameHead`: the first segment of a name
* `Expr.Writable`: the expressions that their text stands for
* `Leads`: the text starts as an expression does
* `Behind`: the text may come behind an expression

## Main statements

* `Expr.leads_text`: the text of an expression starts as one
-/

namespace DeclGen

open DeclGen.Grammar

namespace Grammar

/-- The identifier may be the first segment of a name, as built-in type words may too. -/
def IsNameHead (i : Identifier) : Prop :=
  IsIdentifier i.text.toList ∨ isPredefinedType i.text = true

end Grammar

namespace Expr

/-- The node is one that its text stands for. Literals, names and types are those that the grammar
has, two signs in a row are not the same, a built-in type word does not stand in parentheses by
itself, where it would be read as the type of a cast, and no sign comes behind the type of a cast
that is not built in, where it would be read as a binary operator. -/
def Writable : Expr → Prop
  | integer text _ => ∃ c c', integerLiteral c = .ok (text, c')
  | name segments _ => ∃ first others, segments = first :: others ∧ IsNameHead first ∧
      ∀ i ∈ others, IsIdentifier i.text.toList
  | unary op operand _ => ∀ e span, operand = unary op e span → op = .complement
  | parenthesized operand _ => ∀ i span, operand = name [i] span → isPredefinedType i.text = false
  | cast type operand _ => (∃ c c', typeExpr c = .ok (type, c')) ∧
      (type.isPredefined = false → ∀ c ∈ operand.text.toList.head?, c ≠ '+' ∧ c ≠ '-')
  | overflowContext _ _ _ | binary _ _ _ _ => True
  | character _ _ | unsupported _ _ => False

end Expr

namespace Grammar

open DeclGen.Grammar.Parser DeclGen.Text

variable {k : String} {c d : Char} {s t w y : List Char} {op : BinaryOperator} {e : Expr}

/-- A character of a kind is not among characters that are not of the kind. -/
theorem notMem_of_kind {p : Char → Bool} {cs : List Char} (hc : p c = true)
    (hcs : (cs.all fun d => !p d) = true) : c ∉ cs := by
  intro hmem
  have hnot := List.all_eq_true.mp hcs c hmem
  rw [hc] at hnot
  cases hnot

/-! ## What comes next -/

theorem fails_symbol_of_head (hw : Trivia w) (hstops : Stops (c :: t)) (hk : k.toList = d :: y)
    (hne : c ≠ d) : Fails (symbol k) (w ++ c :: t) := by
  refine fails_symbol hw hstops ?_
  rw [hk]
  exact isPrefixOf_of_head?_ne (by simpa using hne)

theorem fails_identifier_of_head (hw : Trivia w) (hstops : Stops (c :: t))
    (hc : isWordStart c = false) (hat : c ≠ '@') : Fails identifier (w ++ c :: t) := by
  refine .skip hw (.of_stops hstops (.offset_bind fun start => ?_))
  refine .bind_eq (reads_acceptHere_false (isPrefixOf_of_head?_ne (c := '@') (y := []) ?_)) ?_
  · simpa using hat
  · exact .bind_left (fails_word (.cons hc))

theorem reads_accept_of_fails (h : Fails (symbol k) s) : Reads (accept k) s s (· = false) :=
  (Reads.attempt_none h).bind_eq (.pure rfl)

/-- Neither a word nor a comma comes next. -/
theorem gives_attempt_identifier (hfails : Fails identifier s) (hcomma : Fails (symbol ",") s) :
    Gives (attempt identifier) s fun _ t => Fails (symbol ",") t :=
  .of_reads (Reads.attempt_none hfails) fun _ _ => hcomma

/-! ## What expressions start with -/

/-- No word starts with a digit. -/
theorem isWordStart_of_isDigit (h : c.isDigit = true) : isWordStart c = false := by
  have hne : c ≠ '_' := ne_of_isDigit h (by decide)
  obtain ⟨hlow, hhigh⟩ : 48 ≤ c.toNat ∧ c.toNat ≤ 57 := Char.isDigit_iff_toNat.mp h
  have halpha : c.isAlpha = false := by
    rw [Bool.eq_false_iff, ne_eq, isAlpha_iff_toNat]
    omega
  have hlt : c.toNat < 0x80 := by omega
  simp [isWordStart, isAlphabetic, hlt, halpha, hne]

def startsName (c : Char) : Bool := isWordStart c || c == '@'

theorem isDigit_of_startsName (h : startsName c = true) : c.isDigit = false := by
  rw [Bool.eq_false_iff]
  intro hdigit
  have hat : c ≠ '@' := ne_of_isDigit hdigit (by decide)
  simp [startsName, isWordStart_of_isDigit hdigit, hat] at h

theorem stops_of_startsName (h : startsName c = true) : Stops (c :: t) := by
  simp only [startsName, Bool.or_eq_true, beq_iff_eq] at h
  rcases h with h | rfl
  · exact .cons (opensTrivia_of_isWordPart (isWordPart_of_isWordStart h))
  · exact .cons (by decide)

theorem IsNameHead.exists_eq_cons {i : Identifier} (h : IsNameHead i) :
    ∃ c x, i.text.toList = c :: x ∧ startsName c = true := by
  have hword {x : List Char} (hx : IsWord x) : ∃ c y, x = c :: y ∧ startsName c = true := by
    cases x with
    | nil => exact hx.elim
    | cons c x => exact ⟨c, x, rfl, by rw [startsName, hx.1, Bool.true_or]⟩
  rcases h with (⟨hx, -⟩ | ⟨y, hy, -⟩) | hpredefined
  · exact hword hx
  · exact ⟨'@', y, hy, rfl⟩
  · exact hword (isWord_of_isPredefinedType hpredefined)

/-- The text starts as an expression does: with a literal, with a sign or parenthesis, or with a
word that no comma follows. -/
inductive Leads : List Char → Prop where
  | digit {c : Char} {t : List Char} (hc : c.isDigit = true) : Leads (c :: t)
  | mark {c : Char} {t : List Char} (hc : c ∈ ['+', '-', '~', '(']) : Leads (c :: t)
  | word {x t : List Char} (hx : IsWord x ∨ IsIdentifier x) (ht : WordEnds t)
      (hcomma : Fails (symbol ",") t) : Leads (x ++ t)

namespace Leads

theorem exists_eq_cons (h : Leads s) : ∃ c t, s = c :: t ∧ opensTrivia c = false ∧
    (isWordPart c = true ∨ c ∈ ['+', '-', '~', '(', '@']) := by
  have hmarks : ∀ c ∈ ['+', '-', '~', '(', '@'], opensTrivia c = false :=
    List.all_iff_forall_prop.mp (by decide)
  have hword {x t : List Char} (hx : IsWord x) : ∃ c u, x ++ t = c :: u ∧ opensTrivia c = false ∧
      (isWordPart c = true ∨ c ∈ ['+', '-', '~', '(', '@']) := by
    cases x with
    | nil => exact hx.elim
    | cons c x =>
      have hc := isWordPart_of_isWordStart hx.1
      exact ⟨c, x ++ t, rfl, opensTrivia_of_isWordPart hc, .inl hc⟩
  cases h with
  | digit hc =>
    have hc := isWordPart_of_isDigit hc
    exact ⟨_, _, rfl, opensTrivia_of_isWordPart hc, .inl hc⟩
  | @mark c t hc =>
    have hc : c ∈ ['+', '-', '~', '(', '@'] := List.mem_append_left ['@'] hc
    exact ⟨_, _, rfl, hmarks _ hc, .inr hc⟩
  | word hx _ _ =>
    rcases hx with hx | ⟨hx, -⟩ | ⟨y, rfl, -⟩
    · exact hword hx
    · exact hword hx
    · exact ⟨'@', _, rfl, by decide, .inr (by decide)⟩

theorem stops (h : Leads s) : Stops s := by
  obtain ⟨c, t, rfl, hc, -⟩ := h.exists_eq_cons
  exact .cons hc

/-- The text starts with no other character. -/
theorem exists_ne (h : Leads s) (hd : isWordPart d = false)
    (hmark : d ∉ ['+', '-', '~', '(', '@']) :
    ∃ c t, s = c :: t ∧ Stops (c :: t) ∧ c ≠ d := by
  obtain ⟨c, t, rfl, hopens, hc⟩ := h.exists_eq_cons
  refine ⟨c, t, rfl, .cons hopens, ?_⟩
  rcases hc with hc | hc
  · exact ne_of_isWordPart hc hd
  · rintro rfl
    exact hmark hc

theorem fails_symbol (h : Leads s) (hw : Trivia w) (hk : k.toList = d :: y)
    (hd : isWordPart d = false) (hmark : d ∉ ['+', '-', '~', '(', '@']) :
    Fails (symbol k) (w ++ s) := by
  obtain ⟨c, t, rfl, hstops, hne⟩ := h.exists_ne hd hmark
  exact fails_symbol_of_head hw hstops hk hne

theorem fails_typeSuffix (h : Leads s) (hw : Trivia w) : Fails typeSuffix (w ++ s) := by
  obtain ⟨c, t, rfl, hopens, hc⟩ := h.exists_eq_cons
  refine fails_typeSuffix_of_head hw (.cons hopens) ?_
  rcases hc with hc | hc
  · exact notMem_of_kind hc (by decide)
  · have hall : ∀ d ∈ ['+', '-', '~', '(', '@'], d ∉ ['?', '*', '['] :=
      List.all_iff_forall_prop.mp (by decide)
    exact hall c hc

/-- Behind an identifier that is read there is no comma, nor is one at the start. -/
theorem gives_identifier (h : Leads s) (hw : Trivia w) :
    Gives (attempt identifier) (w ++ s) fun _ t => Fails (symbol ",") t := by
  have hnone (hfails : Fails identifier (w ++ s)) :
      Gives (attempt identifier) (w ++ s) fun _ t => Fails (symbol ",") t :=
    gives_attempt_identifier hfails (h.fails_symbol hw rfl (by decide) (by decide))
  cases h with
  | @digit c t hc =>
    refine hnone (fails_identifier_of_head hw ?_ (isWordStart_of_isDigit hc) ?_)
    · exact .cons (opensTrivia_of_isWordPart (isWordPart_of_isDigit hc))
    · exact ne_of_isDigit hc (by decide)
  | @mark c t hc =>
    have hall : ∀ d ∈ ['+', '-', '~', '('], opensTrivia d = false ∧ isWordStart d = false ∧
      d ≠ '@' := List.all_iff_forall_prop.mp (by decide)
    obtain ⟨hopens, hstart, hat⟩ := hall c hc
    exact hnone (fails_identifier_of_head hw (.cons hopens) hstart hat)
  | @word x t hx ht hcomma =>
    by_cases hid : IsIdentifier x
    · exact .of_reads (reads_identifier hw hid ht).attempt fun _ _ => hcomma
    · have hword : IsWord x := hx.resolve_right hid
      have hkey : isKeyword (String.ofList x) = true := by
        refine eq_true_of_ne_false fun hplain => hid (.inl ⟨hword, hplain⟩)
      exact hnone (fails_identifier hw hword hkey ht)

end Leads

/-! ## What comes behind expressions -/

/-- The text may come behind an expression that is written out: it is empty or starts with a closing
parenthesis, or it goes on with an operator and another expression. -/
inductive Behind : List Char → Prop where
  | nil : Behind []
  | close (t : List Char) : Behind (')' :: t)
  | operator (op : BinaryOperator) {e : Expr} {s : List Char} (he : e.Every Expr.Writable)
      (hs : Behind s) :
      Behind ([' '] ++ (op.symbol.toList ++ ([' '] ++ (e.text.toList ++ s))))

def operatorMarks : List Char := ['*', '/', '%', '+', '-', '<', '>', '&', '^', '|']

theorem exists_symbol_eq_cons (op : BinaryOperator) (t : List Char) :
    ∃ c u, op.symbol.toList ++ ([' '] ++ t) = c :: u ∧ Stops (c :: u) ∧ c ∈ operatorMarks ∧
      op.symbol.toList.head? = some c := by
  cases op with
  | divide =>
    refine ⟨'/', ' ' :: t, rfl, ?_, by decide, rfl⟩
    rw [Stops, triviaLength]
    simp [triviaTail, isSpace]
  | _ => exact ⟨_, _, rfl, .cons (by decide), by decide, rfl⟩

theorem eq_multiply_of_head? (h : op.symbol.toList.head? = some '*') : op = .multiply := by
  revert h
  cases op <;> decide

theorem eq_shiftLeft_of_head? (h : op.symbol.toList.head? = some '<') : op = .shiftLeft := by
  revert h
  cases op <;> decide

/-- A symbol that does not start as the operator does is not what comes next. -/
theorem fails_symbol_operator (hk : k.toList = d :: y) (hd : op.symbol.toList.head? ≠ some d)
    (t : List Char) : Fails (symbol k) ([' '] ++ (op.symbol.toList ++ ([' '] ++ t))) := by
  obtain ⟨c, u, hsplit, hstops, -, hhead⟩ := exists_symbol_eq_cons op t
  rw [hsplit]
  refine fails_symbol_of_head trivia_blank hstops hk ?_
  rintro rfl
  exact hd hhead

theorem binaryOperator?_symbol (op : BinaryOperator) (t : List Char) :
    binaryOperator? (op.symbol.toList ++ ([' '] ++ t)) = some (op, op.symbol.toList.length) := by
  cases op <;> rfl

/-- With a blank on either side no symbol runs on into a longer one. -/
theorem nextOperator?_blank (op : BinaryOperator) (t : List Char) :
    nextOperator? ([' '] ++ (op.symbol.toList ++ ([' '] ++ t))) = some op := by
  obtain ⟨c, u, hsplit, hstops, -⟩ := exists_symbol_eq_cons op t
  have hlength : triviaLength ([' '] ++ (op.symbol.toList ++ ([' '] ++ t))) = 1 := by
    rw [trivia_blank, hsplit, hstops]
    rfl
  rw [nextOperator?, hlength]
  change (binaryOperator? (op.symbol.toList ++ ([' '] ++ t))).map (·.1) = _
  rw [binaryOperator?_symbol]
  rfl

/-- An expression ends before an operator that binds at most as tightly as it does. -/
theorem endsAt_operator (h : e.Binds op.precedence) (t : List Char) :
    EndsAt ([' '] ++ (op.symbol.toList ++ ([' '] ++ t))) e := by
  cases e with
  | binary op' left right span =>
    intro op'' hop
    rw [nextOperator?_blank] at hop
    cases hop
    exact Nat.lt_succ_of_le h
  | _ => trivial

theorem reads_operatorFrom {least : Nat} (h : least ≤ op.precedence) (t : List Char) :
    Reads (operatorFrom least) ([' '] ++ (op.symbol.toList ++ ([' '] ++ t))) ([' '] ++ t)
      (· = op) := by
  obtain ⟨c, u, hsplit, hstops, -⟩ := exists_symbol_eq_cons op t
  refine .skip trivia_blank (.of_stops (by rwa [hsplit]) (.ahead_bind ?_))
  simp only [binaryOperator?_symbol, if_neg (Nat.not_lt_of_le h)]
  exact (Reads.take_append op.symbol.toList).bind fun _ _ => .pure rfl

/-- No operator comes at the end, or before a closing parenthesis. -/
theorem stopped_close (least : Nat) (t : List Char) : Stopped least (')' :: t) := by
  have hstops : Stops (')' :: t) := .cons (by decide)
  intro op hop
  rw [nextOperator?, hstops, List.drop_zero] at hop
  cases hop

theorem stopped_nil (least : Nat) : Stopped least [] := by
  intro op hop
  rw [nextOperator?, Stops.nil, List.drop_zero] at hop
  cases hop

namespace Behind

theorem tokenEnds (h : Behind s) : TokenEnds s := by
  cases h with
  | nil => exact ⟨by rintro c ⟨⟩, by simp⟩
  | close t => exact ⟨.cons (by decide), by simp⟩
  | operator op he hs => exact ⟨.cons (by decide), by simp⟩

theorem fails_symbol (h : Behind s) (hk : k.toList = d :: y) (hd : d ∉ ')' :: operatorMarks) :
    Fails (symbol k) s := by
  simp only [List.mem_cons, not_or] at hd
  cases h with
  | nil => exact Grammar.fails_symbol (s := []) .nil .nil (by rw [hk]; rfl)
  | close t => exact fails_symbol_of_head .nil (.cons (by decide)) hk (Ne.symm hd.1)
  | operator op he hs =>
    refine fails_symbol_operator hk (fun hhead => ?_) _
    obtain ⟨c, -, -, -, hc, hhead'⟩ := exists_symbol_eq_cons op []
    rw [hhead] at hhead'
    cases hhead'
    exact hd.2 hc

theorem reads_accept_false (h : Behind s) (hk : k.toList = d :: y)
    (hd : d ∉ ')' :: operatorMarks) : Reads (accept k) s s (· = false) :=
  reads_accept_of_fails (h.fails_symbol hk hd)

/-- With a comma there is nothing that belongs to an expression. -/
theorem fails_comma (h : Behind s) : Fails (symbol ",") s := h.fails_symbol rfl (by decide)

end Behind

/-! ## The text of an expression -/

theorem toList_text_name (first : Identifier) (others : List Identifier) (span : Span) :
    (Expr.name (first :: others) span).text.toList =
      first.text.toList ++ dottedTailText (others.map (·.text.toList)) := by
  rw [Expr.text, List.map_cons, toList_intercalate, dottedTailText, List.flatMap_map,
    List.flatMap_map]
  rfl

/-- Behind a segment of a name come further ones or what is behind the name. -/
theorem dottedTail_cases (hs : Behind s) (xs : List (List Char)) :
    WordEnds (dottedTailText xs ++ s) ∧ Fails (symbol ",") (dottedTailText xs ++ s) := by
  cases xs with
  | nil => exact ⟨hs.tokenEnds.1, hs.fails_comma⟩
  | cons x xs =>
    refine ⟨.cons (by decide), ?_⟩
    exact fails_symbol_of_head .nil (.cons (by decide)) rfl (by decide)

end Grammar

namespace Expr

variable {s : List Char} {e : Expr}

theorem toList_text_binary (bop : BinaryOperator) (l r : Expr) (span : Span) (s : List Char) :
    (binary bop l r span).text.toList ++ s =
      l.text.toList ++ ([' '] ++ (bop.symbol.toList ++ ([' '] ++ (r.text.toList ++ s)))) := by
  simp [text]

/-- The text of an expression starts as one. -/
theorem leads_text (he : e.Every Writable) (hs : Behind s) :
    Leads (e.text.toList ++ s) := by
  induction e generalizing s with
  | integer text span =>
    obtain ⟨c, c', hread⟩ := he.self
    obtain ⟨d, x, hx, hd⟩ := (yields_integerLiteral _ _ _ hread).exists_eq_cons
    rw [Expr.text, hx]
    exact .digit hd
  | character | unsupported => exact he.self.elim
  | name segments span =>
    obtain ⟨first, others, rfl, hfirst, -⟩ := he.self
    rw [toList_text_name, List.append_assoc]
    obtain ⟨hends, hcomma⟩ := dottedTail_cases hs (others.map (·.text.toList))
    exact .word (hfirst.elim .inr fun h => .inl (isWord_of_isPredefinedType h)) hends hcomma
  | unary op operand span ih =>
    cases op with
    | plus | minus | complement =>
      simp only [Expr.text, String.toList_append]
      exact .mark (by decide)
  | binary op left right span ihl ihr =>
    obtain ⟨-, hleft, hright⟩ := Every.binary_iff.mp he
    rw [toList_text_binary]
    exact ihl hleft (.operator op hright hs)
  | parenthesized inner span ih | cast type operand span ih =>
    simp only [Expr.text, String.toList_append]
    exact .mark (by decide)
  | overflowContext isChecked inner span ih =>
    have hword (k : String) (hk : IsWord k.toList) :
        Leads (k.toList ++ '(' :: (inner.text.toList ++ ')' :: s)) :=
      .word (.inl hk) (.cons (by decide))
        (fails_symbol_of_head .nil (.cons (by decide)) rfl (by decide))
    cases isChecked with
    | true => simpa [Expr.text] using hword "checked" (by decide)
    | false => simpa [Expr.text] using hword "unchecked" (by decide)

end Expr

end DeclGen
