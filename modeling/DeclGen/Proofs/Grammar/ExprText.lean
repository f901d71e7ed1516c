import DeclGen.Proofs.Grammar.CastTypes
import DeclGen.Proofs.Syntax.Bare

/-!
# Reading constant expressions back

The text of an expression is read as the expression, if this has the shape that precedence dictates
and its parts are ones that their texts stand for. An operand is read by itself; the operators of an
expression outside brackets are read from left to right, and those of a right operand with the bound
that its operator sets.

## Main definitions

* `ReadsOperand`: the text of an operand is read as it
* `ReadsOperations`: the text of an expression is read as the first operations of a longer one

## Main statements

* `constantExpr_by_precedence`: the trees of constant expressions, and their texts
-/

namespace DeclGen.Grammar

open DeclGen.Grammar.Parser DeclGen.Text

variable {c : Char} {n least : Nat} {s t u w : List Char} {e inner operand left right : Expr}
  {expr : Parser Expr} {op : UnaryOperator} {bop : BinaryOperator} {type : TypeExpr} {span : Span}
  {Q : Expr → Prop}

/-- The text of the expression is read as it where an operand is expected. -/
def ReadsOperand (e : Expr) : Prop :=
  ∀ n w s, Trivia w → Behind s → (w ++ (e.text.toList ++ s)).length ≤ n →
    Reads (unaryExpr (selfBelow binaryExprOf n 0)) (w ++ (e.text.toList ++ s)) s (·.bare = e.bare)

/-- Where operators are read that bind at least as tightly as a bound, the text of the expression is
read as it, and further operations are added to it. -/
def ReadsOperations (e : Expr) : Prop :=
  ∀ n least w s u (Q : Expr → Prop), Trivia w → Behind s →
    (w ++ (e.text.toList ++ s)).length ≤ n → e.Binds least → EndsAt s e →
    (∀ e' : Expr, e'.bare = e.bare → Reads (many (operation? (selfBelow binaryExprOf n) least)) s u
      fun others => Q (others.foldl Expr.combine e')) →
    Reads (binaryExprOf (selfBelow binaryExprOf n) least) (w ++ (e.text.toList ++ s)) u Q

/-! ## Operations -/

/-- Where what is wanted of the further elements depends on the first one. -/
theorem reads_many_of_first {α : Type} {p : Parser (Option α)} {P : α → Prop}
    {S : List α → Prop} (h : Reads p s t fun r => ∃ a, r = some a ∧ P a)
    (hlt : t.length < s.length)
    (hrest : ∀ a, P a → Reads (many p) t u fun as => S (a :: as)) : Reads (many p) s u S := by
  intro o
  obtain ⟨_, o', hp, a, rfl, ha⟩ := h o
  obtain ⟨as, o'', hmany, hS⟩ := hrest a ha o'
  have hround : manyRound p ⟨o, s⟩ = .ok (.more a, ⟨o', t⟩) := by
    rw [manyRound, bind_apply, hp]
    rfl
  have hrounds : rounds (manyRound p) ⟨o', t⟩ = .ok (as, ⟨o'', u⟩) := hmany
  refine ⟨a :: as, o'', ?_, hS⟩
  rw [many, rounds, hround]
  simp only [if_pos hlt, hrounds]

theorem ReadsOperand.readsOperations (h : ReadsOperand e) : ReadsOperations e := by
  intro n least w s u Q hw hs hn _ _ hothers
  refine (h n w s hw hs hn).bind fun first hfirst => ?_
  exact (hothers first hfirst).bind fun others hQ => .pure hQ

/-- An expression is read with a bound if nothing comes behind it that the bound admits. -/
theorem ReadsOperations.reads (h : ReadsOperations e) (hw : Trivia w) (hs : Behind s)
    (hbinds : e.Binds least) (hstopped : Stopped least s) :
    Reads (binaryExpr least) (w ++ (e.text.toList ++ s)) s (·.bare = e.bare) := by
  refine .fix (h _ least w s s _ hw hs (Nat.le_refl _) hbinds
    (endsAt_of_stopped hbinds hstopped) fun e' he' => ?_)
  have hnone : Reads (operation? (selfBelow binaryExprOf (w ++ (e.text.toList ++ s)).length) least)
      s s (· = none) :=
    (Reads.attempt_none (fails_operatorFrom_of_stopped hstopped)).bind_eq (.pure rfl)
  refine (Reads.many_nil hnone).mono ?_
  rintro _ rfl
  exact he'

/-- The left operand is read first, and the operation is one that is added to it. -/
theorem readsOperations_binary (hl : ReadsOperations left) (hr : ReadsOperations right)
    (hright : right.Every Expr.Writable) (hbinds : (Expr.binary bop left right span).Climbs) :
    ReadsOperations (.binary bop left right span) := by
  intro n least w s u Q hw hs hn hleast hends hothers
  have hle : least ≤ bop.precedence := hleast
  rw [Expr.toList_text_binary] at hn ⊢
  have hbehind : Behind ([' '] ++ (bop.symbol.toList ++ ([' '] ++ (right.text.toList ++ s)))) :=
    .operator bop hright hs
  refine hl n least w _ u Q hw hbehind hn (hbinds.1.mono hle) (endsAt_operator hbinds.1 _)
    fun l' hl' => ?_
  have hoperand : Reads (selfBelow binaryExprOf n (bop.precedence + 1))
      ([' '] ++ (right.text.toList ++ s)) s (·.bare = right.bare) := by
    refine .selfBelow (hr.reads trivia_blank hs hbinds.2 hends) ?_
    simp only [List.length_append, List.length_cons, List.length_nil] at hn ⊢
    omega
  have hoperation : Reads (operation? (selfBelow binaryExprOf n) least)
      ([' '] ++ (bop.symbol.toList ++ ([' '] ++ (right.text.toList ++ s)))) s
      fun r => ∃ o, r = some o ∧ (o.1 = bop ∧ o.2.bare = right.bare) := by
    refine (reads_operatorFrom hle _).attempt.bind ?_
    rintro _ ⟨_, rfl, rfl⟩
    exact hoperand.bind fun r' hr' => .pure ⟨_, rfl, rfl, hr'⟩
  refine reads_many_of_first hoperation ?_ ?_
  · simp only [List.length_append, List.length_cons, List.length_nil]
    omega
  · rintro ⟨op', r'⟩ ⟨rfl, hr'⟩
    refine hothers (Expr.combine l' (op', r')) ?_
    simp only [Expr.combine, Expr.bare, hl', hr']

/-! ## Operands -/

/-- An expression with neither an operator nor a parenthesis in front. -/
theorem reads_unaryExpr_of_primary (hw : Trivia w) (hstops : Stops (c :: t))
    (hc : c ∉ ['+', '-', '~', '(']) (h : Reads (primaryExpr expr) (c :: t) s Q) :
    Reads (unaryExpr expr) (w ++ c :: t) s Q := by
  simp only [List.mem_cons, List.not_mem_nil, or_false, not_or] at hc
  obtain ⟨hplus, hminus, htilde, hopen⟩ := hc
  have hunary : unaryOperator? (c :: t) = none := by
    rw [unaryOperator?.eq_def]
    split
    next => rfl
    next heq => exact absurd (List.cons.inj heq).1 hplus
    next => rfl
    next heq => exact absurd (List.cons.inj heq).1 hminus
    next heq => exact absurd (List.cons.inj heq).1 htilde
    next => rfl
  have hhead : ((c :: t).head? == some '(') = false :=
    beq_eq_false_iff_ne.mpr (by simpa using hopen)
  refine .fix (.skip hw (.of_stops hstops (.offset_bind fun start => .ahead_bind ?_)))
  simp only [hunary, hhead]
  exact h

theorem readsOperand_integer {text : String} (h : IsIntegerToken text.toList) :
    ReadsOperand (.integer text span) := by
  intro n w s hw hs _
  have hread := h.reads hs.tokenEnds
  obtain ⟨c, x, hx, hc⟩ := h.exists_eq_cons
  have hstops : Stops (c :: (x ++ s)) :=
    .cons (opensTrivia_of_isWordPart (isWordPart_of_isDigit hc))
  have hmarks : c ∉ ['+', '-', '~', '('] := notMem_of_kind hc (by decide)
  rw [String.ofList_toList, hx] at hread
  rw [Expr.text, hx]
  refine reads_unaryExpr_of_primary hw hstops hmarks (.offset_bind fun start => .ahead_bind ?_)
  split
  next heq => exact absurd (List.cons.inj heq).1 (ne_of_isDigit hc (by decide))
  next heq =>
    obtain ⟨rfl, -⟩ := List.cons.inj heq
    rw [if_pos hc]
    exact hread.label.bind_eq ((reads_spanFrom start s).bind fun _ _ => .pure rfl)
  next heq => cases heq

/-! ### Names -/

theorem reads_nameHead {i : Identifier} (h : IsNameHead i) (ht : WordEnds t) :
    Reads nameHead (i.text.toList ++ t) t (·.text = i.text) := by
  by_cases hid : IsIdentifier i.text.toList
  · refine (reads_identifier_text .nil hid ht).attempt.bind ?_
    rintro _ ⟨j, rfl, hj⟩
    exact .pure hj
  · have hpredefined := h.resolve_left hid
    have hword := isWord_of_isPredefinedType hpredefined
    have hkey : isKeyword (String.ofList i.text.toList) = true :=
      eq_true_of_ne_false fun hplain => hid (.inl ⟨hword, hplain⟩)
    refine (Reads.attempt_none (fails_identifier .nil hword hkey ht)).bind_eq ?_
    refine .offset_bind fun start => (reads_word hword ht).attempt.bind ?_
    rintro _ ⟨_, rfl, rfl⟩
    simp only [String.ofList_toList, hpredefined, if_true]
    exact (reads_spanFrom start t).bind fun _ _ => .pure rfl

/-- The segments of a name behind the first one. -/
theorem reads_nameParts {is : List Identifier} (his : ∀ i ∈ is, IsIdentifier i.text.toList)
    (hs : Behind s) :
    Reads (many namePart?) (dottedTailText (is.map (·.text.toList)) ++ s) s
      fun js => js.map (·.bare) = is.map (·.bare) := by
  induction is with
  | nil =>
    have hnone : Reads namePart? s s (· = none) :=
      (hs.reads_accept_false rfl (by decide)).bind_eq (.pure rfl)
    refine (Reads.many_nil hnone).mono ?_
    rintro _ rfl
    rfl
  | cons i is ih =>
    have hends := (dottedTail_cases hs (is.map (·.text.toList))).1
    have hdot := reads_accept (x := ".")
      (t := i.text.toList ++ (dottedTailText (is.map (·.text.toList)) ++ s)) .nil
      (.cons (by decide))
    have hname := reads_identifier_text .nil (his i List.mem_cons_self) hends
    have hsplit : dottedTailText ((i :: is).map (·.text.toList)) ++ s = [] ++ (".".toList ++
        (i.text.toList ++ (dottedTailText (is.map (·.text.toList)) ++ s))) := by
      simp [dottedTailText]
    have hpart : Reads namePart? (dottedTailText ((i :: is).map (·.text.toList)) ++ s)
        (dottedTailText (is.map (·.text.toList)) ++ s)
        fun r => ∃ j, r = some j ∧ j.text = i.text := by
      rw [hsplit]
      refine hdot.bind_eq ?_
      rw [if_pos rfl]
      exact hname.label.bind fun j hj => .pure ⟨j, rfl, hj⟩
    refine (Reads.many_cons hpart ?_ (ih fun j hj => his j (List.mem_cons_of_mem i hj))).mono ?_
    · rw [hsplit]
      have : ".".toList.length = 1 := rfl
      simp only [List.length_append]
      omega
    · rintro _ ⟨j, js, rfl, hj, hjs⟩
      rw [List.map_cons, List.map_cons, hjs, Identifier.bare_eq, Identifier.bare_eq, hj]

/-- The first segment of a name is not one of the words that open an overflow context. -/
theorem reads_lookahead_word {i : Identifier} (h : IsNameHead i) (ht : WordEnds t) :
    Reads (lookahead word) (i.text.toList ++ t) (i.text.toList ++ t)
      fun r => r ≠ some "checked" ∧ r ≠ some "unchecked" := by
  have hread (hword : IsWord i.text.toList) (hchecked : i.text ≠ "checked")
      (hunchecked : i.text ≠ "unchecked") : Reads (lookahead word) (i.text.toList ++ t)
        (i.text.toList ++ t) fun r => r ≠ some "checked" ∧ r ≠ some "unchecked" := by
    refine (reads_word hword ht).lookahead.mono ?_
    rintro _ ⟨_, rfl, rfl⟩
    rw [String.ofList_toList]
    exact ⟨by simpa using hchecked, by simpa using hunchecked⟩
  rcases h with (⟨hword, hplain⟩ | ⟨y, hy, -⟩) | hpredefined
  · rw [String.ofList_toList] at hplain
    refine hread hword ?_ ?_ <;> intro heq
    · rw [heq] at hplain
      exact absurd hplain (by decide)
    · rw [heq] at hplain
      exact absurd hplain (by decide)
  · intro o
    obtain ⟨err, herr⟩ := (fails_word (.cons (by decide)) : Fails word ('@' :: (y ++ t))) o
    refine ⟨none, o, ?_, by simp⟩
    rw [hy, Parser.lookahead, List.cons_append, herr]
  · refine hread (isWord_of_isPredefinedType hpredefined) ?_ ?_ <;> intro heq
    · rw [heq] at hpredefined
      exact absurd hpredefined (by decide)
    · rw [heq] at hpredefined
      exact absurd hpredefined (by decide)

theorem reads_nameExpr {first : Identifier} {others : List Identifier} (span : Span)
    (hfirst : IsNameHead first) (hothers : ∀ i ∈ others, IsIdentifier i.text.toList)
    (hs : Behind s) :
    Reads nameExpr (first.text.toList ++ (dottedTailText (others.map (·.text.toList)) ++ s)) s
      (·.bare = (Expr.name (first :: others) span).bare) := by
  have hends : SegmentEnds (dottedTailText (others.map (·.text.toList)) ++ s) := ⟨_, s, rfl, hs⟩
  refine .offset_bind fun start => (reads_nameHead hfirst hends.wordEnds).bind fun i hi => ?_
  refine hends.reads_accept_false.bind_eq ?_
  rw [if_neg (by decide)]
  refine .pure_bind ((reads_nameParts hothers hs).bind fun is his => ?_)
  refine (reads_spanFrom start s).bind fun _ _ => .pure ?_
  rw [Expr.bare, Expr.bare, List.map_cons, List.map_cons, his, Identifier.bare_eq,
    Identifier.bare_eq, hi]

theorem readsOperand_name {first : Identifier} {others : List Identifier}
    (hfirst : IsNameHead first) (hothers : ∀ i ∈ others, IsIdentifier i.text.toList) :
    ReadsOperand (.name (first :: others) span) := by
  intro n w s hw hs _
  have hname := reads_nameExpr span hfirst hothers hs
  have hlookahead := reads_lookahead_word hfirst
    (dottedTail_cases hs (others.map (·.text.toList))).1
  obtain ⟨c, x, hx, hc⟩ := hfirst.exists_eq_cons
  have hmarks : c ∉ ['+', '-', '~', '('] := notMem_of_kind hc (by decide)
  rw [toList_text_name, List.append_assoc]
  rw [hx] at hname hlookahead ⊢
  refine reads_unaryExpr_of_primary hw (stops_of_startsName hc) hmarks
    (.offset_bind fun start => .ahead_bind ?_)
  split
  next heq =>
    obtain ⟨rfl, -⟩ := List.cons.inj heq
    cases hc
  next heq =>
    obtain ⟨rfl, -⟩ := List.cons.inj heq
    rw [if_neg (by simp [isDigit_of_startsName hc])]
    refine hlookahead.bind fun r hr => ?_
    split
    next => exact absurd rfl hr.1
    next => exact absurd rfl hr.2
    next => exact hname
  next heq => cases heq

/-! ### Parentheses and casts -/

theorem reads_inParentheses
    (h : Reads expr (inner.text.toList ++ ')' :: s) (')' :: s) (·.bare = inner.bare)) :
    Reads (inParentheses expr) ('(' :: (inner.text.toList ++ ')' :: s)) s
      (·.bare = inner.bare) := by
  refine (reads_symbol (x := "(") .nil (.cons (by decide))).bind fun _ _ => ?_
  refine h.bind fun e he => ?_
  exact (reads_symbol (x := ")") .nil (.cons (by decide))).label.bind fun _ _ => .pure he

/-- An expression in brackets starts further on than the brackets. -/
theorem ReadsOperations.reads_selfBelow (h : ReadsOperations e)
    (hn : (e.text.toList ++ ')' :: s).length < n) :
    Reads (selfBelow binaryExprOf n 0) (e.text.toList ++ ')' :: s) (')' :: s)
      (·.bare = e.bare) :=
  .selfBelow (h.reads .nil (.close s) e.binds_zero (stopped_close 0 s)) hn

/-- A type word alone in parentheses would be read as the type of a cast. -/
theorem readsOperand_parenthesized (h : ReadsOperations inner) (hinner : inner.Every Expr.Writable)
    (hlone : ∀ i span, inner = .name [i] span → isPredefinedType i.text = false) :
    ReadsOperand (.parenthesized inner span) := by
  intro n w s hw hs hn
  have hsplit : (Expr.parenthesized inner span).text.toList ++ s =
      '(' :: (inner.text.toList ++ ')' :: s) := by
    simp [Expr.text]
  rw [hsplit] at hn ⊢
  refine .fix (.skip hw (.of_stops (.cons (by decide)) (.offset_bind fun start =>
    .ahead_bind ?_)))
  have hcast : Fails (castExpr (selfBelow (fun self _ =>
      unaryExprOf (selfBelow binaryExprOf n 0) (self ()))
        (w ++ '(' :: (inner.text.toList ++ ')' :: s)).length ()))
          ('(' :: (inner.text.toList ++ ')' :: s)) :=
    .offset_bind fun _ => .bind_left (fails_castType hinner hlone hs)
  refine (Reads.attempt_none hcast).bind_eq ?_
  have hread := h.reads_selfBelow (s := s) (n := n) (by
    simp only [List.length_append, List.length_cons] at hn ⊢
    omega)
  refine (reads_inParentheses hread).bind fun e he => ?_
  refine (reads_spanFrom start s).bind fun _ _ => .pure ?_
  rw [Expr.bare, Expr.bare, he]

theorem readsOperand_overflowContext {isChecked : Bool} (h : ReadsOperations inner) :
    ReadsOperand (.overflowContext isChecked inner span) := by
  intro n w s hw hs hn
  have hsplit : (Expr.overflowContext isChecked inner span).text.toList ++ s =
      (if isChecked then "checked" else "unchecked").toList ++
        '(' :: (inner.text.toList ++ ')' :: s) := by
    simp [Expr.text]
  rw [hsplit] at hn ⊢
  have hread := h.reads_selfBelow (s := s) (n := n) (by
    simp only [List.length_append, List.length_cons] at hn ⊢
    omega)
  have hends : WordEnds ('(' :: (inner.text.toList ++ ')' :: s)) := .cons (by decide)
  have hrest (start : Nat) (k : String) (hk : IsWord k.toList) : Reads (do
      let _ ← word
      return Expr.overflowContext isChecked (← inParentheses (selfBelow binaryExprOf n 0))
        (← spanFrom start)) (k.toList ++ '(' :: (inner.text.toList ++ ')' :: s)) s
      (·.bare = (Expr.overflowContext isChecked inner span).bare) := by
    refine (reads_word hk hends).bind fun _ _ => ?_
    refine (reads_inParentheses hread).bind fun e he => ?_
    refine (reads_spanFrom start s).bind fun _ _ => .pure ?_
    rw [Expr.bare, Expr.bare, he]
  cases isChecked with
  | true =>
    refine reads_unaryExpr_of_primary hw (.cons (by decide)) (by decide)
      (.offset_bind fun start => .ahead_bind ?_)
    refine (reads_word (x := "checked".toList) (by decide) hends).lookahead.bind ?_
    rintro _ ⟨_, rfl, rfl⟩
    exact hrest start "checked" (by decide)
  | false =>
    refine reads_unaryExpr_of_primary hw (.cons (by decide)) (by decide)
      (.offset_bind fun start => .ahead_bind ?_)
    refine (reads_word (x := "unchecked".toList) (by decide) hends).lookahead.bind ?_
    rintro _ ⟨_, rfl, rfl⟩
    exact hrest start "unchecked" (by decide)

/-- The operand of a unary operator or a cast, behind what stands in front of it. -/
theorem ReadsOperand.reads_self {m : Nat} (h : ReadsOperand operand) (hs : Behind s)
    (hn : (operand.text.toList ++ s).length ≤ n) (hm : (operand.text.toList ++ s).length < m) :
    Reads (selfBelow (fun self _ => unaryExprOf (selfBelow binaryExprOf n 0) (self ())) m ())
      (operand.text.toList ++ s) s (·.bare = operand.bare) :=
  .selfBelow (h n [] s .nil hs hn) hm

theorem readsOperand_cast (h : ReadsOperand operand)
    (he : (Expr.cast type operand span).Every Expr.Writable) :
    ReadsOperand (.cast type operand span) := by
  intro n w s hw hs hn
  obtain ⟨⟨htype, hsign⟩, hwritable⟩ := Expr.Every.cast_iff.mp he
  have hsplit : (Expr.cast type operand span).text.toList ++ s =
      '(' :: (type.text.toList ++ ')' :: (operand.text.toList ++ s)) := by
    simp [Expr.text]
  rw [hsplit] at hn ⊢
  have hhead : (operand.text.toList ++ s).head? = operand.text.toList.head? := by
    obtain ⟨c, t, htext, -⟩ := (Expr.leads_text hwritable .nil).exists_eq_cons
    rw [List.append_nil] at htext
    rw [htext]
    rfl
  have hoperand := h.reads_self (n := n)
    (m := (w ++ '(' :: (type.text.toList ++ ')' :: (operand.text.toList ++ s))).length) hs
    (by simp only [List.length_append, List.length_cons] at hn ⊢; omega)
    (by simp only [List.length_append, List.length_cons]; omega)
  refine .fix (.skip hw (.of_stops (.cons (by decide)) (.offset_bind fun start =>
    .ahead_bind ?_)))
  have hcast : Reads (castExpr (selfBelow (fun self _ =>
      unaryExprOf (selfBelow binaryExprOf n 0) (self ()))
        (w ++ '(' :: (type.text.toList ++ ')' :: (operand.text.toList ++ s))).length ()))
          ('(' :: (type.text.toList ++ ')' :: (operand.text.toList ++ s))) s
          (·.bare = (Expr.cast type operand span).bare) := by
    refine .offset_bind fun start => ?_
    have hleads := Expr.leads_text hwritable hs
    refine (reads_castType htype hleads (by rwa [hhead])).bind fun t ht => ?_
    refine hoperand.bind fun e he => (reads_spanFrom start s).bind fun _ _ => .pure ?_
    rw [Expr.bare, Expr.bare, ht, he]
  refine hcast.attempt.bind ?_
  rintro _ ⟨e, rfl, he⟩
  exact .pure he

/-! ### Signs -/

/-- Only a unary operation starts with a sign. -/
theorem exists_head_ne_sign (he : e.Every Expr.Writable) (hbinary : e.isBinary = false)
    (hunary : ∀ op operand span, e ≠ .unary op operand span) :
    ∃ d x, e.text.toList = d :: x ∧ d ∉ ['+', '-'] := by
  cases e with
  | integer text span =>
    obtain ⟨c, c', hread⟩ := he.self
    obtain ⟨d, x, hx, hd⟩ := (yields_integerLiteral _ _ _ hread).exists_eq_cons
    exact ⟨d, x, hx, notMem_of_kind hd (by decide)⟩
  | character | unsupported => exact he.self.elim
  | name segments span =>
    obtain ⟨first, others, rfl, hfirst, -⟩ := he.self
    obtain ⟨d, x, hx, hd⟩ := hfirst.exists_eq_cons
    exact ⟨d, _, by rw [toList_text_name, hx, List.cons_append], notMem_of_kind hd (by decide)⟩
  | unary op operand span => exact absurd rfl (hunary op operand span)
  | binary => cases hbinary
  | parenthesized inner span | cast type operand span =>
    simp only [Expr.text, String.toList_append]
    exact ⟨'(', _, rfl, by decide⟩
  | overflowContext isChecked inner span =>
    simp only [Expr.text, String.toList_append]
    cases isChecked with
    | true => exact ⟨'c', _, rfl, by decide⟩
    | false => exact ⟨'u', _, rfl, by decide⟩

/-- Only a unary operation starts with its operator. -/
theorem head?_text_ne (he : e.Every Expr.Writable) (hbinary : e.isBinary = false)
    (hop : op ≠ .complement) (hunary : ∀ inner span, e ≠ .unary op inner span)
    (s : List Char) : (e.text.toList ++ s).head? ≠ op.symbol.toList.head? := by
  by_cases hsign : ∃ op' inner span, e = .unary op' inner span
  · obtain ⟨op', inner, span, rfl⟩ := hsign
    have hsame : op' ≠ op := fun heq => hunary inner span (heq ▸ rfl)
    have hhead : ((Expr.unary op' inner span).text.toList ++ s).head? =
        op'.symbol.toList.head? := by
      cases op' <;> simp [Expr.text, UnaryOperator.symbol]
    rw [hhead]
    revert hsame
    cases op <;> cases op' <;> decide
  · have hnone : ∀ op' inner span, e ≠ .unary op' inner span :=
      fun op' inner span heq => hsign ⟨op', inner, span, heq⟩
    obtain ⟨d, x, hx, hd⟩ := exists_head_ne_sign he hbinary hnone
    rw [hx]
    intro heq
    cases op with
    | plus =>
      obtain rfl : d = '+' := Option.some.inj heq
      exact hd (by decide)
    | minus =>
      obtain rfl : d = '-' := Option.some.inj heq
      exact hd (by decide)
    | complement => exact hop rfl

theorem unaryOperator?_plus (h : t.head? ≠ some '+') : unaryOperator? ('+' :: t) = some .plus := by
  cases t with
  | nil => rfl
  | cons d t =>
    have hd : d ≠ '+' := by simpa using h
    simp [unaryOperator?, hd]

theorem unaryOperator?_minus (h : t.head? ≠ some '-') :
    unaryOperator? ('-' :: t) = some .minus := by
  cases t with
  | nil => rfl
  | cons d t =>
    have hd : d ≠ '-' := by simpa using h
    simp [unaryOperator?, hd]

/-- A sign in front of an operand is read as an operator, because the operand does not start with
the same sign. -/
theorem unaryOperator?_text (he : (Expr.unary op operand span).Every Expr.Writable)
    (hbinary : operand.isBinary = false) (s : List Char) :
    unaryOperator? (op.symbol.toList ++ (operand.text.toList ++ s)) = some op := by
  obtain ⟨hsign, hoperand⟩ := Expr.Every.unary_iff.mp he
  have hhead (hop : op ≠ .complement) :=
    head?_text_ne hoperand hbinary hop (fun inner span h => hop (hsign inner span h)) s
  cases op with
  | complement => rfl
  | plus => exact unaryOperator?_plus (hhead (by decide))
  | minus => exact unaryOperator?_minus (hhead (by decide))

theorem readsOperand_unary (h : ReadsOperand operand)
    (he : (Expr.unary op operand span).Every Expr.Writable) (hbinary : operand.isBinary = false) :
    ReadsOperand (.unary op operand span) := by
  intro n w s hw hs hn
  have hoperator := unaryOperator?_text he hbinary s
  have hsplit : (Expr.unary op operand span).text.toList ++ s =
      op.symbol.toList ++ (operand.text.toList ++ s) := by
    simp [Expr.text]
  have hlength : op.symbol.toList.length = 1 := by cases op <;> rfl
  have hstops : Stops (op.symbol.toList ++ (operand.text.toList ++ s)) := by
    cases op <;> exact .cons (by decide)
  rw [hsplit] at hn ⊢
  have hoperand := h.reads_self (n := n)
    (m := (w ++ (op.symbol.toList ++ (operand.text.toList ++ s))).length) hs
    (by simp only [List.length_append] at hn ⊢; omega)
    (by simp only [List.length_append]; omega)
  have htake := Reads.take_append (t := operand.text.toList ++ s) op.symbol.toList
  rw [hlength] at htake
  refine .fix (.skip hw (.of_stops hstops (.offset_bind fun start => .ahead_bind ?_)))
  simp only [hoperator]
  refine htake.bind fun _ _ => hoperand.bind fun e he => ?_
  refine (reads_spanFrom start s).bind fun _ _ => .pure ?_
  rw [Expr.bare, Expr.bare, he]

/-! ## Expressions -/

/-- The text of an expression is read as it, up to what is behind it; one that is no binary
operation is an operand. -/
theorem readsOperations_of_every (hclimbs : e.Every Expr.Climbs)
    (hwritable : e.Every Expr.Writable) :
    ReadsOperations e ∧ (e.isBinary = false → ReadsOperand e) := by
  have of_operand {e : Expr} (h : ReadsOperand e) :
      ReadsOperations e ∧ (e.isBinary = false → ReadsOperand e) :=
    ⟨h.readsOperations, fun _ => h⟩
  induction e with
  | integer text span =>
    obtain ⟨c, c', hread⟩ := hwritable.self
    exact of_operand (readsOperand_integer (yields_integerLiteral _ _ _ hread))
  | character | unsupported => exact hwritable.self.elim
  | name segments span =>
    obtain ⟨first, others, rfl, hfirst, hothers⟩ := hwritable.self
    exact of_operand (readsOperand_name hfirst hothers)
  | unary op operand span ih =>
    obtain ⟨hbinary, hclimbs⟩ := Expr.Every.unary_iff.mp hclimbs
    have hoperand := (ih hclimbs (Expr.Every.unary_iff.mp hwritable).2).2 hbinary
    exact of_operand (readsOperand_unary hoperand hwritable hbinary)
  | binary op left right span ihl ihr =>
    obtain ⟨hbinds, hcleft, hcright⟩ := Expr.Every.binary_iff.mp hclimbs
    obtain ⟨-, hwleft, hwright⟩ := Expr.Every.binary_iff.mp hwritable
    refine ⟨?_, fun h => by cases h⟩
    exact readsOperations_binary (ihl hcleft hwleft).1 (ihr hcright hwright).1 hwright hbinds
  | parenthesized inner span ih =>
    obtain ⟨-, hclimbs⟩ := Expr.Every.parenthesized_iff.mp hclimbs
    obtain ⟨hlone, hwritable⟩ := Expr.Every.parenthesized_iff.mp hwritable
    exact of_operand (readsOperand_parenthesized (ih hclimbs hwritable).1 hwritable hlone)
  | cast type operand span ih =>
    obtain ⟨hbinary, hclimbs⟩ := Expr.Every.cast_iff.mp hclimbs
    have hoperand := (ih hclimbs (Expr.Every.cast_iff.mp hwritable).2).2 hbinary
    exact of_operand (readsOperand_cast hoperand hwritable)
  | overflowContext isChecked inner span ih =>
    obtain ⟨-, hclimbs⟩ := Expr.Every.overflowContext_iff.mp hclimbs
    obtain ⟨-, hwritable⟩ := Expr.Every.overflowContext_iff.mp hwritable
    exact of_operand (readsOperand_overflowContext (ih hclimbs hwritable).1)

/-- The text of an expression is read as it. -/
theorem reads_constantExpr_text (hclimbs : e.Every Expr.Climbs)
    (hwritable : e.Every Expr.Writable) :
    Reads constantExpr e.text.toList [] (·.bare = e.bare) := by
  have hreads := (readsOperations_of_every hclimbs hwritable).1.reads .nil .nil e.binds_zero
    (stopped_nil 0)
  rwa [List.nil_append, List.append_nil] at hreads

/-- Every tree of a constant expression has the shape that precedence dictates. From the text of a
tree of this shape, if its parts are ones that their texts stand for, the tree is read again, and
nothing is left of the text. -/
theorem constantExpr_by_precedence (e : Expr) :
    (∀ c c', constantExpr c = .ok (e, c') → e.Every Expr.Climbs) ∧
      (e.Every Expr.Climbs → e.Every Expr.Writable →
        Reads constantExpr e.text.toList [] (·.bare = e.bare)) := by
  refine ⟨fun c c' hread => ?_, reads_constantExpr_text⟩
  exact climbs_constantExpr c e c' hread

/-- A cast of a negative number, a name, and operators of three precedences. -/
def shiftedSum : Expr :=
  .binary .shiftLeft
    (.binary .add (.cast (.predefined "int" ⟨0, 3⟩) (.unary .minus (.integer "1" default) default)
      default) (.binary .multiply (.name [⟨"A", default⟩, ⟨"B", default⟩] default)
        (.parenthesized (.name [⟨"C", default⟩] default) default) default) default)
    (.integer "2" default) default

theorem constantExpr_by_precedence_shiftedSum :
    shiftedSum.text = "(int)-1 + A.B * (C) << 2" ∧ shiftedSum.Every Expr.Climbs ∧
      shiftedSum.Every Expr.Writable ∧
      ∃ e c, constantExpr ⟨0, "(int)-1 + A.B * (C) << 2".toList⟩ = .ok (e, c) ∧ c.rest = [] ∧
        e.bare = shiftedSum.bare ∧ e.Every Expr.Climbs := by
  have htext : shiftedSum.text = "(int)-1 + A.B * (C) << 2" := by decide
  have hclimbs : shiftedSum.Every Expr.Climbs := by decide
  have hint : ∃ c c', typeExpr c = .ok (.predefined "int" ⟨0, 3⟩, c') :=
    ⟨⟨0, "int".toList⟩, ⟨3, []⟩, by with_unfolding_all rfl⟩
  have hone : ∃ c c', integerLiteral c = .ok ("1", c') := ⟨⟨0, ['1']⟩, ⟨1, []⟩, rfl⟩
  have htwo : ∃ c c', integerLiteral c = .ok ("2", c') := ⟨⟨0, ['2']⟩, ⟨1, []⟩, rfl⟩
  have hA : IsIdentifier "A".toList := .inl (by decide)
  have hB : ∀ i ∈ [(⟨"B", default⟩ : Identifier)], IsIdentifier i.text.toList := by
    intro i hi
    cases List.mem_singleton.mp hi
    exact .inl (by decide)
  have hC : IsIdentifier "C".toList := .inl (by decide)
  have hlone : isPredefinedType "C" = false := by decide
  have hwritable : shiftedSum.Every Expr.Writable := by
    simp only [shiftedSum, Expr.Every.binary_iff, Expr.Every.cast_iff, Expr.Every.unary_iff,
      Expr.Every.parenthesized_iff]
    refine ⟨trivial, ⟨trivial, ⟨⟨hint, by rintro ⟨⟩⟩, by rintro _ _ ⟨⟩, .of_parts_eq rfl hone⟩,
      trivial, .of_parts_eq rfl ⟨_, _, rfl, .inl hA, hB⟩, ?_, ?_⟩, .of_parts_eq rfl htwo⟩
    · rintro _ _ ⟨⟩
      exact hlone
    · exact .of_parts_eq rfl ⟨_, _, rfl, .inl hC, by simp⟩
  obtain ⟨e, o, hread, hbare⟩ := (constantExpr_by_precedence shiftedSum).2 hclimbs hwritable 0
  rw [htext] at hread
  exact ⟨htext, hclimbs, hwritable, e, _, hread, rfl, hbare,
    (constantExpr_by_precedence e).1 _ _ hread⟩

end DeclGen.Grammar
