import DeclGen.Grammar.Expr
import DeclGen.Proofs.Grammar.TypeSpans

/-!
# Spans of expressions

An operand stands inside the expression it belongs to, and the two operands of a binary operator one
behind the other. What is kept as text stands in the source as it is kept.

## Main statements

* `spans_constantExpr`, `spans_initializerExpr`
-/

namespace DeclGen.Grammar

open DeclGen.Grammar.Parser DeclGen.Text

variable {text : List Char}

/-! ## Literals -/

theorem advances_digitsAfter (lower upper : String) (p : Char → Bool) :
    Advances (digitsAfter lower upper p) := by
  refine .bind (.orElse (advances_literal _) (advances_literal _)) fun _ => .bind .ahead fun s => ?_
  split
  next => exact .fail
  next => exact .bind (.take _) fun _ => .pure _

theorem advances_decimalDigits : Advances decimalDigits := by
  refine .bind .ahead fun s => ?_
  split
  next =>
    split
    next => exact .bind (.take _) fun _ => .pure _
    next => exact .fail
  next => exact .fail

theorem advances_integerToken : Advances integerToken :=
  .bind (.orElse (advances_digitsAfter _ _ _)
    (.orElse (advances_digitsAfter _ _ _) advances_decimalDigits)) fun _ =>
    .bind .ahead fun _ => .bind (.take _) fun _ => .pure _

theorem tracks_integerLiteral {o : Nat} :
    Tracks text o integerLiteral fun t o' => Spells text o o' t.toList := by
  refine .place_bind fun start => (advances_integerToken text o).withText.bind fun r o₁ _ hr => ?_
  obtain ⟨⟨⟩, x⟩ := r
  have hx : Spells text o o₁ (String.ofList x).toList := by
    rw [String.toList_ofList]
    exact hr.2
  refine .ahead_bind fun s _ => ?_
  split
  next c _ _ =>
    cases isAlphanumeric c || c == '_' || c == '.' with
    | false => exact .pure hx
    | true => rintro _ _ _ _ ⟨⟩
  next => exact .pure hx

theorem advances_characterLiteral : Advances characterLiteral := by
  refine .bind .ahead fun s => ?_
  split
  next =>
    split
    next =>
      split
      next => exact .bind (.take _) fun _ => .pure _
      next => exact .fail
    next => exact .fail
  next => exact .fail

/-! ## Names -/

theorem spans_nameHead : Spans text nameHead fun i => [i.spanTree] := by
  refine fun o => (Tracks.attempt (spans_identifier o)).bind fun r o₁ _ hr => ?_
  cases r with
  | some name => exact .pure hr
  | none =>
    obtain rfl : o₁ = o := hr
    refine .offset_bind fun _ => tracks_word.attempt.bind fun r o₂ _ hr => ?_
    cases r with
    | none => exact .failAt _ _
    | some found =>
      dsimp only
      split
      next =>
        refine .spanFrom_bind fun _ => .pure ?_
        exact .singleton (Spells.exact hr) (Nat.le_refl _) (Nat.le_refl _)
      next => exact .failAt _ _

theorem spans_nameExpr : Spans text nameExpr fun e => [e.spanTree] := by
  refine fun start => .offset_bind fun hlo => ?_
  refine (spans_nameHead start).bind fun first o₁ _ hfirst => ?_
  refine .skip (advances_accept "::") fun isAliased o₂ hle₂ => ?_
  have hrest {head : Identifier} {o₃ : Nat} (hhead : Stand text start [head.spanTree] o₃) :
      Tracks text o₃ (do
        let others ← many do
          if ← accept "." then return some (← label "member name" identifier) else return none
        return Expr.name (head :: others) (← spanFrom start))
        fun e o' => Stand text start [e.spanTree] o' := by
    have htail : Spans text (many do
        if ← accept "." then return some (← label "member name" identifier) else return none)
        fun is => is.map (·.spanTree) := by
      refine .of_map (.many fun o => .skip (advances_accept ".") fun isDot o₄ hle => ?_)
      split
      next =>
        exact (spans_identifier.label o₄).bind fun i o₅ _ hi => .pure (hi.mono hle (Nat.le_refl _))
      next => exact .pure (.nil hle)
    refine (htail o₃).bind fun others o₄ _ hothers => .spanFrom_bind fun hhi => .pure ?_
    exact .singleton ((hhead.append hothers).node hlo hhi) (Nat.le_refl _) (Nat.le_refl _)
  cases isAliased with
  | false => exact hrest (hfirst.mono (Nat.le_refl _) hle₂)
  | true =>
    refine (spans_identifier.label o₂).bind fun head o₃ _ hhead => ?_
    exact hrest (hhead.mono (Nat.le_trans hfirst.le hle₂) (Nat.le_refl _))

/-! ## Operands -/

theorem spans_castType : Spans text castType fun t => [t.spanTree] := by
  refine fun o => .skip (advances_symbol "(") fun _ o₁ hle₁ => ?_
  refine (spans_typeExpr o₁).bind fun t o₂ _ ht => .skip (advances_symbol ")") fun _ o₃ hle₃ => ?_
  refine .skip .lookahead fun operand o₄ hle₄ => ?_
  split
  next => exact .pure (ht.mono hle₁ (Nat.le_trans hle₃ hle₄))
  next => exact .fail

section

variable {expr : Parser Expr} (hexpr : Spans text expr fun e => [e.spanTree])

include hexpr

theorem spans_inParentheses : Spans text (inParentheses expr) fun e => [e.spanTree] := by
  refine fun o => .skip (advances_symbol "(") fun _ o₁ hle₁ => ?_
  refine (hexpr o₁).bind fun inner o₂ _ hinner => ?_
  exact .skip (advances_symbol ")").label fun _ o₃ hle₃ => .pure (hinner.mono hle₁ hle₃)

theorem spans_primaryExpr : Spans text (primaryExpr expr) fun e => [e.spanTree] := by
  intro start
  have hchecked {o : Nat} (hlo : IsBoundary text start) (hle : start ≤ o) (isChecked : Bool) :
      Tracks text o (do
        let _ ← word
        return Expr.overflowContext isChecked (← inParentheses expr) (← spanFrom start))
        fun e o' => Stand text start [e.spanTree] o' := by
    refine .skip advances_word fun _ o₁ hle₁ => ?_
    refine (spans_inParentheses hexpr o₁).bind fun inner o₂ _ hinner => ?_
    refine .spanFrom_bind fun hhi => .pure ?_
    have hstand := hinner.mono (Nat.le_trans hle hle₁) (Nat.le_refl _)
    exact .singleton (hstand.node hlo hhi) (Nat.le_refl _) (Nat.le_refl _)
  refine .offset_bind fun hlo => .ahead_bind fun s _ => ?_
  split
  next =>
    refine .skip advances_characterLiteral.label fun c o₁ hle => .spanFrom_bind fun hhi => .pure ?_
    exact .singleton ((Stand.nil hle).node hlo hhi) (Nat.le_refl _) (Nat.le_refl _)
  next c s =>
    split
    next =>
      refine tracks_integerLiteral.label.bind fun t o₁ _ ht => .spanFrom_bind fun _ => .pure ?_
      exact .singleton ht.exact (Nat.le_refl _) (Nat.le_refl _)
    next =>
      refine (Tracks.lookahead word).bind fun next o₁ hle hsame => ?_
      obtain rfl : o₁ = start := hsame
      split
      next => exact hchecked hlo hle true
      next => exact hchecked hlo hle false
      next => exact spans_nameExpr o₁
  next => exact spans_nameExpr start

theorem spans_castExpr : Spans text (castExpr expr) fun e => [e.spanTree] := by
  refine fun start => .offset_bind fun hlo => (spans_castType start).bind fun t o₁ _ ht => ?_
  refine (hexpr o₁).bind fun operand o₂ _ hoperand => .spanFrom_bind fun hhi => .pure ?_
  exact .singleton ((ht.append hoperand).node hlo hhi) (Nat.le_refl _) (Nat.le_refl _)

theorem spans_unaryExprOf {self : Parser Expr} (hself : Spans text self fun e => [e.spanTree]) :
    Spans text (unaryExprOf expr self) fun e => [e.spanTree] := by
  refine fun o => .skip advances_trivia fun _ start hstart => .offset_bind fun hlo => ?_
  refine .ahead_bind fun s _ => ?_
  split
  next op _ =>
    refine .skip (.take 1) fun _ o₁ hle₁ => (hself o₁).bind fun operand o₂ _ hoperand => ?_
    refine .spanFrom_bind fun hhi => .pure ?_
    have hstand := hoperand.mono hle₁ (Nat.le_refl _)
    exact .singleton (hstand.node hlo hhi) hstart (Nat.le_refl _)
  next =>
    split
    next =>
      refine (Tracks.attempt (spans_castExpr hself start)).bind fun r o₁ hle₁ hr => ?_
      cases r with
      | some e => exact .pure (hr.mono hstart (Nat.le_refl _))
      | none =>
        refine (spans_inParentheses hexpr o₁).bind fun inner o₂ _ hinner => ?_
        refine .spanFrom_bind fun hhi => .pure ?_
        have hstand := hinner.mono hle₁ (Nat.le_refl _)
        exact .singleton (hstand.node hlo hhi) hstart (Nat.le_refl _)
    next =>
      exact (spans_primaryExpr hexpr start).mono fun e o' _ he => he.mono hstart (Nat.le_refl _)

theorem spans_unaryExpr : Spans text (unaryExpr expr) fun e => [e.spanTree] :=
  .fix (fun _ hself _ => spans_unaryExprOf hexpr (hself ())) ()

end

/-! ## Binary expressions -/

theorem advances_operatorFrom (least : Nat) : Advances (operatorFrom least) := by
  refine .bind advances_trivia fun _ => .bind .ahead fun s => ?_
  split
  next =>
    split
    next => exact .fail
    next => exact .bind (.take _) fun _ => .pure _
  next => exact .fail

/-- Operands that stand one behind the other make an exact expression. -/
theorem stand_foldl_combine {lo mid hi : Nat} {others : List (BinaryOperator × Expr)} {e : Expr}
    (he : Stand text lo [e.spanTree] mid)
    (hothers : Stand text mid (others.flatMap fun r => [r.2.spanTree]) hi) :
    Stand text lo [(others.foldl Expr.combine e).spanTree] hi := by
  induction others generalizing e mid with
  | nil => exact he.mono (Nat.le_refl _) hothers.le
  | cons r others ih =>
    cases hothers with
    | cons hle hr hrest =>
      refine ih ?_ hrest
      obtain ⟨op, right⟩ := r
      have hleft := he.exact e.spanTree (by simp)
      have hboth := (he.append (.singleton hr hle (Nat.le_refl _))).tighten_left
      have hnode := hboth.node hleft.isBoundary_start hr.isBoundary_stop
      have hinside := (he.inside e.spanTree (by simp)).1
      simp only [Expr.span_spanTree] at hnode hinside ⊢
      exact .singleton hnode hinside (Nat.le_refl _)

theorem spans_binaryExprOf {self : Nat → Parser Expr}
    (hself : ∀ least, Spans text (self least) fun e => [e.spanTree]) (least : Nat) :
    Spans text (binaryExprOf self least) fun e => [e.spanTree] := by
  refine fun o => (spans_unaryExpr (hself 0) o).bind fun first o₁ _ hfirst => ?_
  have hothers : Spans text (many (operation? self least)) fun rs =>
      rs.flatMap fun r => [r.2.spanTree] := by
    refine .many fun o => .skip (advances_operatorFrom least).attempt fun op? o₂ hle => ?_
    split
    next op =>
      exact (hself _ o₂).bind fun right o₃ _ hright => .pure (hright.mono hle (Nat.le_refl _))
    next => exact .pure (.nil hle)
  exact (hothers o₁).bind fun others o₂ _ hothers => .pure (stand_foldl_combine hfirst hothers)

theorem spans_constantExpr : Spans text constantExpr fun e => [e.spanTree] :=
  .fix (fun _ hself least => spans_binaryExprOf hself least) 0

/-! ## Initializers -/

theorem spans_closedExpr : Spans text closedExpr fun e => [e.spanTree] := by
  refine fun o => (spans_constantExpr o).bind fun e o₁ _ he => ?_
  refine .skip .lookahead fun next o₂ hle => ?_
  split
  next => exact .pure (he.mono (Nat.le_refl _) hle)
  next => exact .pure (he.mono (Nat.le_refl _) hle)
  next => exact .fail

theorem spans_initializerExpr : Spans text initializerExpr fun e => [e.spanTree] := by
  refine fun o => (Tracks.attempt (spans_closedExpr o)).bind fun r o₁ hle₁ hr => ?_
  cases r with
  | some e => exact .pure hr
  | none =>
    refine .skip advances_trivia fun _ start hstart => .offset_bind fun _ => ?_
    refine (tracks_takeUntil _).label.bind fun x o₂ _ hx => ?_
    obtain ⟨hspells, hle⟩ := hx.trimEnd
    dsimp only
    split
    next => exact .failAt _ _
    next =>
      refine .pure (.singleton (Spells.exact ?_) (Nat.le_trans hle₁ hstart) hle)
      rwa [String.toList_ofList]

end DeclGen.Grammar
