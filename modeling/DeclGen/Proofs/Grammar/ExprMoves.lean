import DeclGen.Grammar.Expr
import DeclGen.Proofs.Grammar.TypeMoves

/-!
# Constant expressions go forward

An operand is read behind a sign, a bracket or an operator, and the parser of unary expressions
calls itself inside the parser of binary ones, which calls itself in turn. Both do so only where
something was read.

## Main statements

* `agree_unaryExprOf`, `agree_binaryExprOf`: what the two parsers do between calls of themselves
* `moves_operation?`: an operator and its operand
* `moves_binaryExpr`, `moves_initializerExpr`: expressions go forward
-/

namespace DeclGen.Grammar

open DeclGen.Grammar.Parser DeclGen.Text

variable {text : List Char} {o : Nat}

/-! ## Literals -/

theorem moves_digitsAfter {lower upper : String} (hlower : lower ≠ "") (hupper : upper ≠ "")
    (p : Char → Bool) : Moves text o (digitsAfter lower upper p) fun _ o' => o < o' := by
  refine ((moves_literal hlower).orElse (moves_literal hupper)).bind fun _ o₁ _ hlt => ?_
  refine .ahead_bind fun s _ => ?_
  split
  next => exact .fail
  next n _ => exact (Moves.take _).bind fun _ _ hle _ => .pure (Nat.lt_of_lt_of_le hlt hle)

theorem moves_decimalDigits : Moves text o decimalDigits fun _ o' => o < o' := by
  refine .ahead_bind fun s hs => ?_
  split
  next c s =>
    split
    next => exact (Moves.take_succ hs _).bind fun _ _ _ hlt => .pure hlt
    next => exact .fail
  next => exact .fail

theorem moves_integerToken : Moves text o integerToken fun _ o' => o < o' := by
  have hdigits : Moves text o (orElse (digitsAfter "0x" "0X" fun c => isHexDigit c || c == '_')
      (orElse (digitsAfter "0b" "0B" fun c => c == '0' || c == '1' || c == '_') decimalDigits))
      fun _ o' => o < o' :=
    (moves_digitsAfter (by decide) (by decide) _).orElse
      ((moves_digitsAfter (by decide) (by decide) _).orElse moves_decimalDigits)
  refine hdigits.bind fun _ o₁ _ hlt => .ahead_bind fun s _ => ?_
  exact (Moves.take _).bind fun _ _ hle _ => .pure (Nat.lt_of_lt_of_le hlt hle)

theorem moves_integerLiteral : Moves text o integerLiteral fun _ o' => o < o' := by
  refine .place_bind fun s hstart => moves_integerToken.withText.bind fun r o₁ _ hr => ?_
  have hlt := hr.1
  refine .ahead_bind fun t _ => ?_
  split
  next c t _ =>
    cases isAlphanumeric c || c == '_' || c == '.' with
    | false => exact .pure hlt
    | true => exact fun _ _ => ⟨rfl, hstart⟩
  next => exact .pure hlt

theorem moves_characterLiteral : Moves text o characterLiteral fun _ o' => o < o' := by
  refine .ahead_bind fun s hs => ?_
  split
  next s =>
    split
    next value n _ =>
      split
      next => exact (Moves.take_succ hs (n + 1)).bind fun _ _ _ hlt => .pure hlt
      next => exact .fail
    next => exact .fail
  next => exact .fail

/-! ## Operands -/

theorem agree_inParentheses {expr expr' : Parser Expr} (hexpr : Further text o expr expr') :
    Agree text o (inParentheses expr) (inParentheses expr') fun _ o' => o < o' := by
  refine (moves_symbol (by decide)).bind fun _ o₁ _ hlt => ?_
  refine (hexpr o₁ hlt).bind fun inner o₂ hle _ => ?_
  exact (moves_symbol (by decide)).label.bind fun _ o₃ hle' _ => .pure (by omega)

theorem moves_nameHead : Moves text o nameHead fun _ o' => o < o' := by
  refine moves_identifier.attempt.bind fun r o₁ hle hr => ?_
  cases r with
  | some name => exact .pure (hr name rfl)
  | none =>
    refine .offset_bind fun hstart => moves_word.attempt.bind fun r o₂ _ hr => ?_
    cases r with
    | none => exact .failAt hstart _
    | some found =>
      have hlt := hr found rfl
      dsimp only
      split
      next => exact (moves_spanFrom _).bind fun _ _ hle' _ => .pure (by omega)
      next => exact .failAt hstart _

theorem moves_namePart? : Moves text o namePart? fun r o' => ∀ i, r = some i → o < o' := by
  refine (moves_accept (by decide)).bind fun isDot o₁ _ hdot => ?_
  split
  next hb =>
    refine moves_identifier.label.bind fun i o₂ _ hlt => .pure fun _ _ => ?_
    exact Nat.lt_trans (hdot hb) hlt
  next => exact .pure fun _ h => nomatch h

theorem moves_nameExpr : Moves text o nameExpr fun _ o' => o < o' := by
  refine .offset_bind fun _ => moves_nameHead.bind fun first o₁ _ hlt => ?_
  refine (moves_accept (by decide)).bind fun isAliased o₂ hle₂ _ => ?_
  have hhead : Moves text o₂ (if isAliased then label "a name" identifier else pure first)
      fun _ _ => True := by
    split
    next => exact moves_identifier.label.trivial
    next => exact .pure True.intro
  have hothers (o₃ : Nat) : Moves text o₃ (many namePart?) fun _ _ => True :=
    .many fun _ _ => moves_namePart?
  refine hhead.ite_bind fun head o₃ hle₃ _ => (hothers o₃).bind fun others o₄ hle₄ _ => ?_
  exact (moves_spanFrom _).bind fun _ o₅ hle₅ _ => .pure (by omega)

/-- `expr` is only called behind a parenthesis, so it need not agree at `o` itself. -/
theorem agree_primaryExpr {expr expr' : Parser Expr} (hexpr : Further text o expr expr') :
    Agree text o (primaryExpr expr) (primaryExpr expr') fun _ o' => o < o' := by
  refine .offset_bind fun _ => .ahead_bind fun s _ => ?_
  split
  next s =>
    refine moves_characterLiteral.label.bind fun value o₁ _ hlt => ?_
    exact (moves_spanFrom _).bind fun _ _ hle _ => .pure (Nat.lt_of_lt_of_le hlt hle)
  next c s _ =>
    split
    next =>
      refine moves_integerLiteral.label.bind fun value o₁ _ hlt => ?_
      exact (moves_spanFrom _).bind fun _ _ hle _ => .pure (Nat.lt_of_lt_of_le hlt hle)
    next =>
      have hchecked (isChecked : Bool) : Agree text o
          (do
            let _ ← word
            return Expr.overflowContext isChecked (← inParentheses expr) (← spanFrom o))
          (do
            let _ ← word
            return Expr.overflowContext isChecked (← inParentheses expr') (← spanFrom o))
          fun _ o' => o < o' := by
        refine moves_word.bind fun _ o₁ hle _ => ?_
        refine (agree_inParentheses (hexpr.mono hle)).bind fun inner o₂ _ hlt => ?_
        exact (moves_spanFrom _).bind fun _ o₃ hle' _ => .pure (by omega)
      refine moves_word.lookahead.bind fun found o₁ _ hsame => ?_
      subst hsame
      split
      next => exact hchecked true
      next => exact hchecked false
      next => exact moves_nameExpr
  next => exact moves_nameExpr

theorem moves_castType : Moves text o castType fun _ o' => o < o' := by
  refine (moves_symbol (by decide)).bind fun _ o₁ _ hlt => ?_
  refine moves_typeExpr.bind fun type o₂ hle₂ _ => ?_
  refine (moves_symbol (by decide)).bind fun _ o₃ hle₃ _ => ?_
  have hoperand : Moves text o₃ (do trivia; ahead) fun _ _ => True :=
    moves_trivia.bind fun _ _ _ _ => Moves.ahead.trivial
  refine hoperand.lookahead.bind fun operand o₄ hle₄ _ => ?_
  split
  next => exact .pure (by omega)
  next => exact .fail

theorem agree_castExpr {unary unary' : Parser Expr} (hunary : Further text o unary unary') :
    Agree text o (castExpr unary) (castExpr unary') fun _ o' => o < o' := by
  refine .offset_bind fun _ => moves_castType.bind fun type o₁ _ hlt => ?_
  refine (hunary o₁ hlt).bind fun operand o₂ hle₂ _ => ?_
  exact (moves_spanFrom _).bind fun _ o₃ hle₃ _ => .pure (by omega)

/-- `self` is only called behind an operator or the type of a cast, so it need not agree at `o`
itself. -/
theorem agree_unaryExprOf {expr expr' self self' : Parser Expr} (hexpr : Further text o expr expr')
    (hself : Further text o self self') :
    Agree text o (unaryExprOf expr self) (unaryExprOf expr' self') fun _ o' => o < o' := by
  refine moves_trivia.bind fun _ o₁ hle₁ _ => .offset_bind fun _ => .ahead_bind fun s hs => ?_
  split
  next op hop =>
    cases s with
    | nil => cases hop
    | cons c s =>
      refine (Moves.take_succ hs 0).bind fun _ o₂ _ hlt => ?_
      refine (hself o₂ (Nat.lt_of_le_of_lt hle₁ hlt)).bind fun operand o₃ hle₃ _ => ?_
      exact (moves_spanFrom _).bind fun _ o₄ hle₄ _ => .pure (by omega)
  next =>
    split
    next =>
      refine (agree_castExpr (hself.mono hle₁)).attempt.bind fun r o₂ hle₂ hr => ?_
      cases r with
      | some e =>
        have := hr e rfl
        exact .pure (by omega)
      | none =>
        refine (agree_inParentheses (hexpr.mono (by omega))).bind fun inner o₃ _ hlt => ?_
        exact (moves_spanFrom _).bind fun _ o₄ hle₄ _ => .pure (by omega)
    next =>
      exact (agree_primaryExpr (hexpr.mono hle₁)).mono fun _ _ _ hlt => Nat.lt_of_le_of_lt hle₁ hlt

theorem agree_unaryExpr {expr expr' : Parser Expr} (hexpr : Further text o expr expr') :
    Agree text o (unaryExpr expr) (unaryExpr expr') fun _ o' => o < o' :=
  Agree.fix (R := fun _ o₁ _ o₂ => o₁ < o₂)
    (fun _ ho₁ _ _ hself _ =>
      agree_unaryExprOf (hexpr.mono ho₁) fun o₂ ho₂ => hself () o₂ ho₂) ()

/-! ## Operators -/

/-- An operator has at least one character. -/
theorem exists_of_binaryOperator? {s : List Char} {op : BinaryOperator} {n : Nat}
    (h : binaryOperator? s = some (op, n)) : ∃ c t m, s = c :: t ∧ n = m + 1 := by
  simp only [binaryOperator?, Option.filter_eq_some_iff] at h
  obtain ⟨h, -⟩ := h
  split at h <;> cases h <;> exact ⟨_, _, _, rfl, rfl⟩

theorem moves_operatorFrom (least : Nat) :
    Moves text o (operatorFrom least) fun _ o' => o < o' := by
  refine moves_trivia.bind fun _ o₁ hle _ => .ahead_bind fun s hs => ?_
  split
  next op n hop =>
    split
    next => exact .fail
    next =>
      obtain ⟨c, t, m, rfl, rfl⟩ := exists_of_binaryOperator? hop
      refine (Moves.take_succ hs m).bind fun _ o₂ _ hlt => .pure ?_
      exact Nat.lt_of_le_of_lt hle hlt
  next => exact .fail

variable {self self' : Nat → Parser Expr}

theorem agree_operation? (hself : ∀ least, Further text o (self least) (self' least))
    (least : Nat) :
    Agree text o (operation? self least) (operation? self' least)
      fun r o' => ∀ x, r = some x → o < o' := by
  refine (moves_operatorFrom least).attempt.bind fun r o₁ _ hr => ?_
  cases r with
  | none => exact .pure fun _ h => nomatch h
  | some op =>
    have hlt := hr op rfl
    refine (hself _ o₁ hlt).bind fun operand o₂ hle _ => .pure fun _ _ => ?_
    exact Nat.lt_of_lt_of_le hlt hle

theorem agree_binaryExprOf (hself : ∀ least, Further text o (self least) (self' least))
    (least : Nat) :
    Agree text o (binaryExprOf self least) (binaryExprOf self' least) fun _ o' => o < o' := by
  refine (agree_unaryExpr (hself 0)).bind fun first o₁ _ hlt => ?_
  have hothers : Agree text o₁ (many (operation? self least)) (many (operation? self' least))
      fun _ _ => True :=
    .many fun o₂ ho₂ => agree_operation? (fun l => (hself l).mono (by omega)) least
  exact hothers.bind fun others o₂ hle _ => .pure (Nat.lt_of_lt_of_le hlt hle)

theorem moves_binaryExpr (least : Nat) : Moves text o (binaryExpr least) fun _ o' => o < o' :=
  Agree.fix (R := fun _ o₁ _ o₂ => o₁ < o₂)
    (fun _ _ _ _ hself least => agree_binaryExprOf (fun l o₂ ho₂ => hself l o₂ ho₂) least) least

theorem moves_operation? (least : Nat) :
    Moves text o (operation? binaryExpr least) fun r o' => ∀ x, r = some x → o < o' :=
  agree_operation? (fun l _ _ => moves_binaryExpr l) least

theorem moves_closedExpr : Moves text o closedExpr fun _ o' => o < o' := by
  have hahead (o₁ : Nat) : Moves text o₁ (do trivia; ahead) fun _ _ => True :=
    moves_trivia.bind fun _ _ _ _ => Moves.ahead.trivial
  refine (moves_binaryExpr 0).bind fun e o₁ _ hlt => ?_
  refine (hahead o₁).lookahead.bind fun next o₂ hle _ => ?_
  have hlt' : o < o₂ := Nat.lt_of_lt_of_le hlt hle
  split
  next => exact .pure hlt'
  next => exact .pure hlt'
  next => exact .fail

theorem moves_initializerExpr : Moves text o initializerExpr fun _ _ => True := by
  refine moves_closedExpr.attempt.bind fun r o₁ _ _ => ?_
  cases r with
  | some e => exact .pure True.intro
  | none =>
    refine moves_trivia.bind fun _ o₂ _ _ => .offset_bind fun hstart => ?_
    refine (moves_takeUntil _).label.bind fun x o₃ _ _ => ?_
    dsimp only
    split
    next => exact .failAt hstart _
    next => exact .pure True.intro

end DeclGen.Grammar
