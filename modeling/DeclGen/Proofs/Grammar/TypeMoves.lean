import DeclGen.Grammar.TypeExpr
import DeclGen.Proofs.Grammar.TokenMoves

/-!
# Types go forward

A type occurs in a type only behind a bracket, so the parser of types calls itself only where
something was read. For each production this is said of two parsers of the types in it that agree
further on.

## Main statements

* `agree_suffixedType`: what the parser of types does between two calls of itself
* `moves_typeExpr`, `moves_typeArguments`, `moves_typeParameters?`: types go forward
-/

namespace DeclGen.Grammar

open DeclGen.Grammar.Parser DeclGen.Text

variable {text : List Char} {o : Nat} {self self' : Parser TypeExpr}

theorem moves_predefinedType : Moves text o predefinedType fun _ o' => o < o' := by
  refine .offset_bind fun hstart => moves_word.bind fun name o₁ _ hlt => ?_
  split
  next => exact (moves_spanFrom _).bind fun _ _ hle _ => .pure (Nat.lt_of_lt_of_le hlt hle)
  next => exact .failAt hstart _

theorem agree_typeArgumentsOf (hself : Further text o self self') :
    Agree text o (typeArgumentsOf self) (typeArgumentsOf self') fun _ o' => o < o' := by
  refine (moves_symbol (by decide)).bind fun _ o₁ _ hlt => ?_
  have harguments : Agree text o₁ (sepBy self (accept ",")) (sepBy self' (accept ","))
      fun _ o' => o₁ < o' :=
    .sepBy (fun o₂ ho₂ => hself o₂ (Nat.lt_of_lt_of_le hlt ho₂))
      fun _ _ => (moves_accept (by decide)).trivial
  refine harguments.bind fun arguments o₂ hle _ => ?_
  refine (moves_symbol (by decide)).label.bind fun _ o₃ hle' _ => .pure ?_
  omega

theorem agree_optionalTypeArguments (hself : Further text o self self') :
    Agree text o (optionalTypeArguments self) (optionalTypeArguments self') fun _ _ => True :=
  (agree_typeArgumentsOf hself).attempt.bind fun _ _ _ _ => .pure True.intro

theorem moves_dottedIdentifier : Moves text o dottedIdentifier fun _ o' => o < o' :=
  (moves_symbol (by decide)).bind fun _ _ _ hlt =>
    moves_identifier.mono fun _ _ hle _ => Nat.lt_of_lt_of_le hlt hle

theorem agree_segment? (hself : Further text o self self') :
    Agree text o (segment? self) (segment? self') fun r o' => ∀ s, r = some s → o < o' := by
  refine moves_dottedIdentifier.attempt.bind fun name o₁ hle hname => ?_
  cases name with
  | none => exact .pure fun _ h => nomatch h
  | some name =>
    refine (agree_optionalTypeArguments (hself.mono hle)).bind fun _ o₂ hle' _ => ?_
    exact .pure fun _ _ => Nat.lt_of_lt_of_le (hname name rfl) hle'

theorem agree_segmentTail (hself : Further text o self self') :
    Agree text o (segmentTail self) (segmentTail self') fun _ _ => True :=
  .many fun _ ho₁ => agree_segment? (hself.mono ho₁)

/-- Type arguments are read behind an angle bracket, so `self` need not agree at `o` itself. -/
theorem agree_namedTypeOf (hself : Further text o self self') :
    Agree text o (namedTypeOf self) (namedTypeOf self') fun _ o' => o < o' := by
  refine moves_trivia.bind fun _ o₁ hle₁ _ => .offset_bind fun _ => ?_
  refine moves_identifier.label.bind fun first o₂ _ hlt => ?_
  refine (moves_accept (by decide)).bind fun isAliased o₃ hle₃ _ => ?_
  have hhead : Moves text o₃ (if isAliased then label "a type" identifier else pure first)
      fun _ _ => True := by
    split
    next => exact moves_identifier.label.trivial
    next => exact .pure True.intro
  refine hhead.ite_bind fun head o₄ hle₄ _ => ?_
  refine (agree_optionalTypeArguments (hself.mono (by omega))).bind fun arguments o₅ hle₅ _ => ?_
  refine (agree_segmentTail (hself.mono (by omega))).bind fun others o₆ hle₆ _ => ?_
  refine (moves_spanFrom _).bind fun _ o₇ hle₇ _ => .pure ?_
  omega

theorem agree_tupleElement (hself : Further text o self self') {o₁ : Nat} (hlt : o < o₁) :
    Agree text o₁ (tupleElement self) (tupleElement self') fun _ o' => o₁ < o' :=
  (hself o₁ hlt).bind fun _ _ _ hlt' =>
    moves_identifier.attempt.bind fun _ _ hle _ => .pure (Nat.lt_of_lt_of_le hlt' hle)

/-- The elements are read behind a parenthesis, so `self` need not agree at `o` itself. -/
theorem agree_tupleType (hself : Further text o self self') :
    Agree text o (tupleType self) (tupleType self') fun _ o' => o < o' := by
  refine .offset_bind fun _ => (moves_symbol (by decide)).bind fun _ o₁ _ hlt => ?_
  refine .offset_bind fun hfirst => ?_
  have helements : Agree text o₁ (sepBy (tupleElement self) (accept ","))
      (sepBy (tupleElement self') (accept ",")) fun _ o' => o₁ < o' :=
    .sepBy (fun o₂ ho₂ => agree_tupleElement hself (Nat.lt_of_lt_of_le hlt ho₂))
      fun _ _ => (moves_accept (by decide)).trivial
  refine helements.bind fun elements o₂ hle₂ _ => ?_
  refine (moves_symbol (by decide)).label.bind fun _ o₃ hle₃ _ => ?_
  split
  next => exact .failAt hfirst _
  next =>
    refine (moves_spanFrom _).bind fun _ o₄ hle₄ _ => .pure ?_
    omega

theorem moves_typeSuffix : Moves text o typeSuffix fun _ o' => o < o' := by
  refine moves_trivia.bind fun _ o₁ hle _ => .ahead_bind fun s hs => ?_
  split
  next s =>
    refine (Moves.take_succ hs 0).bind fun _ o₂ _ hlt => .offset_bind fun _ => .pure ?_
    exact Nat.lt_of_le_of_lt hle hlt
  next s =>
    refine (Moves.take_succ hs 0).bind fun _ o₂ _ hlt => .offset_bind fun _ => .pure ?_
    exact Nat.lt_of_le_of_lt hle hlt
  next s =>
    split
    next rank n _ =>
      refine (Moves.take_succ hs n).bind fun _ o₂ _ hlt => .offset_bind fun _ => .pure ?_
      exact Nat.lt_of_le_of_lt hle hlt
    next => exact .fail
  next => exact .fail

theorem agree_coreType (hself : Further text o self self') :
    Agree text o (coreType self) (coreType self') fun _ o' => o < o' := by
  refine .nextIs_bind '(' fun b _ => ?_
  split
  next => exact agree_tupleType hself
  next =>
    refine moves_predefinedType.attempt.bind fun r o₁ hle hr => ?_
    cases r with
    | some t => exact .pure (hr t rfl)
    | none =>
      exact (agree_namedTypeOf (hself.mono hle)).mono fun _ _ _ hlt => Nat.lt_of_le_of_lt hle hlt

theorem agree_suffixedType (hself : Further text o self self') :
    Agree text o (suffixedType self) (suffixedType self') fun _ o' => o < o' := by
  refine moves_trivia.bind fun _ o₁ hle₁ _ => .offset_bind fun _ => ?_
  refine (agree_coreType (hself.mono hle₁)).bind fun t o₂ _ hlt => ?_
  have hsuffixes : Moves text o₂ (many (attempt typeSuffix)) fun _ _ => True :=
    .many fun _ _ => moves_typeSuffix.attempt
  refine hsuffixes.bind fun suffixes o₃ hle₃ _ => .pure ?_
  omega

theorem moves_typeExpr : Moves text o typeExpr fun _ o' => o < o' :=
  Agree.fix (R := fun _ o₁ _ o₂ => o₁ < o₂)
    (fun _ _ _ _ hself _ => agree_suffixedType fun o₂ ho₂ => hself () o₂ ho₂) ()

theorem further_typeExpr : Further text o typeExpr typeExpr := fun _ _ => moves_typeExpr

theorem moves_namedType : Moves text o namedType fun _ o' => o < o' :=
  agree_namedTypeOf further_typeExpr

theorem moves_typeArguments : Moves text o typeArguments fun _ o' => o < o' :=
  agree_typeArgumentsOf further_typeExpr

/-! ## Type parameters -/

theorem moves_typeParameter : Moves text o typeParameter fun _ o' => o < o' := by
  refine moves_attributeLists.bind fun _ o₁ hle₁ _ => ?_
  have hname (variance : Option Variance) (o₂ : Nat) (hle₂ : o ≤ o₂) :
      Moves text o₂ (do return (⟨variance, ← label "type parameter" identifier⟩ : TypeParameter))
        fun _ o' => o < o' :=
    moves_identifier.label.bind fun _ _ _ hlt => .pure (Nat.lt_of_le_of_lt hle₂ hlt)
  refine (moves_acceptKeyword "in").bind fun isIn o₂ hle₂ _ => ?_
  split
  next => exact hname _ o₂ (Nat.le_trans hle₁ hle₂)
  next =>
    refine (moves_acceptKeyword "out").bind fun isOut o₃ hle₃ _ => ?_
    split
    next => exact hname _ o₃ (by omega)
    next => exact hname _ o₃ (by omega)

theorem moves_typeParameters? : Moves text o typeParameters? fun _ _ => True := by
  refine moves_trivia.bind fun _ o₁ _ _ => .offset_bind fun _ => ?_
  refine (moves_acceptHere (by decide)).bind fun isOpen o₂ _ _ => ?_
  split
  next =>
    have hparameters : Moves text o₂ (sepBy typeParameter (accept ",")) fun _ o' => o₂ < o' :=
      .sepBy (fun _ _ => moves_typeParameter) fun _ _ => (moves_accept (by decide)).trivial
    refine hparameters.bind fun parameters o₃ _ _ => ?_
    refine (moves_symbol (by decide)).label.bind fun _ o₄ _ _ => ?_
    exact (moves_spanFrom _).bind fun _ _ _ _ => .pure True.intro
  next => exact .pure True.intro

end DeclGen.Grammar
