import DeclGen.Proofs.Grammar.CappedTokens
import DeclGen.Proofs.Grammar.TypeMoves
import DeclGen.Proofs.Grammar.TypeText

/-!
# Types in front of a closing brace

Types are read in both texts or in none, and are the same but for their places.

## Main statements

* `alike_suffixedType`: what the parser of types does between two calls of itself
* `alike_typeExpr`, `alike_typeArguments`, `alike_typeParameters?`: types
-/

namespace DeclGen.Grammar

open DeclGen.Grammar.Parser DeclGen.Text

variable {lax : Prop} {self self' : Parser TypeExpr}

theorem alike_predefinedType :
    Alike lax predefinedType predefinedType (·.bare = ·.bare) := by
  refine .offset_bind fun o o' => alike_word.bind ?_
  rintro name _ rfl
  exact .ite (fun _ => alike_spanFrom.bind fun _ _ _ => .pure rfl) fun _ => .failAt

section

variable (hself : Alike False self self' (·.bare = ·.bare))
  (hend : ∀ o r, self ⟨o, []⟩ ≠ .ok r)

include hself hend

theorem alike_typeArgumentsOf :
    Alike False (typeArgumentsOf self) (typeArgumentsOf self') fun as bs =>
      as.map (·.bare) = bs.map (·.bare) := by
  refine (alike_symbol (by decide)).bind fun _ _ _ => ?_
  refine (Alike.sepBy hself (alike_accept (by decide)) fun _ o a c => hend o (a, c)).bind
    fun as bs h => ?_
  exact (alike_symbol (by decide)).label.bind fun _ _ _ => .pure (map_eq_of_forall₂ h)

theorem alike_optionalTypeArguments :
    Alike False (optionalTypeArguments self) (optionalTypeArguments self') fun as bs =>
      as.map (·.bare) = bs.map (·.bare) := by
  refine (alike_typeArgumentsOf hself hend).attempt.bind ?_
  rintro _ _ (h | _)
  · exact .pure h
  · exact .pure rfl

theorem alike_segment? :
    Alike False (segment? self) (segment? self')
      (Option.Rel (TypeExpr.bareSegment · = TypeExpr.bareSegment ·)) := by
  have hname : Alike False dottedIdentifier dottedIdentifier (·.bare = ·.bare) :=
    (alike_symbol (by decide)).bind fun _ _ _ => alike_identifier
  refine hname.attempt.bind ?_
  rintro _ _ (@⟨name, name', hname⟩ | _)
  · refine (alike_optionalTypeArguments hself hend).bind fun as bs h => .pure (.some ?_)
    simp only [TypeExpr.bareSegment, TypeExpr.bareTypes_eq, hname, h]
  · exact .pure .none

theorem alike_segmentTail :
    Alike False (segmentTail self) (segmentTail self') fun as bs =>
      as.map TypeExpr.bareSegment = bs.map TypeExpr.bareSegment :=
  (Alike.many (alike_segment? hself hend) fun _ => not_some_at_end fun _ _ h =>
    agree_segment? (further_at_end h)).mono fun _ _ => map_eq_of_forall₂

theorem alike_namedTypeOf :
    Alike False (namedTypeOf self) (namedTypeOf self') (·.bare = ·.bare) := by
  refine alike_trivia.bind fun _ _ _ => .offset_bind fun o o' => ?_
  refine alike_identifier.label.bind fun first first' hfirst => ?_
  refine (alike_accept (by decide)).bind ?_
  rintro isAliased _ rfl
  have hhead : Alike False (if isAliased then label "a type" identifier else pure first)
      (if isAliased then label "a type" identifier else pure first') (·.bare = ·.bare) :=
    .ite (fun _ => alike_identifier.label) fun _ => .pure hfirst
  refine hhead.ite_bind fun head head' hhead' => ?_
  refine (alike_optionalTypeArguments hself hend).bind fun as bs h => ?_
  refine (alike_segmentTail hself hend).bind fun ss ss' hss => ?_
  refine alike_spanFrom.bind fun _ _ _ => .pure ?_
  cases isAliased <;>
    simp [TypeExpr.bare, TypeExpr.bareSegment, hfirst, hhead', h, hss]

omit hend in
theorem alike_tupleElement :
    Alike False (tupleElement self) (tupleElement self') (·.bare = ·.bare) :=
  hself.bind fun _ _ h => alike_identifier.attempt.bind fun _ _ _ => .pure h

theorem alike_tupleType :
    Alike False (tupleType self) (tupleType self') (·.bare = ·.bare) := by
  refine .offset_bind fun o o' => (alike_symbol (by decide)).bind fun _ _ _ => ?_
  refine .offset_bind fun first first' => ?_
  refine (Alike.sepBy (alike_tupleElement hself) (alike_accept (by decide)) fun _ o a c =>
    bind_ne_ok_at_end hend o (a, c)).bind fun as bs h => ?_
  refine (alike_symbol (by decide)).label.bind fun _ _ _ => ?_
  rw [h.length_eq]
  split
  · exact .failAt
  · refine alike_spanFrom.bind fun _ _ _ => .pure ?_
    simp only [TypeExpr.bare, TypeExpr.bareTypes_eq, map_eq_of_forall₂ h]

theorem alike_coreType :
    Alike False (coreType self) (coreType self') (·.bare = ·.bare) := by
  refine (alike_nextIs (by decide)).bind ?_
  rintro isTuple _ rfl
  refine .ite (fun _ => alike_tupleType hself hend) fun _ => alike_predefinedType.attempt.bind ?_
  rintro _ _ (h | _)
  · exact .pure h
  · exact alike_namedTypeOf hself hend

end

/-! ## Suffixes -/

theorem arrayRank_cap (rank seen : Nat) (s : List Char) :
    arrayRank rank seen (s ++ ['\n', '}']) = arrayRank rank seen s := by
  induction s generalizing rank seen with
  | nil => simp [arrayRank, isBlank]
  | cons c s ih =>
    rw [List.cons_append, arrayRank, arrayRank]
    simp only [ih]

theorem length_le_of_arrayRank {rank seen k n : Nat} {s : List Char}
    (h : arrayRank rank seen s = some (k, n)) : n ≤ seen + s.length := by
  fun_induction arrayRank rank seen s with
  | case1 => cases h
  | case2 rank seen c s hcomma ih =>
    have := ih h
    rw [List.length_cons]
    omega
  | case3 rank seen c s hcomma hclose =>
    cases h
    rw [List.length_cons]
    omega
  | case4 rank seen c s hcomma hclose hblank ih =>
    have := ih h
    rw [List.length_cons]
    omega
  | case5 => cases h

theorem alike_typeSuffix : Alike lax typeSuffix typeSuffix (·.1 = ·.1) := by
  have hone {c : Char} {u : List Char} (k : TypeSuffix) :
      AlikeAt lax (c :: u) (c :: (u ++ ['\n', '}']))
        (do let _ ← take 1; return (k, ← offset)) (do let _ ← take 1; return (k, ← offset))
        (·.1 = ·.1) :=
    .take_bind (.inside (c :: u)) (by simp) (.offset_bind fun _ _ => .pure rfl)
  refine alike_trivia.bind fun _ _ _ => .ahead_bind fun s t hst => ?_
  rcases hst.cases_head with ⟨c, u, rfl, rfl⟩ | ⟨rfl, rfl | rfl⟩
  · by_cases hquestion : c = '?'
    · subst hquestion
      exact hone .nullable
    by_cases hstar : c = '*'
    · subst hstar
      exact hone .pointer
    by_cases hbracket : c = '['
    · subst hbracket
      simp only [arrayRank_cap]
      cases hrank : arrayRank 1 0 u with
      | none => exact .fail
      | some r =>
        have hle := length_le_of_arrayRank hrank
        refine .take_bind hst ?_ (.offset_bind fun _ _ => .pure rfl)
        rw [List.length_cons]
        omega
    · simpa [hquestion, hstar, hbracket] using .fail
  · exact .fail
  · exact .fail

theorem alike_typeSuffixes :
    Alike lax (many (attempt typeSuffix)) (many (attempt typeSuffix)) fun as bs =>
      as.map (·.1) = bs.map (·.1) :=
  (Alike.many alike_typeSuffix.attempt fun _ => not_some_at_end fun _ _ _ =>
    moves_typeSuffix.attempt).mono fun _ _ => map_eq_of_forall₂

/-! ## Types -/

theorem alike_suffixedType (hself : Alike False self self' (·.bare = ·.bare))
    (hend : ∀ o r, self ⟨o, []⟩ ≠ .ok r) :
    Alike False (suffixedType self) (suffixedType self') (·.bare = ·.bare) := by
  refine alike_trivia.bind fun _ _ _ => .offset_bind fun o o' => ?_
  refine (alike_coreType hself hend).bind fun a b hab => ?_
  refine alike_typeSuffixes.bind fun as bs h => .pure ?_
  rw [bare_foldl_apply, bare_foldl_apply, hab, h]

theorem typeExpr_ne_ok_at_end (o : Nat) (r : TypeExpr × Cursor) : typeExpr ⟨o, []⟩ ≠ .ok r :=
  not_ok_at_end (fun _ _ _ => moves_typeExpr) o r

theorem alike_typeExpr : Alike lax typeExpr typeExpr (·.bare = ·.bare) := by
  have hfirm : Alike False typeExpr typeExpr (·.bare = ·.bare) :=
    .fix (V := fun (_ : Unit) (a b : TypeExpr) => a.bare = b.bare)
      (fun _ _ hself hend _ => alike_suffixedType (hself ()) (hend id ()))
      (fun _ _ => typeExpr_ne_ok_at_end) ()
  exact hfirm.loosen

theorem alike_typeArguments :
    Alike lax typeArguments typeArguments fun as bs => as.map (·.bare) = bs.map (·.bare) :=
  (alike_typeArgumentsOf alike_typeExpr typeExpr_ne_ok_at_end).loosen

/-! ## Type parameters -/

theorem alike_typeParameter : Alike lax typeParameter typeParameter (·.bare = ·.bare) := by
  have hname (v : Option Variance) :
      Alike lax (do return (⟨v, ← label "type parameter" identifier⟩ : TypeParameter))
        (do return (⟨v, ← label "type parameter" identifier⟩ : TypeParameter)) (·.bare = ·.bare) :=
    alike_identifier.label.bind fun _ _ h => .pure (by simp only [TypeParameter.bare, h])
  refine alike_attributeLists.bind fun _ _ _ => (alike_acceptKeyword _).bind ?_
  rintro isIn _ rfl
  refine .ite (fun _ => hname _) fun _ => (alike_acceptKeyword _).bind ?_
  rintro isOut _ rfl
  exact .ite (fun _ => hname _) fun _ => hname _

theorem alike_typeParameters? :
    Alike lax typeParameters? typeParameters? (Option.Rel (·.bare = ·.bare)) := by
  refine alike_trivia.bind fun _ _ _ => .offset_bind fun o o' => ?_
  refine (alike_acceptHere (by decide)).bind ?_
  rintro isOpen _ rfl
  refine .ite (fun _ => ?_) fun _ => .pure .none
  refine (Alike.sepBy alike_typeParameter (alike_accept (by decide)) fun _ o a c =>
    not_ok_at_end (fun _ _ _ => moves_typeParameter) o (a, c)).bind fun as bs h => ?_
  refine (alike_symbol (by decide)).label.bind fun _ _ _ => alike_spanFrom.bind fun _ _ _ => ?_
  refine .pure (.some ?_)
  simp only [TypeParameters.bare, map_eq_of_forall₂ h]

end DeclGen.Grammar
