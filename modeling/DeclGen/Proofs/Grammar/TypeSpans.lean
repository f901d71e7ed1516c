import DeclGen.Grammar.TypeExpr
import DeclGen.Proofs.Grammar.TokenSpans

/-!
# Spans of types

The parts of a type are read one behind the other, and so they stand inside it. A suffix makes a
longer type of the same start.

## Main statements

* `spans_typeExpr`: types
* `spans_typeParameters?`: type parameters
-/

namespace DeclGen.Grammar

open DeclGen.Grammar.Parser DeclGen.Text

variable {text : List Char}

theorem spans_predefinedType : Spans text predefinedType fun t => [t.spanTree] := by
  refine fun o => .offset_bind fun _ => tracks_word.bind fun name o₁ _ hname => ?_
  split
  next =>
    refine .spanFrom_bind fun _ => .pure ?_
    exact .singleton hname.exact (Nat.le_refl _) (Nat.le_refl _)
  next => exact .failAt _ _

/-- Of the spans of each type. -/
theorem Spans.of_types {p : Parser (List TypeExpr)}
    (h : Spans text p fun ts => ts.flatMap fun t => [t.spanTree]) :
    Spans text p TypeExpr.spanTrees := by
  rwa [funext TypeExpr.spanTrees_eq]

theorem spans_dottedIdentifier : Spans text dottedIdentifier fun i => [i.spanTree] :=
  fun _ => .skip (advances_symbol ".") fun _ o₁ hle =>
    (spans_identifier o₁).mono fun _ _ _ hi => hi.mono hle (Nat.le_refl _)

section

variable {self : Parser TypeExpr} (hself : Spans text self fun t => [t.spanTree])

include hself

theorem spans_typeArgumentsOf : Spans text (typeArgumentsOf self) TypeExpr.spanTrees := by
  refine fun o => .skip (advances_symbol "<") fun _ o₁ hle₁ => ?_
  refine ((hself.sepBy (advances_accept ",")).of_types o₁).bind fun ts o₂ _ hts => ?_
  exact .skip (advances_symbol ">").label fun _ o₃ hle₃ => .pure (hts.mono hle₁ hle₃)

theorem spans_optionalTypeArguments :
    Spans text (optionalTypeArguments self) TypeExpr.spanTrees := by
  refine fun o => ((spans_typeArgumentsOf hself).attempt o).bind fun r o₁ _ hr => .pure ?_
  cases r with
  | none => exact hr
  | some ts => simpa using hr

theorem spans_segmentTail : Spans text (segmentTail self) TypeExpr.segmentTrees := by
  have hmany : Spans text (segmentTail self) fun ss => ss.flatMap TypeExpr.segmentTree := by
    refine .many fun o => (spans_dottedIdentifier.attempt o).bind fun r o₁ _ hr => ?_
    cases r with
    | none => exact .pure hr
    | some name =>
      refine (spans_optionalTypeArguments hself o₁).bind fun ts o₂ _ hts => .pure ?_
      have hname : Stand text o [name.spanTree] o₁ := by simpa using hr
      simpa [TypeExpr.segmentTree] using hname.append hts
  rwa [funext TypeExpr.segmentTrees_eq]

theorem spans_namedTypeOf : Spans text (namedTypeOf self) fun t => [t.spanTree] := by
  intro o
  refine .skip advances_trivia fun _ start hstart => .offset_bind fun hlo => ?_
  refine (spans_identifier.label start).bind fun first o₁ _ hfirst => ?_
  refine .skip (advances_accept "::") fun isAliased o₂ hle₂ => ?_
  have hrest (qualifier : Option Identifier) {head : Identifier} {o₃ : Nat}
      (hhead : Stand text start (qualifier.toList.map (·.spanTree) ++ [head.spanTree]) o₃) :
      Tracks text o₃ (do
        let arguments ← optionalTypeArguments self
        let others ← segmentTail self
        return TypeExpr.named qualifier (.mk head arguments :: others) (← spanFrom start))
        fun t o' => Stand text o [t.spanTree] o' := by
    refine (spans_optionalTypeArguments hself o₃).bind fun ts o₄ _ hts => ?_
    refine (spans_segmentTail hself o₄).bind fun ss o₅ _ hss => .spanFrom_bind fun hhi => .pure ?_
    have hall : Stand text start (qualifier.toList.map (·.spanTree) ++
        TypeExpr.segmentTrees (.mk head ts :: ss)) o₅ := by
      simpa [TypeExpr.segmentTrees, TypeExpr.segmentTree] using (hhead.append hts).append hss
    exact .singleton (hall.node hlo hhi) hstart (Nat.le_refl _)
  cases isAliased with
  | false => exact hrest none (hfirst.mono (Nat.le_refl _) hle₂)
  | true =>
    refine (spans_identifier.label o₂).bind fun head o₃ _ hhead => ?_
    exact hrest (some first) (hfirst.append (hhead.mono hle₂ (Nat.le_refl _)))

theorem spans_tupleElement : Spans text (tupleElement self) fun t => [t.spanTree] := by
  refine fun o => (hself o).bind fun t o₁ _ ht => ?_
  refine .skip (.attempt (.of_tracks fun _ => spans_identifier)) fun _ o₂ hle => .pure ?_
  exact ht.mono (Nat.le_refl _) hle

theorem spans_tupleType : Spans text (tupleType self) fun t => [t.spanTree] := by
  refine fun start => .offset_bind fun hlo => .skip (advances_symbol "(") fun _ o₁ hle₁ => ?_
  refine .offset_bind fun _ => ?_
  refine (((spans_tupleElement hself).sepBy (advances_accept ",")).of_types o₁).bind
    fun ts o₂ _ hts => ?_
  refine .skip (advances_symbol ")").label fun _ o₃ hle₃ => ?_
  split
  next => exact .failAt _ _
  next =>
    refine .spanFrom_bind fun hhi => .pure ?_
    exact .singleton ((hts.mono hle₁ hle₃).node hlo hhi) (Nat.le_refl _) (Nat.le_refl _)

theorem spans_coreType : Spans text (coreType self) fun t => [t.spanTree] := by
  refine fun o => .skip (advances_nextIs '(') fun isTuple o₁ hle₁ => ?_
  have hmono {p : Parser TypeExpr} {o₂ : Nat} (hle : o ≤ o₂)
      (hp : Spans text p fun t => [t.spanTree]) :
      Tracks text o₂ p fun t o' => Stand text o [t.spanTree] o' :=
    (hp o₂).mono fun t o' _ ht => ht.mono hle (Nat.le_refl _)
  split
  next => exact hmono hle₁ (spans_tupleType hself)
  next =>
    refine (spans_predefinedType.attempt o₁).bind fun r o₂ hle₂ hr => ?_
    cases r with
    | none => exact hmono (Nat.le_trans hle₁ hle₂) (spans_namedTypeOf hself)
    | some t => exact .pure (hr.mono hle₁ (Nat.le_refl _))

end

/-- The end of a suffix is a place behind what was read. -/
theorem spans_typeSuffix : Spans text typeSuffix fun r => [.node ⟨r.2, r.2⟩ none []] := by
  have hend {o o' : Nat} (hle : o ≤ o') (suffix : TypeSuffix) :
      Tracks text o' (do return (suffix, ← offset)) fun r o'' =>
        Stand text o [.node ⟨r.2, r.2⟩ none []] o'' := by
    refine .offset_bind fun hhi => .pure (.singleton ?_ hle (Nat.le_refl _))
    exact (Stand.nil (Nat.le_refl _)).node hhi hhi
  refine fun o => .skip advances_trivia fun _ o₁ hle₁ => .ahead_bind fun s _ => ?_
  split
  next => exact .skip (.take 1) fun _ o₂ hle₂ => hend (Nat.le_trans hle₁ hle₂) _
  next => exact .skip (.take 1) fun _ o₂ hle₂ => hend (Nat.le_trans hle₁ hle₂) _
  next s =>
    split
    next => exact .skip (.take _) fun _ o₂ hle₂ => hend (Nat.le_trans hle₁ hle₂) _
    next => exact .fail
  next => exact .fail

/-- Suffixes that end one behind the other make an exact type of an exact type. -/
theorem stand_foldl_suffixes {start lo hi : Nat} {suffixes : List (TypeSuffix × Nat)} {t : TypeExpr}
    (hstart : IsBoundary text start) (ht : Stand text start [t.spanTree] lo)
    (hsuffixes : Stand text lo
      (suffixes.flatMap fun r => [.node ⟨r.2, r.2⟩ none []]) hi) :
    Stand text start [(suffixes.foldl (TypeSuffix.apply start) t).spanTree] hi := by
  induction suffixes generalizing t lo with
  | nil => exact ht.mono (Nat.le_refl _) hsuffixes.le
  | cons r suffixes ih =>
    cases hsuffixes with
    | cons hle hexact hrest =>
      refine ih ?_ hrest
      have hinner := (ht.mono (Nat.le_refl _) hle).node hstart hexact.isBoundary_start
      obtain ⟨suffix, stop⟩ := r
      cases suffix with
      | nullable | pointer | array => exact .singleton hinner (Nat.le_refl _) (Nat.le_refl _)

theorem spans_suffixedType {self : Parser TypeExpr}
    (hself : Spans text self fun t => [t.spanTree]) :
    Spans text (suffixedType self) fun t => [t.spanTree] := by
  refine fun o => .skip advances_trivia fun _ start hstart => .offset_bind fun hlo => ?_
  refine (spans_coreType hself start).bind fun t o₁ _ ht => ?_
  refine (Spans.many spans_typeSuffix.attempt o₁).bind fun suffixes o₂ _ hsuffixes => .pure ?_
  exact (stand_foldl_suffixes hlo ht hsuffixes).mono hstart (Nat.le_refl _)

theorem spans_typeExpr : Spans text typeExpr fun t => [t.spanTree] :=
  .fix (fun _ hself _ => spans_suffixedType (hself ())) ()

theorem spans_typeParameter : Spans text typeParameter fun p => [p.identifier.spanTree] := by
  have hname {o o' : Nat} (hle : o ≤ o') (v : Option Variance) :
      Tracks text o' (do return (⟨v, ← label "type parameter" identifier⟩ : TypeParameter))
        fun p o'' => Stand text o [p.identifier.spanTree] o'' :=
    (spans_identifier.label o').bind fun i o₁ _ hi => .pure (hi.mono hle (Nat.le_refl _))
  intro o
  refine .skip (.of_tracks fun _ => spans_attributeLists) fun _ o₁ hle₁ => ?_
  refine .skip (advances_acceptKeyword "in") fun isIn o₂ hle₂ => ?_
  split
  next => exact hname (by omega) _
  next =>
    refine .skip (advances_acceptKeyword "out") fun isOut o₃ hle₃ => ?_
    split
    next => exact hname (by omega) _
    next => exact hname (by omega) _

theorem spans_typeParameters? :
    Spans text typeParameters? fun r => r.toList.map (·.spanTree) := by
  refine fun o => .skip advances_trivia fun _ start hstart => .offset_bind fun hlo => ?_
  refine .skip (advances_acceptHere "<") fun isOpen o₁ hle₁ => ?_
  split
  next =>
    refine ((spans_typeParameter.sepBy (advances_accept ",")).of_map o₁).bind fun ps o₂ _ hps => ?_
    refine .skip (advances_symbol ">").label fun _ o₃ hle₃ => .spanFrom_bind fun hhi => .pure ?_
    exact .singleton ((hps.mono hle₁ hle₃).node hlo hhi) hstart (Nat.le_refl _)
  next => exact .pure (.nil (Nat.le_trans hstart hle₁))

end DeclGen.Grammar
