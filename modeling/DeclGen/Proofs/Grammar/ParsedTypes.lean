import DeclGen.Proofs.Grammar.TypeText
import DeclGen.Proofs.Grammar.WellNamed

/-!
# The types in parsed texts

Every type that is read from a text is one that its own text stands for: its names are identifiers,
and the first of them is not read as a built-in type, because built-in types are tried first. So
writing a type out and reading it again gives the same type.

## Main statements

* `yields_typeExpr`: what is read as a type can be read back
* `reads_text_of_typeExpr`: a type that was read is read again from its text
-/

namespace DeclGen.Grammar

open DeclGen.Grammar.Parser DeclGen.Text

variable {α β : Type} {b : β} {c c' : Cursor} {s w : List Char} {t : TypeExpr}
  {self : Parser TypeExpr} {P : TypeExpr → Prop}

/-! ## Places without trivia -/

theorem exists_of_bind_eq_ok {p : Parser α} {f : α → Parser β} (h : (p >>= f) c = .ok (b, c')) :
    ∃ a c₁, p c = .ok (a, c₁) ∧ f a c₁ = .ok (b, c') := by
  rw [bind_apply] at h
  split at h
  next a c₁ hp => exact ⟨a, c₁, hp, h⟩
  next => cases h

/-- A parser behind one that succeeds. -/
theorem bind_of_eq_ok {p : Parser α} {f : α → Parser β} {a : α} {c₁ : Cursor}
    (h : p c = .ok (a, c₁)) : (p >>= f) c = f a c₁ := by
  rw [bind_apply, h]

theorem nextIs_of_head? {d : Char} (h : c.rest.head? = some d) : nextIs d c = .ok (true, c) := by
  refine (bind_of_eq_ok (p := ahead) rfl).trans ?_
  rw [h, beq_self_eq_true]
  rfl

/-- Where there is no trivia, none is read. -/
theorem trivia_bind {f : Unit → Parser α} (hc : triviaLength c.rest = 0) :
    (trivia >>= f) c = f () c := by
  change f () (c.skip (triviaLength c.rest)) = f () c
  rw [hc, c.skip_zero]

theorem eq_of_acceptHere_false {k : String} (h : acceptHere k c = .ok (false, c')) : c' = c := by
  obtain ⟨r, c₁, hr, hpure⟩ := exists_of_bind_eq_ok h
  rw [Parser.attempt] at hr
  split at hr
  next =>
    cases hr
    cases hpure
  next =>
    cases hr
    cases hpure
    rfl

/-- An identifier is not the name of a built-in type, where no built-in type is read. -/
theorem isPredefinedType_of_identifier {i : Identifier} (hc : triviaLength c.rest = 0)
    (hno : ∀ t c₁, predefinedType c ≠ .ok (t, c₁)) (h : identifier c = .ok (i, c')) :
    isPredefinedType i.text = false := by
  rw [identifier, trivia_bind hc] at h
  obtain ⟨isVerbatim, c₁, haccept, hrest⟩ :=
    exists_of_bind_eq_ok (p := acceptHere "@") (c := c) h
  obtain ⟨found, c₂, hword, hname⟩ := exists_of_bind_eq_ok hrest
  split at hname
  next => cases hname
  next =>
    cases hname
    refine Bool.eq_false_iff.mpr fun hpre => ?_
    cases isVerbatim with
    | true =>
      have hall : ∀ k ∈ predefinedTypes, k.toList.head? ≠ some '@' := by decide
      rw [if_pos rfl, isPredefinedType] at hpre
      exact hall _ (List.contains_iff_mem.mp hpre) (by simp)
    | false =>
      obtain rfl := eq_of_acceptHere_false haccept
      rw [if_neg (by decide)] at hpre
      refine hno (.predefined found ⟨c₁.offset, c'.offset⟩) c' ?_
      change (word >>= _) c₁ = _
      rw [bind_apply, hword]
      simp only [hpre, if_true]
      rfl

/-! ## Types -/

theorem yields_typeArgumentsOf (hself : Yields self P) :
    Yields (typeArgumentsOf self) fun ts => ∀ t ∈ ts, P t := by
  refine .bind_right fun _ => (Yields.sepBy hself).bind fun ts hts => ?_
  exact .bind_right fun _ => .pure hts

theorem yields_optionalTypeArguments (hself : Yields self P) :
    Yields (optionalTypeArguments self) fun ts => ∀ t ∈ ts, P t := by
  refine (yields_typeArgumentsOf hself).attempt.bind fun r hr => .pure ?_
  cases r with
  | none => simp
  | some ts => exact hr ts rfl

theorem yields_segmentTail (hself : Yields self P) :
    Yields (segmentTail self) fun gs =>
      ∀ g ∈ gs, g.identifier.WellNamed ∧ ∀ t ∈ g.arguments, P t := by
  have hdotted : Yields dottedIdentifier Identifier.WellNamed :=
    .bind_right fun _ => yields_identifier
  refine .many (hdotted.attempt.bind fun r hr => ?_)
  cases r with
  | none => exact .pure (by simp)
  | some i =>
    refine (yields_optionalTypeArguments hself).bind fun ts hts => .pure ?_
    rintro _ ⟨⟩
    exact ⟨hr i rfl, hts⟩

/-- The rest of a named type, once it is known how its first segment is called. -/
theorem yields_namedTail {qualifier : Option Identifier} {head : Identifier} {start : Nat}
    (hself : Yields self TypeExpr.Readable) (hqualifier : ∀ a ∈ qualifier, a.WellNamed)
    (hhead : head.WellNamed) (hfirst : isPredefinedType (qualifier.getD head).text = false) :
    Yields (do
      let arguments ← optionalTypeArguments self
      let others ← segmentTail self
      return .named qualifier (.mk head arguments :: others) (← spanFrom start))
      TypeExpr.Readable := by
  refine (yields_optionalTypeArguments hself).bind fun ts hts => ?_
  refine (yields_segmentTail hself).bind fun gs hgs => .bind_right fun span => .pure ?_
  refine .named hqualifier ?_ hfirst ?_
  · intro g hg
    rcases List.mem_cons.mp hg with rfl | hg
    · exact hhead
    · exact (hgs g hg).1
  · intro g hg
    rcases List.mem_cons.mp hg with rfl | hg
    · exact hts
    · exact (hgs g hg).2

theorem readable_of_namedTypeOf (hself : Yields self TypeExpr.Readable)
    (hc : triviaLength c.rest = 0) (hno : ∀ t c₁, predefinedType c ≠ .ok (t, c₁))
    (h : namedTypeOf self c = .ok (t, c')) : t.Readable := by
  rw [namedTypeOf, trivia_bind hc] at h
  obtain ⟨first, c₁, hlabel, hrest⟩ :=
    exists_of_bind_eq_ok (p := label "a type" identifier) (c := c) h
  obtain ⟨hnamed, hfirst⟩ : first.WellNamed ∧ isPredefinedType first.text = false := by
    rw [label] at hlabel
    split at hlabel
    next hidentifier =>
      cases hlabel
      exact ⟨yields_identifier _ _ _ hidentifier,
        isPredefinedType_of_identifier hc hno hidentifier⟩
    next => cases hlabel
  refine Yields.bind_right (fun isAliased => ?_) c₁ t c' hrest
  cases isAliased with
  | false =>
    refine (Yields.pure (P := (· = first)) rfl).bind ?_
    rintro _ rfl
    exact yields_namedTail hself (by simp) hnamed hfirst
  | true =>
    refine (Yields.label yields_identifier).bind fun head hhead => ?_
    exact yields_namedTail hself (by rintro _ ⟨⟩; exact hnamed) hhead hfirst

theorem yields_tupleType (hself : Yields self TypeExpr.Readable) :
    Yields (tupleType self) TypeExpr.Readable := by
  have helement : Yields (tupleElement self) TypeExpr.Readable :=
    hself.bind fun t ht => .bind_right fun _ => .pure ht
  refine .bind_right fun start => .bind_right fun _ => .bind_right fun first => ?_
  refine (Yields.sepBy helement).bind fun ts hts => .bind_right fun _ => ?_
  split
  next => exact .failAt first _
  next hlength => exact .bind_right fun span => .pure (.tuple (by omega) hts)

theorem yields_predefinedType : Yields predefinedType TypeExpr.Readable := by
  refine .bind_right fun start => .bind_right fun name => ?_
  split
  next hname => exact .bind_right fun span => .pure (.predefined hname)
  next => exact .failAt start _

/-- Built-in types are tried before named ones. -/
theorem readable_of_coreType (hself : Yields self TypeExpr.Readable)
    (hc : triviaLength c.rest = 0) (h : coreType self c = .ok (t, c')) : t.Readable := by
  obtain ⟨isTuple, c₁, hnext, h⟩ := exists_of_bind_eq_ok h
  cases hnext
  split at h
  next => exact yields_tupleType hself _ _ _ h
  next =>
    obtain ⟨r, c₁, hr, h⟩ := exists_of_bind_eq_ok h
    rw [Parser.attempt] at hr
    split at hr
    next hpre =>
      cases hr
      cases h
      exact yields_predefinedType _ _ _ hpre
    next hpre =>
      cases hr
      refine readable_of_namedTypeOf hself hc (fun t c₁ heq => ?_) h
      rw [hpre] at heq
      cases heq

/-! ## Suffixes -/

theorem le_of_arrayRank {rank seen rank' n : Nat} (h : arrayRank rank seen s = some (rank', n)) :
    rank ≤ rank' := by
  fun_induction arrayRank rank seen s with
  | case1 => cases h
  | case2 rank seen c s hcomma ih => exact Nat.le_of_succ_le (ih h)
  | case3 rank seen c s hcomma hclose =>
    cases h
    exact Nat.le_refl _
  | case4 rank seen c s hcomma hclose hblank ih => exact ih h
  | case5 => cases h

/-- An array has a dimension. -/
theorem yields_typeSuffix : Yields typeSuffix fun x => ∀ rank, x.1 = .array rank → 1 ≤ rank := by
  refine .bind_right fun _ => .bind_right fun s => ?_
  split
  next => exact .bind_right fun _ => .bind_right fun stop => .pure (by rintro rank ⟨⟩)
  next => exact .bind_right fun _ => .bind_right fun stop => .pure (by rintro rank ⟨⟩)
  next =>
    split
    next rank n harray =>
      refine .bind_right fun _ => .bind_right fun stop => .pure ?_
      rintro _ ⟨⟩
      exact le_of_arrayRank harray
    next => exact .fail
  next => exact .fail

theorem readable_foldl_apply {start : Nat} {xs : List (TypeSuffix × Nat)}
    (hxs : ∀ x ∈ xs, ∀ rank, x.1 = .array rank → 1 ≤ rank) (ht : t.Readable) :
    (xs.foldl (TypeSuffix.apply start) t).Readable := by
  induction xs generalizing t with
  | nil => exact ht
  | cons x xs ih =>
    refine ih (fun y hy => hxs y (List.mem_cons_of_mem x hy)) ?_
    obtain ⟨kind, stop⟩ := x
    cases kind with
    | nullable => exact .nullable ht
    | pointer => exact .pointer ht
    | array rank => exact .array (hxs _ List.mem_cons_self rank rfl) ht

theorem yields_suffixedType (hself : Yields self TypeExpr.Readable) :
    Yields (suffixedType self) TypeExpr.Readable := by
  intro c t c' h
  obtain ⟨_, c₁, htrivia, h⟩ := exists_of_bind_eq_ok h
  have hc₁ : triviaLength c₁.rest = 0 := by
    cases htrivia
    exact triviaLength_drop c.rest
  obtain ⟨start, c₂, hstart, h⟩ := exists_of_bind_eq_ok h
  cases hstart
  obtain ⟨core, c₂, hcore, h⟩ := exists_of_bind_eq_ok h
  have hreadable := readable_of_coreType hself hc₁ hcore
  refine (Yields.many yields_typeSuffix.attempt).bind (fun xs hxs => .pure ?_) _ _ _ h
  exact readable_foldl_apply hxs hreadable

/-- What is read as a type can be read back. -/
theorem yields_typeExpr : Yields typeExpr TypeExpr.Readable :=
  Yields.fix (P := fun _ => TypeExpr.Readable)
    (fun _ hself _ => yields_suffixedType (hself ())) ()

/-- A type that was read from some text, with whatever trivia in it, is read again from the text
that it is displayed with. -/
theorem reads_text_of_typeExpr (h : typeExpr c = .ok (t, c')) (hw : Trivia w)
    (hs : Ahead typeEnds s) : Reads typeExpr (w ++ (t.text.toList ++ s)) s (·.bare = t.bare) :=
  (yields_typeExpr c t c' h).reads hw hs

end DeclGen.Grammar
