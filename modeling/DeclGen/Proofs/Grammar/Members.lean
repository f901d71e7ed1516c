import DeclGen.Grammar.Unit
import DeclGen.Proofs.Grammar.Headers
import DeclGen.Proofs.Grammar.Regions

/-!
# Reading methods and types

A method with a body behind a built-in type, and a type without bases and constraints, as generated
code writes them out. What a type holds is left to the parser of its members.

## Main statements

* `reads_typedMember`, `reads_typeDeclaration`
-/

namespace DeclGen.Grammar

open DeclGen.Grammar.Parser DeclGen.Text

variable {α : Type} {v w x y s t : List Char}

/-! ## Types and names of methods -/

theorem fails_typeSuffix (hw : Trivia w) (hx : IsIdentifier x) :
    Fails typeSuffix (w ++ (x ++ t)) := by
  refine .skip hw (.of_stops hx.stops (.ahead_bind ?_))
  have hquestion := hx.head?_ne (t := t) (c := '?') (by decide) (by decide)
  have hstar := hx.head?_ne (t := t) (c := '*') (by decide) (by decide)
  have hbracket := hx.head?_ne (t := t) (c := '[') (by decide) (by decide)
  split
  next heq => exact absurd (by rw [heq]; rfl) hquestion
  next heq => exact absurd (by rw [heq]; rfl) hstar
  next heq => exact absurd (by rw [heq]; rfl) hbracket
  next => exact .fail

theorem reads_predefinedType (hx : IsWord x) (hpre : isPredefinedType (String.ofList x) = true)
    (ht : WordEnds t) : Reads predefinedType (x ++ t) t fun _ => True := by
  refine .offset_bind fun start => (reads_word hx ht).bind_eq ?_
  simp only [hpre, if_true]
  exact (reads_spanFrom start t).bind fun _ _ => .pure trivial

/-- A built-in type before the name of a member. -/
theorem reads_typeExpr (hw : Trivia w) (hx : IsWord x)
    (hpre : isPredefinedType (String.ofList x) = true) (hy : IsIdentifier y) :
    Reads typeExpr (w ++ (x ++ ' ' :: (y ++ t))) (' ' :: (y ++ t)) fun _ => True := by
  refine .fix (.skip hw (.of_stops hx.stops (.offset_bind fun start => ?_)))
  have hcore (self : Parser TypeExpr) :
      Reads (coreType self) (x ++ ' ' :: (y ++ t)) (' ' :: (y ++ t)) fun _ => True := by
    refine (reads_nextIs '(' _).bind_eq ?_
    rw [beq_eq_false_iff_ne.mpr (hx.head?_ne (by decide)), if_neg (by decide)]
    refine (reads_predefinedType hx hpre wordEnds_blank).attempt.bind fun r hr => ?_
    obtain ⟨a, rfl, -⟩ := hr
    exact .pure trivial
  have hnone : Reads (many (attempt typeSuffix)) (' ' :: (y ++ t)) (' ' :: (y ++ t)) (· = []) :=
    .many_nil (.attempt_none (fails_typeSuffix trivia_blank hy))
  exact (hcore _).bind fun a _ => hnone.bind_eq (.pure trivial)

theorem reads_nameBrackets {ps : Option TypeParameters} (hps : ∀ qs ∈ ps, IsParameterList qs)
    (ht : t.head? ≠ some '<') :
    Reads nameBrackets (parametersText ps ++ t) t (declared? · = declared? ps) := by
  cases ps with
  | none =>
    refine (reads_nextIs '<' _).bind_eq ?_
    rw [parametersText, List.nil_append, beq_eq_false_iff_ne.mpr ht, if_neg (by decide)]
    exact .pure rfl
  | some ps =>
    refine (reads_nextIs '<' _).bind_eq ?_
    rw [head?_parametersText, beq_self_eq_true, if_pos rfl]
    refine (reads_typeParameters (hps ps rfl) .nil).attempt.bind fun r hr => ?_
    obtain ⟨_, rfl, qs, rfl, hqs⟩ := hr
    exact .pure (congrArg some hqs)

/-- The name of a method before its parameters. -/
theorem reads_memberName {ps : Option TypeParameters} (hw : Trivia w) (hx : IsIdentifier x)
    (hps : ∀ qs ∈ ps, IsParameterList qs) :
    Reads memberName (w ++ (x ++ (parametersText ps ++ '(' :: t))) ('(' :: t) fun n =>
      n.explicitInterface = none ∧ n.identifier.text = String.ofList x ∧
        declared? n.typeParameters = declared? ps := by
  have hends := wordEnds_parametersText ps (t := '(' :: t) (.cons (by decide))
  have hstops := stops_parametersText ps (t := '(' :: t) (.cons (by decide))
  have hsegment : Reads nameSegment (x ++ (parametersText ps ++ '(' :: t)) ('(' :: t) fun r =>
      r.1.text = String.ofList x ∧ declared? r.2 = declared? ps := by
    refine (reads_identifier .nil hx hends).bind fun i hi => .of_stops hstops ?_
    exact (reads_nameBrackets hps (by simp)).bind fun qs hqs => .pure ⟨hi, hqs⟩
  have hstop : Reads (accept ".") ('(' :: t) ('(' :: t) (· = false) :=
    reads_accept_false .nil (.cons (by decide)) rfl
  refine (Reads.sepBy_last (.skip hw (.of_stops hx.stops hsegment.withText)) hstop).bind
    fun segments hsegments => ?_
  obtain ⟨⟨⟨i, qs⟩, text⟩, rfl, hi, hqs⟩ := hsegments
  exact .pure ⟨rfl, hi, hqs⟩

/-! ## Bodies -/

/-- An opening brace in front of the rest. -/
theorem stops_brace : Stops ('{' :: t) := .cons (by decide)

theorem reads_constraintClauses (hw : Trivia w) :
    Reads constraintClauses (w ++ '{' :: t) (w ++ '{' :: t) fun _ => True := by
  have hwhere : Fails (keyword "where") (w ++ '{' :: t) :=
    fails_keyword_of_noWord hw stops_brace (.cons (by decide))
  refine (reads_acceptKeyword_false hwhere).bind_eq ?_
  rw [if_neg (by decide)]
  exact .pure trivial

theorem reads_memberBody (hw : Trivia w) (hx : Balanced x) :
    Reads memberBody (w ++ '{' :: (x ++ '}' :: t)) t (· = true) := by
  refine .skip hw (.of_stops stops_brace ((reads_nextIs '{' _).bind_eq ?_))
  rw [if_pos (by rfl)]
  exact (reads_delimited (by decide) hx).bind_eq (.pure rfl)

theorem reads_methodDeclaration {h : DeclHeader} {type : TypeExpr} {name : MemberName}
    (hx : Balanced x) (hw : Trivia w) (hy : Balanced y) :
    Reads (methodDeclaration h type name) ('(' :: (x ++ ')' :: (w ++ '{' :: (y ++ '}' :: t)))) t
      fun m => ∃ decl, m = .ofMethod decl ∧ decl.modifiers = h.modifiers ∧
        decl.explicitInterface = name.explicitInterface ∧ decl.identifier = name.identifier ∧
        decl.typeParameters = name.typeParameters ∧ decl.hasBody = true := by
  refine (reads_delimited (by decide) hx).label.bind_eq ?_
  refine (reads_constraintClauses hw).bind fun _ _ => ?_
  refine (reads_memberBody hw hy).bind_eq ?_
  exact (reads_spanFrom h.start t).bind fun _ _ => .pure ⟨_, rfl, rfl, rfl, rfl, rfl, rfl⟩

/-- A member that starts with a built-in type and goes on like a method is one. -/
theorem reads_typedMember {r : String} {h : DeclHeader} {ps : Option TypeParameters}
    (hr : IsWord r.toList) (hpre : isPredefinedType r = true) (hname : IsIdentifier v)
    (hps : ∀ qs ∈ ps, IsParameterList qs) (hx : Balanced x) (hw : Trivia w) (hy : Balanced y) :
    Reads (typedMember h)
      (r.toList ++ ' ' :: (v ++ (parametersText ps ++
        '(' :: (x ++ ')' :: (w ++ '{' :: (y ++ '}' :: t)))))) t
      fun m => ∃ decl, m = .ofMethod decl ∧ decl.modifiers = h.modifiers ∧
        decl.explicitInterface = none ∧ decl.identifier.text = String.ofList v ∧
        declared? decl.typeParameters = declared? ps ∧ decl.hasBody = true := by
  have hends := wordEnds_parametersText ps
    (t := '(' :: (x ++ ')' :: (w ++ '{' :: (y ++ '}' :: t)))) (.cons (by decide))
  have hno (k : String) (hk : isKeyword k = true) :=
    reads_acceptKeyword_false (fails_keyword_of_isIdentifier trivia_blank hname hends hk)
  refine (reads_typeExpr .nil hr (by rwa [String.ofList_toList]) hname).label.bind fun type _ => ?_
  refine (hno "operator" (by decide)).bind_eq ?_
  rw [if_neg (by decide)]
  refine (hno "this" (by decide)).bind_eq ?_
  rw [if_neg (by decide)]
  refine (reads_memberName trivia_blank hname hps).label.bind fun n hn => ?_
  obtain ⟨hinterface, htext, hdeclared⟩ := hn
  refine .of_stops (.cons (by decide)) ?_
  refine (reads_nextIs '(' _).bind_eq ?_
  rw [if_pos (by rfl)]
  refine (reads_methodDeclaration hx hw hy).mono fun m hm => ?_
  obtain ⟨decl, rfl, hmods, hint, hid, hpars, hbody⟩ := hm
  exact ⟨decl, rfl, hmods, by rw [hint, hinterface], by rw [hid, htext], by rw [hpars, hdeclared],
    hbody⟩

/-! ## Types -/

/-- The words of a type kind, in front of the name. -/
theorem reads_typeKind (kind : TypeKind) (hx : IsIdentifier x) (ht : WordEnds t) :
    Reads typeKind (kind.keyword.toList ++ ' ' :: (x ++ t)) (' ' :: (x ++ t)) (· = kind) := by
  have hno (k : String) (hk : isKeyword k = true) :=
    reads_acceptKeyword_false (fails_keyword_of_isIdentifier trivia_blank hx ht hk)
  have hword (k : String) (hk : IsWord k.toList) (u : List Char) :
      Reads word (k.toList ++ ' ' :: u) (' ' :: u) (· = k) := by
    have h := reads_word hk (wordEnds_blank (t := u))
    rwa [String.ofList_toList] at h
  cases kind with
  | classType =>
    refine .of_stops (.cons (by decide)) (.offset_bind fun start => ?_)
    exact (hword "class" (by decide) _).bind_eq (.pure rfl)
  | structType =>
    refine .of_stops (.cons (by decide)) (.offset_bind fun start => ?_)
    exact (hword "struct" (by decide) _).bind_eq (.pure rfl)
  | interfaceType =>
    refine .of_stops (.cons (by decide)) (.offset_bind fun start => ?_)
    exact (hword "interface" (by decide) _).bind_eq (.pure rfl)
  | recordClass =>
    refine .of_stops (.cons (by decide)) (.offset_bind fun start => ?_)
    refine (hword "record" (by decide) _).bind_eq ?_
    refine (hno "struct" (by decide)).bind_eq ?_
    exact (hno "class" (by decide)).bind_eq (.pure rfl)
  | recordStruct =>
    refine .of_stops (.cons (by decide)) (.offset_bind fun start => ?_)
    refine (hword "record" (by decide) ("struct".toList ++ ' ' :: (x ++ t))).bind_eq ?_
    have hstruct : Reads (acceptKeyword "struct") ([' '] ++ ("struct".toList ++ ' ' :: (x ++ t)))
        (' ' :: (x ++ t)) (· = true) :=
      reads_acceptKeyword trivia_blank (by decide) wordEnds_blank
    exact hstruct.bind_eq (.pure rfl)

theorem reads_baseList (hw : Trivia w) : Reads baseList (w ++ '{' :: t) ('{' :: t) (· = []) := by
  refine .skip hw (.of_stops stops_brace ?_)
  have hcolon : Reads (acceptHere ":") ('{' :: t) ('{' :: t) (· = false) :=
    reads_acceptHere_false rfl
  exact hcolon.bind_eq (.pure rfl)

/-- A symbol that comes at once. -/
theorem reads_labelled {what k : String} (hk : Stops (k.toList ++ t)) :
    Reads (label what (symbol k)) (k.toList ++ t) t fun _ => True :=
  (reads_symbol .nil hk).label

theorem reads_typeBody {self : Option String → Parser (List Member)} {name : Identifier}
    {P : List Member → Prop} (hself : ∀ c, Reads (self c) y ('}' :: t) P) :
    Reads (typeBody self name) ('{' :: y) t P := by
  have hsemicolon : Reads (acceptHere ";") ('{' :: y) ('{' :: y) (· = false) :=
    reads_acceptHere_false rfl
  refine hsemicolon.bind_eq ?_
  rw [if_neg (by decide)]
  refine (reads_labelled (k := "\x7b") stops_brace).bind fun _ _ => ?_
  refine (hself _).bind fun members hmembers => ?_
  have hclose : Stops ('}' :: t) := .cons (by decide)
  exact (reads_labelled (k := "\x7d") hclose).bind fun _ _ => .pure hmembers

/-- A type declaration without bases and constraints. -/
theorem reads_typeDeclaration {self : Option String → Parser (List Member)} {h : DeclHeader}
    {ps : Option TypeParameters} {P : List Member → Prop} (kind : TypeKind)
    (hname : IsIdentifier v) (hps : ∀ qs ∈ ps, IsParameterList qs) (hw : Trivia w)
    (hself : ∀ c, Reads (self c) y ('}' :: t) P) :
    Reads (typeDeclaration self h)
      (kind.keyword.toList ++ ' ' :: (v ++ (parametersText ps ++ (w ++ '{' :: y)))) t
      fun m => ∃ head members, m = .ofType head members ∧ head.modifiers = h.modifiers ∧
        head.kind = kind ∧ head.identifier.text = String.ofList v ∧
        declared? head.typeParameters = declared? ps ∧ P members := by
  have hends := wordEnds_parametersText ps (hw.wordEnds (t := '{' :: y) (.cons (by decide)))
  refine (reads_typeKind kind hname hends).bind_eq ?_
  refine (reads_identifier trivia_blank hname hends).label.bind fun i hi => ?_
  refine .typeParameters_bind hps hw stops_brace (by simp) fun qs hqs => ?_
  have hconstructor : Reads primaryConstructor ('{' :: y) ('{' :: y) (· = none) :=
    (reads_nextIs '(' _).bind_eq (.pure rfl)
  refine hconstructor.bind_eq ((reads_baseList .nil).bind_eq ?_)
  refine (reads_constraintClauses .nil).bind fun _ _ => .of_stops stops_brace ?_
  refine (reads_typeBody hself).bind fun members hmembers => ?_
  exact (reads_spanFrom h.start t).bind fun _ _ =>
    .pure ⟨_, members, rfl, rfl, rfl, hi, hqs, hmembers⟩

end DeclGen.Grammar
