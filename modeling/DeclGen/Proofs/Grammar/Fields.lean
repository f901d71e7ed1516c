import DeclGen.Proofs.Grammar.Initializers
import DeclGen.Proofs.Grammar.Members

/-!
# Fields whose initializers construct generic types

A field may declare several variables. That their initializers are not parsed shows where type
arguments stand between others: such an argument is taken for the next variable unless it is a
reserved word. And a variable with a reserved word behind `@` as its name is not recognised, so that
it becomes part of the initializer in front of it.

## Main definitions

* `WrittenVariable`, `fieldText`: variables with such initializers, and a field that declares them
* `declaratorsAt`: what they should be read as

## Main statements

* `field_of_variables`: which of these fields are read as they are written
-/

namespace DeclGen

open Grammar Grammar.Parser Text

/-- A variable of a field with an initializer that constructs a generic type without arguments for
its constructor. -/
structure WrittenVariable where
  name : List Char
  type : List Char
  first : List Char
  others : List (List Char)

namespace WrittenVariable

def opening (v : WrittenVariable) : List Char := "new ".toList ++ (v.type ++ ('<' :: v.first))

def initializer (v : WrittenVariable) : List Char := v.opening ++ argumentsEnd v.others

def text (v : WrittenVariable) : List Char := v.name ++ (" = ".toList ++ v.initializer)

/-- The variable is named by an identifier, the type is named by identifiers with dots between them,
and each type argument is an identifier or a built-in type. -/
structure WellFormed (v : WrittenVariable) : Prop where
  name : IsIdentifier v.name
  type : IsDottedName v.type
  first : IsTypeWord v.first
  others : ∀ a ∈ v.others, IsTypeWord a

def declarator (v : WrittenVariable) (o : Nat) : Declarator where
  identifier := ⟨String.ofList v.name, ⟨o, o + size v.name⟩⟩
  initializer := some ⟨o + size v.name + 3, o + size v.text⟩
  span := ⟨o, o + size v.text⟩

theorem size_text (v : WrittenVariable) : size v.text = size v.name + 3 + size v.initializer := by
  rw [text, size_append, size_append, Nat.add_assoc]
  rfl

theorem stops_opening (v : WrittenVariable) (s : List Char) : Stops (v.opening ++ s) :=
  .cons (c := 'n') (by decide)

theorem WellFormed.isPiece {v : WrittenVariable} (hv : v.WellFormed) : IsPiece v.opening := by
  have hnew : IsPiece "new ".toList :=
    .run (List.all_eq_true.mp (by decide)) fun _ => by simp [endsPiece]
  have hfirst : IsPiece ('<' :: v.first) :=
    .plain (fun _ => by decide) (by decide) hv.first.isPiece
  refine hnew.append (hv.type.isPiece.append hfirst fun _ _ => by simp) fun _ _ => ?_
  obtain ⟨z, zs, htype, hz, -⟩ := hv.type
  rw [htype, List.append_assoc, List.append_assoc]
  exact hz.head?_ne (by decide) (by decide)

end WrittenVariable

def commaVariables (vs : List WrittenVariable) : List Char :=
  vs.flatMap fun v => [',', ' '] ++ v.text

def fieldText (type : List Char) (v : WrittenVariable) (vs : List WrittenVariable) : List Char :=
  type ++ ([' '] ++ (v.text ++ (commaVariables vs ++ [';'])))

/-- The variables of a field, from the offset of the first one on. -/
def declaratorsAt : Nat → List WrittenVariable → List Declarator
  | _, [] => []
  | o, v :: vs => v.declarator o :: declaratorsAt (o + size v.text + 2) vs

namespace Grammar

variable {w x y s t : List Char} {o : Nat} {v : WrittenVariable} {vs : List WrittenVariable}
  {name : Identifier}

/-! ## Variables -/

/-- All variables of a field, once the name of the first one is read. -/
def declarators (name : Identifier) : Parser (List Declarator) := do
  let first ← declarator name
  let others ← many declarator?
  return first :: others

theorem declarator_eq (hw : Trivia w) (name : Identifier) (o : Nat) (s : List Char) :
    declarator name ⟨o, w ++ '=' :: s⟩ = (do
      let initializer ← fieldInitializer
      return (⟨name, some initializer, ⟨name.span.start, initializer.stop⟩⟩ : Declarator) :
        Parser Declarator) ⟨o + size w + 1, s⟩ := by
  have hstops : Stops ('=' :: s) := .cons (by decide)
  refine (bind_of_eq_ok (trivia_eq hw hstops o)).trans ?_
  refine (bind_of_eq_ok (p := nextIs '[') (a := false) rfl).trans ?_
  refine (bind_of_eq_ok (p := trivia) (trivia_eq .nil hstops _)).trans ?_
  rfl

/-- A semicolon ends the variables. -/
theorem many_declarator?_semicolon (o : Nat) (s : List Char) :
    many declarator? ⟨o, ';' :: s⟩ = .ok ([], ⟨o, ';' :: s⟩) := by
  have hcomma : accept "," ⟨o, ';' :: s⟩ = .ok (false, ⟨o, ';' :: s⟩) :=
    accept_of_fails (fails_symbol .nil (.cons (by decide)) rfl) o
  exact many_eq_nil (bind_of_eq_ok hcomma)

/-- Behind a comma comes the name of a variable, and then what a field starts with. -/
theorem many_declarator?_comma (hx : IsIdentifier x) (ht : WordEnds t) (o : Nat) :
    many declarator? ⟨o, [',', ' '] ++ (x ++ t)⟩ =
      declarators ⟨String.ofList x, ⟨o + 2, o + 2 + size x⟩⟩ ⟨o + 2 + size x, t⟩ := by
  have hcomma : accept "," ⟨o, [',', ' '] ++ (x ++ t)⟩ =
      .ok (true, ⟨o + 1, [' '] ++ (x ++ t)⟩) :=
    (reads_accept (x := ",") .nil (.cons (by decide))).eq_ok (x := [','])
      (fun _ _ => moves_accept (by decide)) o
  have hname := identifier_eq trivia_blank hx ht (o + 1)
  have hlabel : label "variable name" identifier ⟨o + 1, [' '] ++ (x ++ t)⟩ =
      .ok (⟨String.ofList x, ⟨o + 2, o + 2 + size x⟩⟩, ⟨o + 2 + size x, t⟩) :=
    label_of_eq_ok hname
  have hnext : declarator? ⟨o, [',', ' '] ++ (x ++ t)⟩ =
      (do return some (← declarator ⟨String.ofList x, ⟨o + 2, o + 2 + size x⟩⟩) :
        Parser (Option Declarator)) ⟨o + 2 + size x, t⟩ :=
    (bind_of_eq_ok hcomma).trans (bind_of_eq_ok hlabel)
  rw [many, Loop.declarators.rounds_eq, turn, bind_apply, manyRound, bind_apply, hnext, declarators]
  simp only [bind_apply]
  cases declarator ⟨String.ofList x, ⟨o + 2, o + 2 + size x⟩⟩ ⟨o + 2 + size x, t⟩ with
  | error => rfl
  | ok => rfl

theorem not_ends_of_extends (h : ExtendsInitializer t) : ¬ EndsInitializer t := by
  obtain ⟨u, rfl, hmore⟩ := h
  intro hlast
  have hpiece := hlast [] 0 .nil
  rw [hmore [] 0 .nil] at hpiece
  cases hpiece

/-- An initializer ends in front of the next variable, if that is recognised, and goes on with it if
not. -/
theorem endsInitializer_commaVariables_iff (hvs : ∀ u ∈ vs, u.WellFormed) :
    (EndsInitializer (commaVariables vs ++ ';' :: s) ∨
      ExtendsInitializer (commaVariables vs ++ ';' :: s)) ∧
    (EndsInitializer (commaVariables vs ++ ';' :: s) ↔ ∀ u ∈ vs.head?, ¬ IsReserved u.name) := by
  cases vs with
  | nil =>
    have hends : EndsInitializer (';' :: s) := endsInitializer_semicolon
    exact ⟨.inl hends, by simp [commaVariables, hends]⟩
  | cons u us =>
    rw [List.forall_mem_cons] at hvs
    have htext : commaVariables (u :: us) ++ ';' :: s =
        ',' :: ([' '] ++ (u.name ++ ([' '] ++
          '=' :: ' ' :: (u.initializer ++ (commaVariables us ++ ';' :: s))))) := by
      simp [commaVariables, WrittenVariable.text]
    have h := ends_or_extends (s := '=' :: ' ' :: (u.initializer ++
      (commaVariables us ++ ';' :: s))) trivia_blank (.inl hvs.1.name) trivia_blank
      (.cons (by decide)) (.cons (by decide))
    rw [← htext] at h
    have hhead : (∀ w ∈ (u :: us).head?, ¬ IsReserved w.name) ↔ ¬ IsReserved u.name := by simp
    rw [hhead]
    by_cases hreserved : IsReserved u.name
    · rw [if_pos (.inl hreserved)] at h
      exact ⟨.inr h, fun hends => absurd hends (not_ends_of_extends h),
        fun hnot => absurd hreserved hnot⟩
    · rw [if_neg (by simp [hreserved, followsVariable])] at h
      exact ⟨.inl h, fun _ => hreserved, fun _ => h⟩

/-- No type argument between two others is taken for a variable, and every variable is recognised
as one. -/
def ReadAsWritten (v : WrittenVariable) (vs : List WrittenVariable) : Prop :=
  (∀ u ∈ v :: vs, ∀ a ∈ u.others.dropLast, IsReserved a) ∧ ∀ u ∈ vs, ¬ IsReserved u.name

/-- The variables of a field, if the initializer of the first one starts at an offset. -/
def declaratorsFrom (name : Identifier) (o : Nat) (v : WrittenVariable)
    (vs : List WrittenVariable) : List Declarator :=
  ⟨name, some ⟨o, o + size v.initializer⟩, ⟨name.span.start, o + size v.initializer⟩⟩ ::
    declaratorsAt (o + size v.initializer + 2) vs

theorem declaratorsAt_cons (o : Nat) (v : WrittenVariable) (vs : List WrittenVariable) :
    declaratorsAt o (v :: vs) =
      declaratorsFrom ⟨String.ofList v.name, ⟨o, o + size v.name⟩⟩ (o + size v.name + 3) v vs := by
  simp only [declaratorsAt, WrittenVariable.declarator, declaratorsFrom, WrittenVariable.size_text,
    Nat.add_assoc]

/-- Behind the comma of a variable the rest of the field is read like a field of its own. -/
theorem many_commaVariables {u : WrittenVariable} (hu : u.WellFormed) (us : List WrittenVariable)
    (o : Nat) (s : List Char) :
    many declarator? ⟨o, commaVariables (u :: us) ++ s⟩ =
      declarators ⟨String.ofList u.name, ⟨o + 2, o + 2 + size u.name⟩⟩ ⟨o + 2 + size u.name,
        [' '] ++ '=' :: ([' '] ++ (u.initializer ++ (commaVariables us ++ s)))⟩ := by
  have htext : commaVariables (u :: us) ++ s = [',', ' '] ++ (u.name ++ ([' '] ++
      '=' :: ([' '] ++ (u.initializer ++ (commaVariables us ++ s))))) := by
    simp [commaVariables, WrittenVariable.text]
  rw [htext]
  exact many_declarator?_comma hu.name wordEnds_blank o

theorem blank_of_head?_commaVariables {c : Char}
    (hc : (commaVariables vs ++ ';' :: s).head? = some c) : isBlank c = false := by
  cases vs with
  | nil =>
    cases hc
    decide
  | cons u us =>
    cases hc
    decide

/-- One variable behind its name. -/
theorem declarator_initializer (hw : Trivia w) (hv : v.WellFormed)
    (hreserved : ∀ a ∈ v.others.dropLast, IsReserved a) (ht : EndsInitializer t) (name : Identifier)
    (o : Nat) :
    let start := o + size w + 2
    let stop := start + size v.initializer
    declarator name ⟨o, w ++ '=' :: ([' '] ++ (v.initializer ++ t))⟩ =
      .ok (⟨name, some ⟨start, stop⟩, ⟨name.span.start, stop⟩⟩, ⟨stop, t⟩) := by
  have hinitializer := fieldInitializer_eq trivia_blank v.stops_opening hv.isPiece hv.others
    hreserved ht (o + size w + 1)
  exact (declarator_eq hw name o _).trans (bind_of_eq_ok hinitializer)

/-- If a variable is read with its initializer, the initializer has been read to its end. -/
theorem ends_of_declarator {d : Declarator} {c : Cursor} (hw : Trivia w) (hv : v.WellFormed)
    (ht : EndsInitializer t ∨ ExtendsInitializer t)
    (hblank : ∀ c, t.head? = some c → isBlank c = false)
    (h : declarator name ⟨o, w ++ '=' :: ([' '] ++ (v.initializer ++ t))⟩ = .ok (d, c))
    (hd : d.initializer = some ⟨o + size w + 2, o + size w + 2 + size v.initializer⟩) :
    (∀ a ∈ v.others.dropLast, IsReserved a) ∧ EndsInitializer t ∧
      c = ⟨o + size w + 2 + size v.initializer, t⟩ := by
  rw [declarator_eq hw] at h
  obtain ⟨span, c₁, hspan, hpure⟩ := exists_of_bind_eq_ok h
  cases hpure
  obtain rfl := Option.some.inj hd
  exact ends_of_fieldInitializer trivia_blank v.stops_opening hv.isPiece hv.others ht hblank hspan

/-- Each variable is read as it was written, if the initializers before it end where they should. -/
theorem declarators_eq (hw : Trivia w) (hvs : ∀ u ∈ v :: vs, u.WellFormed)
    (hread : ReadAsWritten v vs) (name : Identifier) (o : Nat) (s : List Char) :
    let start := o + size w + 2
    declarators name
        ⟨o, w ++ '=' :: ([' '] ++ (v.initializer ++ (commaVariables vs ++ ';' :: s)))⟩ =
      .ok (declaratorsFrom name start v vs,
        ⟨start + size v.initializer + size (commaVariables vs), ';' :: s⟩) := by
  induction vs generalizing v w name o with
  | nil =>
    have hfirst := declarator_initializer hw (hvs v List.mem_cons_self)
      (hread.1 v List.mem_cons_self) (endsInitializer_semicolon (t := s)) name o
    refine (bind_of_eq_ok hfirst).trans ?_
    exact bind_of_eq_ok (many_declarator?_semicolon _ s)
  | cons u us ih =>
    rw [List.forall_mem_cons] at hvs
    have hends : EndsInitializer (commaVariables (u :: us) ++ ';' :: s) :=
      (endsInitializer_commaVariables_iff hvs.2).2.mpr fun u hu =>
        hread.2 u (List.mem_of_mem_head? hu)
    have hfirst := declarator_initializer hw hvs.1 (hread.1 v List.mem_cons_self) hends name o
    have hnames := hread.2
    rw [List.forall_mem_cons] at hnames
    have hothers := ih trivia_blank hvs.2
      ⟨fun u hu => hread.1 u (List.mem_cons_of_mem v hu), hnames.2⟩
    have hmany (o : Nat) : many declarator? ⟨o, commaVariables (u :: us) ++ ';' :: s⟩ =
        .ok (declaratorsAt (o + 2) (u :: us),
          ⟨o + size (commaVariables (u :: us)), ';' :: s⟩) := by
      have hsize : o + size (commaVariables (u :: us)) =
          o + 2 + size u.name + 1 + 2 + size u.initializer + size (commaVariables us) := by
        have hcomma : size [',', ' '] = 2 := rfl
        simp only [commaVariables, List.flatMap_cons, size_append, u.size_text, hcomma]
        omega
      rw [many_commaVariables (hvs.2 u List.mem_cons_self), hothers, declaratorsAt_cons, hsize]
      rfl
    exact (bind_of_eq_ok hfirst).trans (bind_of_eq_ok (hmany _))

/-- If the variables are read as expected, they are recognised and their type arguments are not. -/
theorem readAsWritten_of_declarators {c : Cursor} (hw : Trivia w)
    (hvs : ∀ u ∈ v :: vs, u.WellFormed)
    (h : declarators name
        ⟨o, w ++ '=' :: ([' '] ++ (v.initializer ++ (commaVariables vs ++ ';' :: s)))⟩ =
      .ok (declaratorsFrom name (o + size w + 2) v vs, c)) : ReadAsWritten v vs := by
  induction vs generalizing v w name o with
  | nil =>
    obtain ⟨d, c₁, hfirst, hrest⟩ := exists_of_bind_eq_ok h
    obtain ⟨ds, c₂, -, hpure⟩ := exists_of_bind_eq_ok hrest
    have hd := (List.cons.inj (Prod.mk.inj (Except.ok.inj hpure)).1).1
    rw [List.forall_mem_cons] at hvs
    have hends := ends_of_declarator hw hvs.1 (endsInitializer_commaVariables_iff hvs.2).1
      (fun _ => blank_of_head?_commaVariables) hfirst (congrArg Declarator.initializer hd)
    exact ⟨by simpa using hends.1, by simp⟩
  | cons u us ih =>
    rw [List.forall_mem_cons] at hvs
    obtain ⟨d, c₁, hfirst, hrest⟩ := exists_of_bind_eq_ok h
    obtain ⟨ds, c₂, hmany, hpure⟩ := exists_of_bind_eq_ok hrest
    obtain ⟨hlist, rfl⟩ := Prod.mk.inj (Except.ok.inj hpure)
    obtain ⟨hd, hds⟩ := List.cons.inj hlist
    obtain ⟨hreserved, hends, rfl⟩ := ends_of_declarator hw hvs.1
      (endsInitializer_commaVariables_iff hvs.2).1 (fun _ => blank_of_head?_commaVariables) hfirst
      (congrArg Declarator.initializer hd)
    rw [many_commaVariables (hvs.2 u List.mem_cons_self), hds, declaratorsAt_cons] at hmany
    obtain ⟨hothers, hnames⟩ := ih trivia_blank hvs.2 hmany
    have hu : ¬ IsReserved u.name := (endsInitializer_commaVariables_iff hvs.2).2.mp hends u rfl
    exact ⟨List.forall_mem_cons.mpr ⟨hreserved, hothers⟩, List.forall_mem_cons.mpr ⟨hu, hnames⟩⟩

/-! ## Fields -/

/-- A field apart from its variables: only the semicolon and the span are left. -/
theorem fieldDeclaration_eq (h : DeclHeader) (type : TypeExpr) (name : MemberName) (c : Cursor) :
    fieldDeclaration h type name c = (do
      let ds ← declarators name.identifier
      label "';' after the field declaration" (symbol ";")
      return .ofField ⟨h.attributes, h.modifiers, type, ds, ← spanFrom h.start⟩ :
        Parser Member) c := by
  rw [fieldDeclaration, declarators]
  simp only [bind_apply]
  cases declarator name.identifier c with
  | error => rfl
  | ok r =>
    dsimp only
    cases many declarator? r.2 with
    | error => rfl
    | ok => rfl

/-- Behind its type and the name of its first variable a field is read as it is written exactly if
no type argument is taken for a variable and every variable is recognised. -/
theorem fieldDeclaration_iff (hw : Trivia w) (hvs : ∀ u ∈ v :: vs, u.WellFormed) (h : DeclHeader)
    (type : TypeExpr) (name : MemberName) (o : Nat) (s : List Char) :
    let start := o + size w + 2
    let stop := start + size v.initializer + size (commaVariables vs) + 1
    fieldDeclaration h type name
        ⟨o, w ++ '=' :: ([' '] ++ (v.initializer ++ (commaVariables vs ++ ';' :: s)))⟩ =
      .ok (.ofField ⟨h.attributes, h.modifiers, type, declaratorsFrom name.identifier start v vs,
        ⟨h.start, stop⟩⟩, ⟨stop, s⟩) ↔ ReadAsWritten v vs := by
  intro start stop
  rw [fieldDeclaration_eq]
  constructor
  · intro hread
    obtain ⟨ds, c, hds, hrest⟩ := exists_of_bind_eq_ok hread
    obtain ⟨_, c₁, -, hrest⟩ := exists_of_bind_eq_ok hrest
    obtain ⟨_, c₂, -, hpure⟩ := exists_of_bind_eq_ok hrest
    have hfield := Member.ofField.inj (Prod.mk.inj (Except.ok.inj hpure)).1
    obtain rfl : ds = _ := congrArg FieldDecl.declarators hfield
    exact readAsWritten_of_declarators hw hvs hds
  · intro hread
    have hsemicolon (o : Nat) : label "';' after the field declaration" (symbol ";") ⟨o, ';' :: s⟩ =
        .ok ((), ⟨o + 1, s⟩) := by
      have hread : Reads (label "';' after the field declaration" (symbol ";"))
          (";".toList ++ s) s (· = ()) :=
        (reads_labelled (.cons (by decide))).mono fun _ _ => rfl
      exact hread.eq_ok (fun _ _ => (moves_symbol (by decide)).label) o
    refine (bind_of_eq_ok (declarators_eq hw hvs hread name.identifier o s)).trans ?_
    exact (bind_of_eq_ok (hsemicolon _)).trans rfl

/-! ## The head of a field -/

def wordType (o : Nat) (x : List Char) : TypeExpr :=
  let span : Span := ⟨o, o + size x⟩
  if isPredefinedType (String.ofList x) then .predefined (String.ofList x) span
  else .named none [.mk ⟨String.ofList x, span⟩ []] span

theorem predefinedType_eq (hpre : isPredefinedType (String.ofList x) = true) (ht : WordEnds t)
    (o : Nat) : predefinedType ⟨o, x ++ t⟩ = .ok (wordType o x, ⟨o + size x, t⟩) := by
  have hx := isWord_of_isPredefinedType hpre
  rw [String.toList_ofList] at hx
  refine (bind_of_eq_ok (p := offset) rfl).trans ((bind_of_eq_ok (word_eq hx ht o)).trans ?_)
  simp only [hpre, wordType, if_true]
  rfl

/-- A name in front of an identifier is a type without type arguments. -/
theorem namedTypeOf_eq (hx : IsIdentifier x) (hpre : isPredefinedType (String.ofList x) = false)
    (hy : IsIdentifier y) (o : Nat) :
    namedTypeOf typeExpr ⟨o, x ++ ([' '] ++ (y ++ t))⟩ =
      .ok (wordType o x, ⟨o + size x, [' '] ++ (y ++ t)⟩) := by
  have hsymbol {c : Char} (k : String) (z : List Char) (hk : k.toList = c :: z)
      (hc : isWordStart c = false) (hat : c ≠ '@') : Fails (symbol k) ([' '] ++ (y ++ t)) := by
    refine fails_symbol trivia_blank hy.stops ?_
    rw [hk]
    exact isPrefixOf_of_head?_ne (hy.head?_ne hc hat)
  have hname := identifier_eq (w := []) .nil hx (wordEnds_blank (t := y ++ t)) o
  have hcolons := accept_of_fails (hsymbol "::" [':'] rfl (by decide) (by decide)) (o + size x)
  have harguments : Fails (typeArgumentsOf typeExpr) ([' '] ++ (y ++ t)) :=
    .bind_left (hsymbol "<" [] rfl (by decide) (by decide))
  have hdot : Fails dottedIdentifier ([' '] ++ (y ++ t)) :=
    .bind_left (hsymbol "." [] rfl (by decide) (by decide))
  have htail : segmentTail typeExpr ⟨o + size x, [' '] ++ (y ++ t)⟩ =
      .ok ([], ⟨o + size x, [' '] ++ (y ++ t)⟩) :=
    many_eq_nil (bind_of_eq_ok (attempt_of_fails hdot _))
  refine (bind_of_eq_ok (trivia_eq .nil hx.stops o)).trans ?_
  refine (bind_of_eq_ok (p := offset) rfl).trans ?_
  refine (bind_of_eq_ok (label_of_eq_ok hname)).trans ?_
  refine (bind_of_eq_ok hcolons).trans ?_
  refine (bind_of_eq_ok (p := optionalTypeArguments typeExpr) (a := [])
    (bind_of_eq_ok (attempt_of_fails harguments _))).trans ?_
  refine (bind_of_eq_ok htail).trans ?_
  rw [wordType, hpre]
  rfl

/-- A word that is the type of a member, if an identifier follows. -/
theorem typeExpr_eq (hx : IsTypeWord x) (hy : IsIdentifier y) (o : Nat) :
    typeExpr ⟨o, x ++ ([' '] ++ (y ++ t))⟩ =
      .ok (wordType o x, ⟨o + size x, [' '] ++ (y ++ t)⟩) := by
  have hcore : coreType typeExpr ⟨o, x ++ ([' '] ++ (y ++ t))⟩ =
      .ok (wordType o x, ⟨o + size x, [' '] ++ (y ++ t)⟩) := by
    have htuple : nextIs '(' ⟨o, x ++ ([' '] ++ (y ++ t))⟩ =
        .ok (false, ⟨o, x ++ ([' '] ++ (y ++ t))⟩) :=
      nextIs_of_head?_ne (hx.head?_ne (by decide) (by decide)) o
    refine (bind_of_eq_ok htuple).trans ?_
    by_cases hpre : isPredefinedType (String.ofList x) = true
    · have hread := predefinedType_eq hpre (wordEnds_blank (t := y ++ t)) o
      exact bind_of_eq_ok (attempt_of_eq_ok hread)
    · have hname := hx.resolve_right hpre
      have hno := fails_predefinedType hname (Bool.eq_false_iff.mpr hpre)
        (wordEnds_blank (t := y ++ t))
      refine (bind_of_eq_ok (attempt_of_fails hno o)).trans ?_
      exact namedTypeOf_eq hname (Bool.eq_false_iff.mpr hpre) hy o
  have hsuffixes : many (attempt typeSuffix) ⟨o + size x, [' '] ++ (y ++ t)⟩ =
      .ok ([], ⟨o + size x, [' '] ++ (y ++ t)⟩) :=
    many_eq_nil (attempt_of_fails (fails_typeSuffix trivia_blank hy) _)
  have hstep := descends_typeExpr ⟨o, x ++ ([' '] ++ (y ++ t))⟩ (fun _ => typeExpr)
    (fun _ _ _ => rfl) ()
  refine hstep.symm.trans ?_
  refine (bind_of_eq_ok (trivia_eq .nil hx.stops o)).trans ?_
  refine (bind_of_eq_ok (p := offset) rfl).trans ?_
  exact (bind_of_eq_ok hcore).trans (bind_of_eq_ok hsuffixes)

/-- The name of a variable, and the blank behind it. -/
theorem memberName_eq (hx : IsIdentifier x) (o : Nat) (s : List Char) :
    memberName ⟨o, [' '] ++ (x ++ ([' '] ++ '=' :: s))⟩ =
      .ok (⟨none, ⟨String.ofList x, ⟨o + 1, o + 1 + size x⟩⟩, none⟩,
        ⟨o + 1 + size x + 1, '=' :: s⟩) := by
  have hassign : Stops ('=' :: s) := .cons (by decide)
  have hname := identifier_eq .nil hx (wordEnds_blank (t := '=' :: s)) (o + 1)
  have hbrackets : nameBrackets ⟨o + 1 + size x + 1, '=' :: s⟩ =
      .ok (none, ⟨o + 1 + size x + 1, '=' :: s⟩) :=
    bind_of_eq_ok (nextIs_of_head?_ne (by simp) _)
  have hsegment : nameSegment ⟨o + 1, x ++ [' '] ++ '=' :: s⟩ =
      .ok ((⟨String.ofList x, ⟨o + 1, o + 1 + size x⟩⟩, none),
        ⟨o + 1 + size x + 1, '=' :: s⟩) := by
    rw [List.append_assoc]
    refine (bind_of_eq_ok hname).trans ?_
    exact (bind_of_eq_ok (trivia_eq trivia_blank hassign _)).trans (bind_of_eq_ok hbrackets)
  have htext := withText_eq hsegment
  rw [List.append_assoc] at htext
  have hfirst : nameSegmentText ⟨o, [' '] ++ (x ++ ([' '] ++ '=' :: s))⟩ =
      .ok (((⟨String.ofList x, ⟨o + 1, o + 1 + size x⟩⟩, none), x ++ [' ']),
        ⟨o + 1 + size x + 1, '=' :: s⟩) :=
    (bind_of_eq_ok (trivia_eq trivia_blank hx.stops o)).trans htext
  have hdot := accept_of_fails (k := ".") (fails_symbol .nil hassign rfl) (o + 1 + size x + 1)
  have hround : sepByRound nameSegmentText (accept ".")
      ⟨o, [' '] ++ (x ++ ([' '] ++ '=' :: s))⟩ =
      .ok (.last ((⟨String.ofList x, ⟨o + 1, o + 1 + size x⟩⟩, none), x ++ [' ']),
        ⟨o + 1 + size x + 1, '=' :: s⟩) :=
    (bind_of_eq_ok hfirst).trans (bind_of_eq_ok hdot)
  exact bind_of_eq_ok (Loop.memberName.rounds_last hround)

/-- Two words and an assignment are a field. -/
theorem typedMember_eq (h : DeclHeader) (hx : IsTypeWord x) (hy : IsIdentifier y) (o : Nat)
    (s : List Char) :
    typedMember h ⟨o, x ++ ([' '] ++ (y ++ ([' '] ++ '=' :: ' ' :: s)))⟩ =
      fieldDeclaration h (wordType o x)
        ⟨none, ⟨String.ofList y, ⟨o + size x + 1, o + size x + 1 + size y⟩⟩, none⟩
        ⟨o + size x + 1 + size y + 1, '=' :: ' ' :: s⟩ := by
  have hno (k : String) (hk : isKeyword k = true) := acceptKeyword_of_fails
    (fails_keyword_of_isIdentifier trivia_blank hy (wordEnds_blank (t := '=' :: ' ' :: s)) hk)
    (o + size x)
  refine (bind_of_eq_ok (label_of_eq_ok (typeExpr_eq hx hy o))).trans ?_
  refine (bind_of_eq_ok (hno "operator" (by decide))).trans ?_
  refine (bind_of_eq_ok (hno "this" (by decide))).trans ?_
  refine (bind_of_eq_ok (label_of_eq_ok (memberName_eq hy (o + size x) (' ' :: s)))).trans ?_
  exact bind_of_eq_ok (trivia_eq .nil (.cons (by decide)) _)

/-- A word that may be the type of a field: not one that is a modifier in front of another word or
that declares a type there. -/
structure StartsField (x : List Char) : Prop where
  isTypeWord : IsTypeWord x
  notModifier : ModifierKind.ofText? (String.ofList x) = none
  notRecord : x ≠ "record".toList

def declarationWords : List String :=
  ["namespace", "class", "struct", "interface", "record", "enum", "delegate", "event", "implicit",
    "explicit"]

theorem StartsField.not_mem_declarationWords (hx : StartsField x) :
    String.ofList x ∉ declarationWords := by
  have hall : ∀ k ∈ declarationWords, k = "record" ∨ isKeyword k = true := by decide
  have hnone : ∀ k ∈ declarationWords, isPredefinedType k = false := by decide
  intro hmem
  rcases hx.isTypeWord with (⟨-, hplain⟩ | ⟨y, rfl, -⟩) | hpre
  · rcases hall _ hmem with hrecord | hkey
    · exact hx.notRecord (by rw [← hrecord, String.toList_ofList])
    · rw [hplain] at hkey
      cases hkey
  · have hat : ∀ k ∈ declarationWords, k.toList.head? ≠ some '@' := by decide
    exact hat _ hmem (by rw [String.toList_ofList]; rfl)
  · rw [hnone _ hmem] at hpre
    cases hpre

theorem modifiers_eq_nil (hx : StartsField x) (ht : WordEnds t) (o : Nat) :
    modifiers ⟨o, x ++ t⟩ = .ok ([], ⟨o, x ++ t⟩) := by
  have hfails : Fails modifier (x ++ t) := by
    obtain ⟨y, -, hy, rfl | rfl⟩ := hx.isTypeWord.exists_word
    · exact fails_modifier hy hx.notModifier ht
    · exact .offset_bind fun _ => .bind_left (fails_word (.cons (by decide)))
  have htrivia := trivia_eq .nil (hx.isTypeWord.stops (t := t)) o
  exact many_eq_nil ((bind_of_eq_ok htrivia).trans (attempt_of_fails hfails o))

theorem exists_peekWord (hx : IsTypeWord x) (ht : WordEnds t) (o : Nat) :
    ∃ r, peekWord ⟨o, x ++ t⟩ = .ok (r, ⟨o, x ++ t⟩) ∧ ∀ k ∈ r, k = String.ofList x := by
  have htrivia := trivia_eq .nil (hx.stops (t := t)) o
  obtain ⟨y, -, hy, rfl | rfl⟩ := hx.exists_word
  · have hword : (do trivia; word) ⟨o, x ++ t⟩ = .ok (String.ofList x, ⟨o + size x, t⟩) :=
      (bind_of_eq_ok htrivia).trans (word_eq hy ht o)
    exact ⟨_, lookahead_of_eq_ok hword, by simp⟩
  · have hfails : Fails (do trivia; word) ('@' :: y ++ t) :=
      .of_stops hx.stops (fails_word (.cons (by decide)))
    exact ⟨_, lookahead_of_fails hfails o, by simp⟩

/-- A word in front of an identifier is not the name of a constructor. -/
theorem acceptConstructor_eq_false (container : Option String) (hx : IsTypeWord x)
    (hy : IsIdentifier y) (o : Nat) :
    acceptConstructor container ⟨o, x ++ ([' '] ++ (y ++ t))⟩ =
      .ok (false, ⟨o, x ++ ([' '] ++ (y ++ t))⟩) := by
  cases container with
  | none => rfl
  | some name =>
    have hfails : Fails (constructorName name) (x ++ ([' '] ++ (y ++ t))) := by
      by_cases hname : IsIdentifier x
      · have hparen := hy.head?_ne (t := t) (c := '(') (by decide) (by decide)
        have hread := reads_identifier (w := []) .nil hname (wordEnds_blank (t := y ++ t))
        have hblank := reads_trivia trivia_blank (hy.stops (t := t))
        refine .bind hread fun i _ => .bind hblank fun _ _ => ?_
        refine .bind_eq (reads_nextIs '(' _) ?_
        rw [beq_eq_false_iff_ne.mpr hparen, Bool.and_false]
        exact .fail
      · obtain ⟨z, -, hz, rfl | rfl⟩ := hx.exists_word
        · have hkey : isKeyword (String.ofList x) = true := by
            rw [← Bool.not_eq_false]
            exact fun hplain => hname (.inl ⟨hz, hplain⟩)
          exact .bind_left (fails_identifier (w := []) .nil hz hkey wordEnds_blank)
        · exact absurd (.inr ⟨z, rfl, hz⟩) hname
    exact bind_of_eq_ok (attempt_of_fails hfails o)

/-- Two words and an assignment are read as a field in any container. -/
theorem memberDeclaration_eq (container : Option String) (hx : StartsField x)
    (hy : IsIdentifier y) (o : Nat) (s : List Char) :
    memberDeclaration container ⟨o, x ++ ([' '] ++ (y ++ ([' '] ++ '=' :: ' ' :: s)))⟩ =
      fieldDeclaration ⟨o, [], []⟩ (wordType o x)
        ⟨none, ⟨String.ofList y, ⟨o + size x + 1, o + size x + 1 + size y⟩⟩, none⟩
        ⟨o + size x + 1 + size y + 1, '=' :: ' ' :: s⟩ := by
  have hends := wordEnds_blank (t := y ++ ([' '] ++ '=' :: ' ' :: s))
  have htype := hx.isTypeWord
  have hattributes : attributeLists ⟨o, x ++ ([' '] ++ (y ++ ([' '] ++ '=' :: ' ' :: s)))⟩ =
      .ok ([], ⟨o, x ++ ([' '] ++ (y ++ ([' '] ++ '=' :: ' ' :: s)))⟩) :=
    many_eq_nil ((bind_of_eq_ok (trivia_eq .nil htype.stops o)).trans
      (bind_of_eq_ok (nextIs_of_head?_ne (htype.head?_ne (by decide) (by decide)) o)))
  obtain ⟨r, hpeek, hr⟩ := exists_peekWord htype hends o
  have hword (k : String) (hk : k ∈ declarationWords) : r ≠ some k := by
    rintro rfl
    rw [hr k rfl] at hk
    exact hx.not_mem_declarationWords hk
  refine (bind_of_eq_ok (trivia_eq .nil htype.stops o)).trans ?_
  refine (bind_of_eq_ok (p := offset) rfl).trans ?_
  refine (bind_of_eq_ok hattributes).trans ?_
  refine (bind_of_eq_ok (modifiers_eq_nil hx hends o)).trans ?_
  refine (bind_of_eq_ok hpeek).trans ?_
  split
  case h_11 =>
    have htilde := nextIs_of_head?_ne (htype.head?_ne (c := '~') (t := [' '] ++ (y ++ ([' '] ++
      '=' :: ' ' :: s))) (by decide) (by decide)) o
    refine (bind_of_eq_ok htilde).trans ?_
    refine (bind_of_eq_ok (acceptConstructor_eq_false container htype hy o)).trans ?_
    exact typedMember_eq _ htype hy o s
  all_goals exact absurd rfl (hword _ (by decide))

/-- A field whose variables are initialized with generic types is read as it is written, each
variable with the span of its own initializer, exactly if every type argument between two others is
a reserved word and every variable behind the first one has a name that is none. -/
theorem field_of_variables (hx : StartsField x) (hvs : ∀ u ∈ v :: vs, u.WellFormed)
    (container : Option String) (o : Nat) (s : List Char) :
    let text := fieldText x v vs
    memberDeclaration container ⟨o, text ++ s⟩ =
      .ok (.ofField ⟨[], [], wordType o x, declaratorsAt (o + size x + 1) (v :: vs),
        ⟨o, o + size text⟩⟩, ⟨o + size text, s⟩) ↔ ReadAsWritten v vs := by
  intro text
  have htext : text ++ s = x ++ ([' '] ++ (v.name ++ ([' '] ++ '=' :: ' ' ::
      (v.initializer ++ (commaVariables vs ++ ';' :: s))))) := by
    simp [text, fieldText, WrittenVariable.text]
  have hsize : o + size text = o + size x + 1 + size v.name + 1 + size ([] : List Char) + 2 +
      size v.initializer + size (commaVariables vs) + 1 := by
    have hblank : size [' '] = 1 := rfl
    have hsemicolon : size [';'] = 1 := rfl
    simp only [text, fieldText, size_append, v.size_text, hblank, hsemicolon, size_nil]
    omega
  have hname := (hvs v List.mem_cons_self).name
  have hfield := fieldDeclaration_iff .nil hvs ⟨o, [], []⟩ (wordType o x)
    ⟨none, ⟨String.ofList v.name, ⟨o + size x + 1, o + size x + 1 + size v.name⟩⟩, none⟩
    (o + size x + 1 + size v.name + 1) s
  rw [htext, memberDeclaration_eq container hx hname, declaratorsAt_cons, hsize]
  exact hfield

/-- A field with type arguments that are reserved words, and a variable that is not called so
although `@` stands in front of its name. -/
theorem field_of_variables_reserved :
    let text := "T @class = new A.B<C, int, @new, D>(), @g = new @H<E, F>();"
    memberDeclaration none (.ofString text) =
      .ok (.ofField ⟨[], [], .named none [.mk ⟨"T", ⟨0, 1⟩⟩ []] ⟨0, 1⟩,
        [⟨⟨"@class", ⟨2, 8⟩⟩, some ⟨11, 37⟩, ⟨2, 37⟩⟩,
          ⟨⟨"@g", ⟨39, 41⟩⟩, some ⟨44, 58⟩, ⟨39, 58⟩⟩], ⟨0, 59⟩⟩, ⟨59, []⟩) := by
  have plain {y : List Char} (hy : IsWord y) (hkey : isKeyword (String.ofList y) = false) :
      IsIdentifier y := .inl ⟨hy, hkey⟩
  have verbatim {y : List Char} (hy : IsWord y) : IsIdentifier ('@' :: y) := .inr ⟨y, rfl, hy⟩
  have hx : StartsField ['T'] := ⟨.inl (plain (by decide) (by decide)), by decide, by decide⟩
  have hv : WrittenVariable.WellFormed ⟨"@class".toList, "A.B".toList, ['C'],
      ["int".toList, "@new".toList, ['D']]⟩ := by
    refine ⟨verbatim (by decide), ⟨['A'], [['B']], rfl, plain (by decide) (by decide), ?_⟩,
      .inl (plain (by decide) (by decide)), ?_⟩
    · simpa using plain (y := ['B']) (by decide) (by decide)
    · simpa using ⟨.inr (by decide), .inl (verbatim (y := "new".toList) (by decide)),
        .inl (plain (y := ['D']) (by decide) (by decide))⟩
  have hu : WrittenVariable.WellFormed ⟨"@g".toList, "@H".toList, ['E'], [['F']]⟩ := by
    refine ⟨verbatim (by decide), (verbatim (y := ['H']) (by decide)).isDottedName,
      .inl (plain (by decide) (by decide)), ?_⟩
    simpa using .inl (plain (y := ['F']) (by decide) (by decide))
  have h := field_of_variables hx (List.forall_mem_cons.mpr ⟨hv, List.forall_mem_singleton.mpr hu⟩)
    none 0 []
  exact h.mpr ⟨by decide, by decide⟩

/-- Of two fields one is not read, because a type argument looks like a variable. -/
theorem exists_split_arguments :
    ["T f = new G<int, int, int>();", "T f = new G<A, B, C>();"].map
      (fun text => (memberDeclaration none (.ofString text)).toOption.isSome) = [true, false] := by
  decide +kernel

end Grammar

end DeclGen
