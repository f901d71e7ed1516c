import DeclGen.Cleanup.Contribution
import DeclGen.Proofs.Grammar.ExposedCommas
import DeclGen.Proofs.Grammar.ParsedTypes
import DeclGen.Proofs.Text.Split
import Mathlib.Algebra.GroupWithZero.Nat

/-!
# Counting parameters

A parameter list is read as a region and cut into parts, and the parts are counted. A list is cut
further where a comma of a type is exposed, and a list without parameters has no part only if it
consists of blanks: a comment in it counts as a parameter.

## Main definitions

* `ListedParameter`, `parameterListText`: parameter lists with blanks and comments between the
  parameters
* `countedParameters`: what the parts of such a list amount to

## Main statements

* `parameters_counted`: the parameter counts of methods and primary constructors
-/

namespace DeclGen

open Grammar Grammar.Parser Text
open Grammar.Cutting (commaParts_ne_nil)

/-- A parameter in a list: its type and name, and what stands before and behind them. -/
structure ListedParameter where
  before : List Char
  type : TypeExpr
  name : List Char
  behind : List Char

namespace ListedParameter

def text (p : ListedParameter) : List Char :=
  p.before ++ (p.type.text.toList ++ ' ' :: (p.name ++ p.behind))

/-- The type was read from some text, the name is an identifier, and around them are blanks and
comments. -/
structure WellFormed (p : ListedParameter) : Prop where
  before : IsGap p.before
  type : ∃ c c', typeExpr c = .ok (p.type, c')
  name : IsIdentifier p.name
  behind : IsGap p.behind

end ListedParameter

/-- Parameters with commas between them; `gap` stands where there are none. -/
def parameterListText (gap : List Char) : List ListedParameter → List Char
  | [] => gap
  | p :: ps => p.text ++ ps.flatMap fun q => ',' :: q.text

def countedParameters (gap : List Char) : List ListedParameter → Nat
  | [] => if gap.all isBlank then 0 else 1
  | p :: ps => (p :: ps).length + ((p :: ps).map (·.type.exposedCommas)).sum

namespace Grammar

variable {x : List Char}

/-! ## Parts and their text -/

theorem join_prependPart (x : List Char) {parts : List (List Char)} (h : parts ≠ []) :
    join ',' (prependPart x parts) = x ++ join ',' parts := by
  cases parts with
  | nil => exact absurd rfl h
  | cons part parts => cases parts <;> simp [prependPart, join]

theorem join_cons (part : List Char) {parts : List (List Char)} (h : parts ≠ []) :
    join ',' (part :: parts) = part ++ ',' :: join ',' parts := by
  cases parts with
  | nil => exact absurd rfl h
  | cons next parts => rfl

/-- Nothing but the separating commas is lost where a list is cut. -/
theorem join_commaParts (angles : Nat) (w : Bool) (s : List Char) :
    join ',' (commaParts angles w s) = s := by
  have hprepend (x : List Char) (angles : Nat) (w : Bool) (s : List Char) :=
    join_prependPart x (commaParts_ne_nil angles w s)
  fun_induction commaParts angles w s with
  | case1 => rfl
  | case2 angles w c s _ ih | case3 angles w c s _ _ ih | case8 angles w c s _ _ _ _ _ ih =>
    rw [hprepend, ih, List.singleton_append]
  | case4 angles w c s _ _ hcomma ih =>
    obtain rfl : c = ',' := by simpa using (Bool.and_eq_true_iff.mp hcomma).1
    rw [join_cons _ (commaParts_ne_nil _ _ _), ih, List.nil_append]
  | case5 angles w c s _ _ _ _ n _ ih | case7 angles w c s _ _ _ _ n _ ih =>
    rw [hprepend, ih, List.cons_append, List.take_append_drop]
  | case6 => rfl

/-- A list that consists of blanks has no parts, any other one those between its commas. -/
theorem length_splitCommas (s : List Char) : (splitCommas s).length =
    if s.all isBlank && (commaParts 0 false s).length == 1 then 0
    else (commaParts 0 false s).length := by
  have hjoin := join_commaParts 0 false s
  rw [splitCommas]
  split
  next part hpart =>
    rw [hpart] at hjoin ⊢
    obtain rfl : part = s := hjoin
    by_cases hall : part.all isBlank = true
    · simp [hall, trim_isEmpty_iff.mpr (List.all_eq_true.mp hall)]
    · have hkeeps : ¬ (trim part).isEmpty = true := fun h =>
        hall (List.all_eq_true.mpr (trim_isEmpty_iff.mp h))
      simp [hall, hkeeps]
  next hmany =>
    have hne : (commaParts 0 false s).length ≠ 1 := by
      intro hone
      obtain ⟨part, hpart⟩ := List.length_eq_one_iff.mp hone
      exact hmany part hpart
    simp [hne]

/-! ## Parameter lists -/

end Grammar

namespace ListedParameter

variable {p : ListedParameter}

theorem WellFormed.readable (hp : p.WellFormed) : p.type.Readable := by
  obtain ⟨c, c', h⟩ := hp.type
  exact yields_typeExpr c p.type c' h

theorem WellFormed.balanced (hp : p.WellFormed) : Balanced p.text :=
  hp.before.balanced.append (hp.readable.balanced.append
    (.plain (by decide) (hp.name.balanced.append hp.behind.balanced)))

theorem WellFormed.counts (hp : p.WellFormed) : Counts p.text p.type.tally :=
  (Counts.of_isGap hp.before).append (hp.readable.counts.append
    (((Counts.of_isIdentifier hp.name).append (.of_isGap hp.behind)).cons_plain (c := ' ')
      (by decide) (by decide)))

theorem WellFormed.exists_not_blank (hp : p.WellFormed) : ∃ c ∈ p.text, isBlank c = false := by
  have hname : ∃ c ∈ p.name, isBlank c = false := by
    rcases hp.name with ⟨h, -⟩ | ⟨y, hy, -⟩
    · obtain ⟨c, y, hy⟩ := List.exists_cons_of_ne_nil (l := p.name) (by
        rintro hnil
        rw [hnil] at h
        exact h.elim)
      refine ⟨c, by simp [hy], Bool.eq_false_iff.mpr fun hblank => ?_⟩
      have hword := h.forall_isWordPart c (by simp [hy])
      rw [isWordPart_of_isBlank hblank] at hword
      cases hword
    · exact ⟨'@', by simp [hy], by decide⟩
  obtain ⟨c, hc, hblank⟩ := hname
  exact ⟨c, by simp [text, hc], hblank⟩

end ListedParameter

/-- What parameters with a comma in front of each do to a tally. -/
def parametersTally (ps : List ListedParameter) (a : Tally) : Tally :=
  ps.foldl (fun a q => q.type.tally a.comma) a

/-- Outside angle brackets every comma counts, those between the parameters and those in their
types. -/
theorem parametersTally_zero (ps : List ListedParameter) (n : Nat) :
    parametersTally ps ⟨0, n⟩ =
      ⟨0, n + (ps.length + (ps.map (·.type.exposedCommas)).sum)⟩ := by
  induction ps generalizing n with
  | nil => rfl
  | cons p ps ih =>
    have hcomma : Tally.comma ⟨0, n⟩ = ⟨0, n + 1⟩ := rfl
    rw [parametersTally, List.foldl_cons, hcomma, p.type.tame_tally.apply_zero]
    refine (ih _).trans (congrArg (Tally.mk 0) ?_)
    simp only [TypeExpr.exposedCommas, List.length_cons, List.map_cons, List.sum_cons]
    omega

theorem counts_parametersTally {ps : List ListedParameter} (hps : ∀ p ∈ ps, p.WellFormed) :
    Counts (ps.flatMap fun q => ',' :: q.text) (parametersTally ps) := by
  induction ps with
  | nil => exact .nil
  | cons p ps ih =>
    rw [List.forall_mem_cons] at hps
    exact hps.1.counts.comma.append (ih hps.2)

variable {gap : List Char} {ps : List ListedParameter}

theorem balanced_parameterListText (hgap : IsGap gap) (hps : ∀ p ∈ ps, p.WellFormed) :
    Balanced (parameterListText gap ps) := by
  cases ps with
  | nil => exact hgap.balanced
  | cons p ps =>
    rw [List.forall_mem_cons] at hps
    exact hps.1.balanced.append (.flatMap fun q hq => .plain (by decide) (hps.2 q hq).balanced)

/-- How many parts a parameter list falls into. -/
theorem length_splitCommas_parameterListText (hgap : IsGap gap)
    (hps : ∀ p ∈ ps, p.WellFormed) :
    (splitCommas (parameterListText gap ps)).length = countedParameters gap ps := by
  have hlength {x : List Char} {f : Tally → Tally} (hx : Counts x f) :
      (commaParts 0 false x).length = 1 + (f ⟨0, 0⟩).commas := by
    obtain ⟨w, hsplits⟩ := hx false
    have h := hsplits ⟨0, 0⟩ []
    rw [List.append_nil, commaParts] at h
    exact h
  rw [length_splitCommas]
  cases ps with
  | nil =>
    have hone : (commaParts 0 false gap).length = 1 := hlength (.of_isGap hgap)
    simp [parameterListText, countedParameters, hone]
  | cons p ps =>
    rw [List.forall_mem_cons] at hps
    have hparts := hlength (hps.1.counts.append (counts_parametersTally hps.2))
    have hzero : p.type.tally ⟨0, 0⟩ = ⟨0, p.type.exposedCommas⟩ := by
      rw [p.type.tame_tally.apply_zero, TypeExpr.exposedCommas, Nat.zero_add]
    rw [hzero, parametersTally_zero] at hparts
    obtain ⟨c, hc, hblank⟩ := hps.1.exists_not_blank
    have hall : (parameterListText gap (p :: ps)).all isBlank = false := by
      rw [Bool.eq_false_iff]
      intro hall
      have := List.all_eq_true.mp hall c (List.mem_append_left _ hc)
      rw [hblank] at this
      cases this
    rw [hall, Bool.false_and, if_neg (by decide), parameterListText, hparts, countedParameters]
    simp only [List.length_cons, List.map_cons, List.sum_cons]
    omega

namespace Grammar

theorem parameterCount_parameterListText (hgap : IsGap gap) (hps : ∀ p ∈ ps, p.WellFormed) :
    parameterCount ('(' :: (parameterListText gap ps ++ [')'])) = countedParameters gap ps := by
  have hinner (x : List Char) : inner ('(' :: (x ++ [')'])) = x := by simp [inner]
  rw [parameterCount, hinner, length_splitCommas_parameterListText hgap hps]

/-- The list is read as a region. -/
theorem parenthesized_parameterListText (hgap : IsGap gap) (hps : ∀ p ∈ ps, p.WellFormed)
    (o : Nat) (s : List Char) :
    parenthesized ⟨o, '(' :: (parameterListText gap ps ++ ')' :: s)⟩ =
      .ok ('(' :: (parameterListText gap ps ++ [')']),
        ⟨o + size ('(' :: (parameterListText gap ps ++ [')'])), s⟩) :=
  delimited_of_steps ((balanced_parameterListText hgap hps).steps (by decide)) (by decide) o s

/-- Where parameters are counted as many as they are. -/
theorem countedParameters_eq_length_iff :
    countedParameters gap ps = ps.length ↔
      (ps = [] → gap.all isBlank = true) ∧ ∀ p ∈ ps, p.type.exposedCommas = 0 := by
  cases ps with
  | nil => by_cases hblank : gap.all isBlank = true <;> simp [countedParameters, hblank]
  | cons p ps => simp [countedParameters, List.sum_eq_zero_iff_forall_eq_nat]

def methodRest (h : DeclHeader) (type : TypeExpr) (name : MemberName) (count : Nat) :
    Parser Member := do
  constraintClauses
  let hasBody ← memberBody
  return .ofMethod ⟨h.attributes, h.modifiers, type, name.explicitInterface, name.identifier,
    name.typeParameters, count, hasBody, ← spanFrom h.start⟩

def typeStart : Parser (TypeKind × Identifier × Option TypeParameters) := do
  let kind ← typeKind
  let name ← label "type name" identifier
  let parameters ← typeParameters?
  trivia
  return (kind, name, parameters)

def typeRest (self : Option String → Parser (List Member)) (h : DeclHeader) (kind : TypeKind)
    (name : Identifier) (parameters : Option TypeParameters) (constructor : Option Nat) :
    Parser Member := do
  let bases ← baseList
  constraintClauses
  trivia
  let members ← typeBody self name
  return .ofType ⟨h.attributes, h.modifiers, kind, name, parameters, constructor, bases,
    ← spanFrom h.start⟩ members

theorem methodDeclaration_eq {x : List Char} {c c' : Cursor} (h : DeclHeader) (type : TypeExpr)
    (name : MemberName) (hlist : parenthesized c = .ok (x, c')) :
    methodDeclaration h type name c = methodRest h type name (parameterCount x) c' := by
  have hlabel : label "parameter list" parenthesized c = .ok (x, c') := by rw [label, hlist]
  exact bind_of_eq_ok hlabel

theorem primaryConstructor_eq {x : List Char} {c c' : Cursor} (hopen : c.rest.head? = some '(')
    (hlist : parenthesized c = .ok (x, c')) :
    primaryConstructor c = .ok (some (parameterCount x), c') := by
  refine (bind_of_eq_ok (nextIs_of_head? hopen)).trans ?_
  exact bind_of_eq_ok hlist

/-- A type, once its head up to the primary constructor is read. -/
theorem typeDeclaration_eq {self : Option String → Parser (List Member)} {c c₁ c₂ : Cursor}
    {kind : TypeKind} {name : Identifier} {parameters : Option TypeParameters}
    {constructor : Option Nat} (h : DeclHeader)
    (hstart : typeStart c = .ok ((kind, name, parameters), c₁))
    (hconstructor : primaryConstructor c₁ = .ok (constructor, c₂)) :
    typeDeclaration self h c = typeRest self h kind name parameters constructor c₂ := by
  obtain ⟨_, d₁, hkind, hstart⟩ := exists_of_bind_eq_ok hstart
  obtain ⟨_, d₂, hname, hstart⟩ := exists_of_bind_eq_ok hstart
  obtain ⟨_, d₃, hparameters, hstart⟩ := exists_of_bind_eq_ok hstart
  obtain ⟨_, d₄, htrivia, hstart⟩ := exists_of_bind_eq_ok hstart
  cases hstart
  calc typeDeclaration self h c
      = _ := bind_of_eq_ok hkind
    _ = _ := bind_of_eq_ok hname
    _ = _ := bind_of_eq_ok hparameters
    _ = _ := bind_of_eq_ok htrivia
    _ = typeRest self h kind name parameters constructor c₂ := bind_of_eq_ok hconstructor

/-- What is known of a method from its head and its parameter list. -/
theorem yields_methodRest (h : DeclHeader) (type : TypeExpr) (name : MemberName) (count : Nat) :
    Yields (methodRest h type name count) fun m => ∃ decl, m = .ofMethod decl ∧
      decl.explicitInterface = name.explicitInterface ∧ decl.identifier = name.identifier ∧
      decl.parameterCount = count :=
  .bind_right fun _ => .bind_right fun _ => .bind_right fun _ => .pure ⟨_, rfl, rfl, rfl, rfl⟩

/-- The parameter list of a method or of a primary constructor is read to its end. Its parameters
are counted, and with them the commas that are exposed in their types; a list without parameters is
counted as one parameter if there is a comment in it. So the count is right exactly if no comma is
exposed and a list without parameters is blank, and exactly then a method without parameters is
recognised as the hook. -/
theorem parameters_counted (hgap : IsGap gap) (hps : ∀ p ∈ ps, p.WellFormed) (o : Nat)
    (s : List Char) :
    let list := '(' :: (parameterListText gap ps ++ [')'])
    let count := countedParameters gap ps
    (∀ h type name, methodDeclaration h type name ⟨o, list ++ s⟩ =
      methodRest h type name count ⟨o + size list, s⟩) ∧
    (∀ self h c kind name parameters,
      typeStart c = .ok ((kind, name, parameters), ⟨o, list ++ s⟩) →
      typeDeclaration self h c =
        typeRest self h kind name parameters (some count) ⟨o + size list, s⟩) ∧
    (count = ps.length ↔
      (ps = [] → gap.all isBlank = true) ∧ ∀ p ∈ ps, p.type.exposedCommas = 0) ∧
    ∀ hook h type name decl c', ps = [] →
      methodDeclaration h type name ⟨o, list ++ s⟩ = .ok (.ofMethod decl, c') →
      (HolderOutcome.isHook hook decl = true ↔
        name.explicitInterface = none ∧ name.identifier.name = hook ∧ gap.all isBlank = true) := by
  intro list count
  have hlist : parenthesized ⟨o, list ++ s⟩ = .ok (list, ⟨o + size list, s⟩) := by
    have h := parenthesized_parameterListText hgap hps o s
    simpa [list] using h
  have hcount : parameterCount list = count := parameterCount_parameterListText hgap hps
  have hmethod (h : DeclHeader) (type : TypeExpr) (name : MemberName) :
      methodDeclaration h type name ⟨o, list ++ s⟩ =
        methodRest h type name count ⟨o + size list, s⟩ := by
    rw [methodDeclaration_eq h type name hlist, hcount]
  refine ⟨hmethod, fun self h c kind name parameters hstart => ?_,
    countedParameters_eq_length_iff, ?_⟩
  · have hconstructor := primaryConstructor_eq rfl hlist
    rw [typeDeclaration_eq h hstart hconstructor, hcount]
  · rintro hook h type name decl c' rfl hread
    rw [hmethod] at hread
    obtain ⟨_, heq, hinterface, hidentifier, hparameters⟩ := yields_methodRest _ _ _ _ _ _ _ hread
    cases heq
    rw [HolderOutcome.isHook, hinterface, hidentifier, hparameters]
    by_cases hblank : gap.all isBlank = true <;> simp [count, countedParameters, hblank]

def typeOf (text : String) : TypeExpr :=
  ((typeExpr (.ofString text)).toOption.map (·.1)).getD default

/-- A parameter with a comma in its type that is exposed, behind a comment with another one. -/
def accentedParameter : ListedParameter where
  before := "/* a, b */ ".toList
  type := typeOf "A<(B, C), Caché<int, string>, D>[,]"
  name := "x".toList
  behind := "// )\n".toList

theorem wellFormed_accentedParameter : accentedParameter.WellFormed where
  before := .blockComment (y := " a, b ".toList) (by decide) (.blank (by decide) .nil)
  type := by
    have hread : (typeExpr (.ofString "A<(B, C), Caché<int, string>, D>[,]")).toOption.isSome := by
      decide +kernel
    change ∃ c c', typeExpr c = .ok (typeOf "A<(B, C), Caché<int, string>, D>[,]", c')
    rw [typeOf]
    cases h : typeExpr (.ofString "A<(B, C), Caché<int, string>, D>[,]") with
    | error e =>
      rw [h] at hread
      cases hread
    | ok r => exact ⟨_, r.2, h⟩
  name := .inl ⟨by decide, by decide⟩
  behind := .lineComment (y := " )".toList) (by decide) .nil

/-- The name of the second list of type arguments does not end in ASCII, so the comma behind the
list is exposed: the bracket that closes it is taken for that of the first list. -/
theorem parameters_counted_accented :
    let list := '(' :: (parameterListText [] [accentedParameter] ++ [')'])
    let name : MemberName := ⟨none, ⟨"M", default⟩, none⟩
    let void : TypeExpr := .predefined "void" default
    methodDeclaration ⟨0, [], []⟩ void name ⟨6, list ++ " \x7b \x7d".toList⟩ =
      methodRest ⟨0, [], []⟩ void name 2 ⟨6 + size list, " \x7b \x7d".toList⟩ := by
  have hcount : countedParameters [] [accentedParameter] = 2 := by decide +kernel
  have hall : ∀ p ∈ [accentedParameter], p.WellFormed := by
    simpa using wellFormed_accentedParameter
  have h := parameters_counted .nil hall 6 " \x7b \x7d".toList
  rw [← hcount]
  exact h.1 _ _ _

/-- A method without parameters that is not recognised as the hook. -/
theorem exists_hook_with_comment :
    let text := "void OnDestroy(/* none */) \x7b \x7d"
    (memberDeclaration none (.ofString text)).toOption.map (fun r =>
      r.1.method?.map fun m => (m.parameterCount, HolderOutcome.isHook "OnDestroy" m)) =
        some (some (1, false)) := by
  decide +kernel

end Grammar

end DeclGen
