import DeclGen.Proofs.Constant.Equations
import DeclGen.Syntax.Site

/-!
# What names in initializers should mean

Qualifiers in front of the name of a member lead to the enum if they are the end of the path to it:
the names of the namespaces and types around it and its own name. Such a name is the member of that
name, whatever else the enum is called like. Of the qualifiers, folding looks at the last one only,
and asks for the bounds of an integral type before it asks for a member. So it takes a member of
another enum with the same simple name for one of this enum, and a member of an enum that is called
like an integral type for a bound of that type. These are the only names that it takes for something
else than they should mean.

## Main definitions

* `EnumSite.path`: the path to an enum
* `EnumSite.intended`: what a name in an initializer should mean
* `EnumSite.Misread`: the names that folding takes for something else

## Main statements

* `EnumSite.name_folds`: what a name folds to, and when it is what it should mean
* `EnumSite.exists_misread`: a member of another enum with the same simple name
-/

namespace DeclGen

open DeclGen.Fold

/-- The names in the path to what the declaration contains: each part of the name of a namespace,
or the name of a type. -/
def Enclosing.names : Enclosing → List String
  | ofNamespace head => head.name.segments.map (·.name)
  | ofType head => [head.identifier.name]

namespace EnumSite

/-- The path to the enum: the names around it, the outermost first, and its own name. -/
def path (site : EnumSite) : List String :=
  site.chain.flatMap Enclosing.names ++ [site.decl.identifier.name]

/-- The member of the enum that a name with qualifiers in front should mean. -/
def ownMember? (site : EnumSite) (qualifiers : List Identifier) (name : Identifier) : Option Nat :=
  if qualifiers.map (·.name) = [] ∨ qualifiers.map (·.name) <:+ site.path then
    memberIndex? site.decl name.name
  else none

/-- The least or greatest value of an integral type that a name with qualifiers in front may
mean. -/
def boundOf? (qualifiers : List Identifier) (name : Identifier) : Option Constant :=
  bound? ((qualifiers ++ [name]).map (·.name)).reverse

/-- What a name with qualifiers in front should mean in an initializer of the enum: a member of it,
and only otherwise the least or greatest value of an integral type. -/
def intended (site : EnumSite) (qualifiers : List Identifier) (name : Identifier) : Meaning :=
  match ownMember? site qualifiers name with
  | some i => .member i
  | none =>
    match boundOf? qualifiers name with
    | some c => .bound c
    | none => .unknown

/-- The name is one of a member of the enum, and what stands in front of it either ends with the
name of the enum without being the end of the path to it, or is the end of the path and is called
like an integral type that has a bound of this name. -/
def Misread (site : EnumSite) (qualifiers : List Identifier) (name : Identifier) : Prop :=
  memberIndex? site.decl name.name ≠ none ∧ qualifiers ≠ [] ∧
    (if qualifiers.map (·.name) <:+ site.path then boundOf? qualifiers name ≠ none
    else boundOf? qualifiers name = none ∧
      qualifiers.getLast?.map (·.name) = some site.decl.identifier.name)

variable {site : EnumSite} {qualifiers : List Identifier} {name : Identifier}

/-- A name alone is no bound. -/
theorem boundOf?_nil : boundOf? [] name = none := rfl

/-- A name alone is that of a member, and of the names in front of one the last is looked at. -/
theorem siblingIndex?_qualified (d : EnumDecl) :
    siblingIndex? d ((qualifiers ++ [name]).map (·.name)).reverse =
      if qualifiers = [] ∨ qualifiers.getLast?.map (·.name) = some d.identifier.name then
        memberIndex? d name.name
      else none := by
  rcases List.eq_nil_or_concat qualifiers with rfl | ⟨front, last, rfl⟩
  · simp [siblingIndex?]
  · simp [siblingIndex?]

/-- What the code takes a name with qualifiers in front for. -/
theorem resolve_qualified (d : EnumDecl) :
    resolve d (qualifiers ++ [name]) =
      match boundOf? qualifiers name with
      | some c => .bound c
      | none =>
        if qualifiers = [] ∨ qualifiers.getLast?.map (·.name) = some d.identifier.name then
          match memberIndex? d name.name with
          | some i => .member i
          | none => .unknown
        else .unknown := by
  rw [resolve, boundOf?]
  cases bound? ((qualifiers ++ [name]).map (·.name)).reverse with
  | some c => rfl
  | none =>
    dsimp only
    rw [siblingIndex?_qualified]
    by_cases hlast : qualifiers = [] ∨ qualifiers.getLast?.map (·.name) = some d.identifier.name
    · cases memberIndex? d name.name <;> simp only [if_pos hlast]
    · simp only [if_neg hlast]

/-- Qualifiers that are the end of the path to an enum end with its name. -/
theorem getLast?_of_suffix (hne : qualifiers ≠ [])
    (h : qualifiers.map (·.name) <:+ site.path) :
    qualifiers.getLast?.map (·.name) = some site.decl.identifier.name := by
  obtain ⟨front, last, rfl⟩ := (List.eq_nil_or_concat qualifiers).resolve_left hne
  obtain ⟨before, hpath⟩ := h
  have hlast := congrArg List.getLast? hpath
  simpa [path] using hlast

/-- Folding takes a name for what it should mean, unless it is one of those that are misread. -/
theorem resolve_eq_intended_iff :
    resolve site.decl (qualifiers ++ [name]) = site.intended qualifiers name ↔
      ¬ site.Misread qualifiers name := by
  rw [resolve_qualified, intended, ownMember?, Misread]
  cases hmember : memberIndex? site.decl name.name with
  | none => cases boundOf? qualifiers name <;> simp
  | some i =>
    by_cases hne : qualifiers = []
    · subst hne
      simp [boundOf?_nil]
    · have hmap : qualifiers.map (·.name) ≠ [] := by simpa using hne
      by_cases hsuffix : qualifiers.map (·.name) <:+ site.path
      · have hlast := getLast?_of_suffix hne hsuffix
        cases hbound : boundOf? qualifiers name <;> simp [hne, hsuffix, hlast]
      · cases hbound : boundOf? qualifiers name with
        | some c => simp [hne, hsuffix]
        | none =>
          by_cases hlast : qualifiers.getLast?.map (·.name) = some site.decl.identifier.name <;>
            simp [hne, hsuffix, hlast]

/-- The text that a name has in an initializer of the enum when it means something. -/
def textOf (site : EnumSite) (segments : List Identifier) : Meaning → Except FoldError String
  | .bound c => .ok (toString (site.decl.underlying.wrap c.value))
  | .member i => (site.decl.memberValue i).map fun v => toString v
  | .unknown => .error (.unknownName (".".intercalate (segments.map (·.name))))

/-- The value of a name of a member is that of the member. -/
theorem evaluateIn_member {d : EnumDecl} {segments : List Identifier} {span : Span} {i : Nat}
    (h : resolve d segments = .member i) :
    evaluateIn d (.name segments span) = (d.memberValue i).map fun v => ⟨v, d.underlying⟩ := by
  rw [evaluateIn, EnumDecl.memberValue, evaluate, h]
  dsimp only
  generalize memberValue d (List.range d.members.length) i = run
  change ((run [] >>= fun p => .ok ((⟨p.1, d.underlying⟩ : Constant), p.2)) >>= fun p => .ok p.1) =
    Except.map _ (run [] >>= fun p => .ok p.1)
  cases run [] <;> rfl

/-- A name folds to the text of what the code takes it for. -/
theorem constantText_name (segments : List Identifier) (span : Span) :
    site.decl.constantText (.name segments span) =
      site.textOf segments (resolve site.decl segments) := by
  rw [EnumDecl.constantText, EnumDecl.constant]
  cases hmeaning : resolve site.decl segments with
  | bound c =>
    have hvalue : evaluateIn site.decl (.name segments span) = .ok c := by
      rw [evaluateIn, evaluate, hmeaning]
      rfl
    rw [hvalue]
    rfl
  | unknown =>
    have hvalue : evaluateIn site.decl (.name segments span) =
        .error (.unknownName (".".intercalate (segments.map (·.name)))) := by
      rw [evaluateIn, evaluate, hmeaning]
      rfl
    rw [hvalue]
    rfl
  | member i =>
    rw [evaluateIn_member hmeaning, textOf]
    cases hvalue : site.decl.memberValue i with
    | error err => rfl
    | ok v =>
      -- The value of a member is truncated already.
      have hwrap := (EnumDecl.memberValue_eq_ok_iff.mp hvalue).wrap_eq
      simp only [Except.map, hwrap]

/-- What a name in an initializer of an enum folds to, whatever the enum is called and wherever it
stands. Unless the name is misread, this is the value of the member or bound that it should mean, or
the error that it is unknown. If it is misread, it is the value of a bound where it should be that
of a member, or that of a member where the name is unknown. -/
theorem name_folds (site : EnumSite) (qualifiers : List Identifier) (name : Identifier)
    (span : Span) :
    (¬ site.Misread qualifiers name →
      site.decl.constantText (.name (qualifiers ++ [name]) span) =
        site.textOf (qualifiers ++ [name]) (site.intended qualifiers name)) ∧
    (site.Misread qualifiers name → ∃ i, memberIndex? site.decl name.name = some i ∧
      ((site.intended qualifiers name = .member i ∧ ∃ c, boundOf? qualifiers name = some c ∧
        site.decl.constantText (.name (qualifiers ++ [name]) span) =
          site.textOf (qualifiers ++ [name]) (.bound c)) ∨
      (site.intended qualifiers name = .unknown ∧
        site.decl.constantText (.name (qualifiers ++ [name]) span) =
          site.textOf (qualifiers ++ [name]) (.member i)))) := by
  refine ⟨fun hread => ?_, fun hmisread => ?_⟩
  · rw [constantText_name, resolve_eq_intended_iff.mpr hread]
  · obtain ⟨hmember, hne, hcase⟩ := hmisread
    obtain ⟨i, hi⟩ := Option.ne_none_iff_exists'.mp hmember
    refine ⟨i, hi, ?_⟩
    rw [constantText_name, resolve_qualified, intended, ownMember?]
    by_cases hsuffix : qualifiers.map (·.name) <:+ site.path
    · rw [if_pos hsuffix] at hcase
      obtain ⟨c, hc⟩ := Option.ne_none_iff_exists'.mp hcase
      exact .inl ⟨by simp [hsuffix, hi], c, hc, by simp [hc]⟩
    · rw [if_neg hsuffix] at hcase
      obtain ⟨hbound, hlast⟩ := hcase
      have hmap : qualifiers.map (·.name) ≠ [] := by simpa using hne
      refine .inr ⟨?_, ?_⟩
      · rw [if_neg (not_or.mpr ⟨hmap, hsuffix⟩), hbound]
      · simp [hbound, hlast, hi]

/-- The enum of `namespace B { enum Mode { X = A.Mode.Y, Y = 7 } }`. -/
def namesakeMode : EnumSite where
  chain := [.ofNamespace ⟨⟨[⟨"B", ⟨10, 11⟩⟩], ⟨10, 11⟩⟩, false, [], ⟨0, 49⟩⟩]
  decl :=
    { attributes := []
      modifiers := []
      identifier := ⟨"Mode", ⟨19, 23⟩⟩
      base := none
      members := [
        ⟨[], ⟨"X", ⟨26, 27⟩⟩, some (.name
          [⟨"A", ⟨30, 31⟩⟩, ⟨"Mode", ⟨32, 36⟩⟩, ⟨"Y", ⟨37, 38⟩⟩] ⟨30, 38⟩), ⟨26, 38⟩⟩,
        ⟨[], ⟨"Y", ⟨40, 41⟩⟩, some (.integer "7" ⟨44, 45⟩), ⟨40, 45⟩⟩]
      span := ⟨14, 47⟩ }

theorem memberValue_namesakeMode : namesakeMode.decl.memberValue 1 = .ok 7 := by
  refine (EnumDecl.memberValue_of_initializer (e := .integer "7" ⟨44, 45⟩) rfl).mpr ?_
  exact EnumDecl.constantText_eq_ok_iff.mpr ⟨⟨7, .int⟩, ⟨fun _ => 0, nofun, rfl⟩, by decide⟩

/-- A reference to a member of another enum with the same simple name folds to the enum's own
member. -/
theorem exists_misread : ∃ (site : EnumSite) (m : EnumMember) (qualifiers : List Identifier)
    (name : Identifier) (span : Span) (i : Nat),
    m ∈ site.decl.members ∧ m.initializer = some (.name (qualifiers ++ [name]) span) ∧
      ¬ qualifiers.map (·.name) <:+ site.path ∧
      site.intended qualifiers name = .unknown ∧
      (site.decl.members[i]?).map (·.identifier.name) = some name.name ∧
      site.decl.memberValue i = .ok 7 ∧
      site.decl.constantText (.name (qualifiers ++ [name]) span) = .ok "7" :=
  ⟨namesakeMode, _, [⟨"A", ⟨30, 31⟩⟩, ⟨"Mode", ⟨32, 36⟩⟩], ⟨"Y", ⟨37, 38⟩⟩, ⟨30, 38⟩, 1,
    List.mem_cons_self, rfl, by decide, by decide, rfl, memberValue_namesakeMode, by
      rw [constantText_name, show resolve namesakeMode.decl _ = .member 1 by decide, textOf,
        memberValue_namesakeMode]
      rfl⟩

end EnumSite

end DeclGen
