import DeclGen.Proofs.Grammar.MemberMoves
import DeclGen.Proofs.Grammar.Tight
import DeclGen.Proofs.Grammar.Yields
import DeclGen.Syntax.Site

/-!
# Members of enums as they are written

What stands for the value of a member: its initializer, which is all between the `=` behind its name
and the comma or brace that follows, but for trivia; or, without one, the member itself, from its
first attribute list to the end of its name. This holds of every enum in a file, wherever it is
declared.

## Main definitions

* `EnumMember.Quoted`: the text that stands for the value of a member
* `EnumsIn`: what all enums in declarations have in common

## Main statements

* `Grammar.tracks_enumMembers`: members are read from where they are written
* `Grammar.enumerates_of_parse`: all members of all enums of a file
-/

namespace DeclGen

open DeclGen.Grammar DeclGen.Text

/-- The span of what stands for the value of a member: its initializer, if it has one. -/
def EnumMember.quotedSpan (m : EnumMember) : Span :=
  (m.initializer.map (·.span)).getD m.span

/-- The characters `x` stand for the value of the member in the text. -/
inductive EnumMember.Quoted (text : List Char) (m : EnumMember) (x : List Char) : Prop where
  /-- The initializer: what is left between the `=` behind the name and the comma or brace that
  follows, without the trivia at both ends and the blanks at the end. -/
  | initializer {e : Expr} {equals stop close : Nat} {blanks : List Char}
      (he : m.initializer = some e) (hequals : BehindTrivia text m.identifier.span.stop equals)
      (hassign : Spells text equals (equals + 1) ['='])
      (hstart : BehindTrivia text (equals + 1) e.span.start)
      (hx : Spells text e.span.start e.span.stop x)
      (hblanks : Spells text e.span.stop stop blanks) (hall : ∀ c ∈ blanks, isBlank c = true)
      (hclose : BehindTrivia text stop close)
      (hend : Spells text close (close + 1) [','] ∨ Spells text close (close + 1) ['\x7d'])
  /-- The member itself, from its first attribute list or else its name to the end of its name. -/
  | member (he : m.initializer = none)
      (hstart : m.span.start =
        ((m.attributes.head?.map (·.span)).getD m.identifier.span).start)
      (hstop : m.span.stop = m.identifier.span.stop)
      (hx : Spells text m.span.start m.span.stop x)

theorem EnumMember.Quoted.spells {text x : List Char} {m : EnumMember} (h : m.Quoted text x) :
    Spells text m.quotedSpan.start m.quotedSpan.stop x := by
  cases h with
  | initializer he hequals hassign hstart hx =>
    rw [quotedSpan, he]
    exact hx
  | member he hstart hstop hx =>
    rw [quotedSpan, he]
    exact hx

def EnumsIn (P : EnumDecl → Prop) (ms : List Member) : Prop :=
  ∀ chain site, Site.ofEnum site ∈ sitesIn chain ms → P site.decl

/-- The declaration is neither a namespace nor a type nor an enum. -/
def Member.IsPlain (m : Member) : Prop := ∀ chain, m.sites chain = []

namespace EnumsIn

variable {P : EnumDecl → Prop} {ms : List Member}

theorem of_forall (h : ∀ m ∈ ms, EnumsIn P [m]) : EnumsIn P ms := by
  induction ms with
  | nil =>
    rintro chain site ⟨⟩
  | cons m ms ih =>
    intro chain site hsite
    rw [sitesIn] at hsite
    rcases List.mem_append.mp hsite with hsite | hsite
    · exact h m List.mem_cons_self chain site (by rwa [sitesIn, sitesIn, List.append_nil])
    · exact ih (fun m' hm' => h m' (List.mem_cons_of_mem m hm')) chain site hsite

theorem of_isPlain {m : Member} (h : m.IsPlain) : EnumsIn P [m] := by
  intro chain site hsite
  rw [sitesIn, sitesIn, h chain] at hsite
  cases hsite

theorem ofEnum {decl : EnumDecl} (h : P decl) : EnumsIn P [.ofEnum decl] := by
  intro chain site hsite
  rw [sitesIn, sitesIn, Member.sites, List.append_nil, List.mem_singleton] at hsite
  cases hsite
  exact h

theorem ofType {head : TypeHead} (h : EnumsIn P ms) : EnumsIn P [.ofType head ms] := by
  intro chain site hsite
  rw [sitesIn, sitesIn, Member.sites, List.append_nil, List.mem_cons] at hsite
  rcases hsite with hsite | hsite
  · cases hsite
  · exact h _ site hsite

theorem ofNamespace {head : NamespaceHead} (h : EnumsIn P ms) :
    EnumsIn P [.ofNamespace head ms] := by
  intro chain site hsite
  rw [sitesIn, sitesIn, Member.sites, List.append_nil] at hsite
  exact h _ site hsite

end EnumsIn

namespace Grammar

open DeclGen.Grammar.Parser

variable {text : List Char} {o : Nat}

/-! ## Members -/

theorem exists_spells {lo hi : Nat} (hlo : IsBoundary text lo) (hhi : IsBoundary text hi)
    (hle : lo ≤ hi) : ∃ x, Spells text lo hi x := by
  obtain ⟨front, back, htext, hfront⟩ := hlo
  obtain ⟨front', back', htext', hfront'⟩ := hhi
  have hrest : Rest text lo back := ⟨front, htext, hfront⟩
  obtain ⟨x, -, hx⟩ := hrest.exists_between ⟨front', htext', hfront'⟩ hle
  exact ⟨x, hx⟩

theorem Tracks.and {α : Type} {p : Parser α} {R R' : α → Nat → Prop} (h : Tracks text o p R)
    (h' : Tracks text o p R') : Tracks text o p fun a o' => R a o' ∧ R' a o' := by
  intro s hs a c' hp
  obtain ⟨hrest, hle, ha⟩ := h s hs a c' hp
  exact ⟨hrest, hle, ha, (h' s hs a c' hp).2.2⟩

/-- Once a comma or a brace comes behind the offset, the value of the member is quoted. -/
def QuotedBefore (text : List Char) (m : EnumMember) (o : Nat) : Prop :=
  ∀ close, BehindTrivia text o close →
    (Spells text close (close + 1) [','] ∨ Spells text close (close + 1) ['\x7d']) →
      ∃ x, m.Quoted text x

theorem tracks_initializerText : Tracks text o initializerExpr fun e o' =>
    BehindTrivia text o e.span.start ∧ ∃ x blanks, Spells text e.span.start e.span.stop x ∧
      Spells text e.span.stop o' blanks ∧ ∀ c ∈ blanks, isBlank c = true := by
  refine (tracks_initializerExpr.and (spans_initializerExpr o)).mono fun e o' _ he => ?_
  obtain ⟨⟨hstart, blanks, hblanks, hall⟩, hstand⟩ := he
  have hexact := hstand.exact e.spanTree List.mem_cons_self
  have hx := exists_spells hexact.isBoundary_start hexact.isBoundary_stop hexact.start_le_stop
  rw [e.span_spanTree] at hx
  obtain ⟨x, hx⟩ := hx
  exact ⟨hstart, x, blanks, hx, hblanks, hall⟩

theorem tracks_enumMember : Tracks text o enumMember (QuotedBefore text) := by
  refine .trivia_bind fun start _ hstart => .offset_bind fun hlo => ?_
  refine tracks_attributeLists.bind fun attributes o₁ hle₁ hattributes => ?_
  refine tracks_identifier.boundary.bind fun name o₂ hle₂ hname => ?_
  obtain ⟨⟨hbehind, rfl⟩, hhi⟩ := hname
  refine (tracks_accept "=").bind fun hasInitializer o₃ _ hassign => ?_
  cases hasInitializer with
  | true =>
    obtain ⟨equals, hequals, hassign⟩ := hassign
    obtain rfl : o₃ = equals + 1 := by
      obtain ⟨front, back, -, -, hstop⟩ := hassign
      exact hstop
    have hinitializer : Tracks text (equals + 1) (some <$> initializerExpr) fun r o' =>
        ∃ e, r = some e ∧ BehindTrivia text (equals + 1) e.span.start ∧
          ∃ x blanks, Spells text e.span.start e.span.stop x ∧
            Spells text e.span.stop o' blanks ∧ ∀ c ∈ blanks, isBlank c = true :=
      tracks_initializerText.bind fun e o₄ _ he => .pure ⟨e, rfl, he⟩
    refine hinitializer.bind fun r o₄ _ hr => ?_
    obtain ⟨e, rfl, hlead, x, blanks, hx, hblanks, hall⟩ := hr
    refine .spanFrom_bind fun _ => .pure fun close hclose hend => ⟨x, ?_⟩
    exact .initializer rfl hequals hassign hlead hx hblanks hall hclose hend
  | false =>
    obtain rfl : o₃ = name.span.stop := hassign
    have hfirst : start = ((attributes.head?.map (·.span)).getD name.span).start := by
      have hhere := hstart.again
      cases attributes with
      | nil =>
        obtain rfl := hhere.unique hattributes
        exact hhere.unique hbehind
      | cons a as => exact hhere.unique hattributes
    obtain ⟨x, hx⟩ := exists_spells hlo hhi (Nat.le_trans hle₁ hle₂)
    have hrest : Tracks text name.span.stop (do
        return (⟨attributes, name, none, ← spanFrom start⟩ : EnumMember)) (QuotedBefore text) :=
      .spanFrom_bind fun _ => .pure fun _ _ _ => ⟨x, .member rfl hfirst rfl hx⟩
    exact hrest

/-- All members that are read are quoted. -/
theorem tracks_enumMembers : Tracks text o enumMembers fun ms _ =>
    ∀ m ∈ ms, ∃ x, m.Quoted text x := by
  have hround (o : Nat) : Tracks text o enumMemberRound
      (Tracks.OfRound (fun _ ms _ => ∀ m ∈ ms, ∃ x, m.Quoted text x) o) := by
    refine .skip advances_trivia fun _ o₁ _ => .skip (advances_acceptHere _) fun isEnd o₂ _ => ?_
    split
    next => exact .pure (by rintro m ⟨⟩)
    refine tracks_enumMember.label.bind fun m o₃ _ hm => ?_
    refine (tracks_accept ",").bind fun isComma o₄ _ hcomma => ?_
    cases isComma with
    | true =>
      obtain ⟨close, hclose, hend⟩ := hcomma
      have hstop : o₄ = close + 1 := by
        obtain ⟨front, back, -, -, hstop⟩ := hend
        exact hstop
      rw [hstop] at hend
      refine .pure fun ms _ _ hms => ?_
      exact List.forall_mem_cons.mpr ⟨hm close hclose (.inl hend), hms⟩
    | false =>
      obtain rfl : o₄ = o₃ := hcomma
      refine (tracks_symbol "\x7d").label.bind fun _ o₅ _ hbrace => .pure ?_
      obtain ⟨close, hclose, hend⟩ := hbrace
      have hstop : o₅ = close + 1 := by
        obtain ⟨front, back, -, -, hstop⟩ := hend
        exact hstop
      rw [hstop] at hend
      exact List.forall_mem_singleton.mpr (hm close hclose (.inr hend))
  exact Tracks.rounds hround o

/-- All members of the enum are quoted in the text. -/
def Enumerates (text : List Char) (d : EnumDecl) : Prop := ∀ m ∈ d.members, ∃ x, m.Quoted text x

theorem tracks_enumDeclarationText (h : DeclHeader) :
    Tracks text o (enumDeclaration h) fun m _ => EnumsIn (Enumerates text) [m] := by
  refine .skip (advances_keyword _) fun _ o₁ _ => ?_
  refine .skip (.label (.of_tracks fun _ => spans_identifier)) fun name o₂ _ => ?_
  refine .skip advances_trivia fun _ o₃ _ => .skip (advances_acceptHere _) fun hasBase o₄ _ => ?_
  have hrest (base : Option TypeExpr) (o₅ : Nat) : Tracks text o₅ (do
      label "'\x7b' opening the enum body" (symbol "\x7b")
      let members ← enumMembers
      let _ ← accept ";"
      return Member.ofEnum ⟨h.attributes, h.modifiers, name, base, members, ← spanFrom h.start⟩)
      fun m _ => EnumsIn (Enumerates text) [m] := by
    refine .skip (advances_symbol _).label fun _ o₆ _ => ?_
    refine tracks_enumMembers.bind fun members o₇ _ hmembers => ?_
    refine .skip (advances_accept ";") fun _ o₈ _ => .spanFrom_bind fun _ => .pure ?_
    exact .ofEnum hmembers
  have hbase : Advances (some <$> label "underlying enum type" typeExpr) :=
    .bind (.label (.of_tracks fun _ => spans_typeExpr)) fun _ => .pure _
  split
  next => exact .skip hbase fun base o₅ _ => hrest base o₅
  next => exact hrest none o₄

/-! ## Declarations that hold no enums -/

theorem yields_plain_otherMember (start : Nat) (kind : OtherKind) :
    Yields (otherMember start kind) Member.IsPlain := by
  refine .bind_right fun _ => .bind_right fun _ => .bind_right fun isAssignment => ?_
  split
  next =>
    exact .bind_right fun _ => .bind_right fun _ => .bind_right fun _ => .pure fun _ => rfl
  next => exact .bind_right fun _ => .bind_right fun _ => .pure fun _ => rfl

theorem yields_plain_typedMember (h : DeclHeader) : Yields (typedMember h) Member.IsPlain := by
  refine .bind_right fun type => .bind_right fun isOperator => ?_
  split
  next => exact .bind_right fun _ => yields_plain_otherMember _ _
  refine .bind_right fun isIndexer => ?_
  split
  next => exact .bind_right fun _ => .bind_right fun _ => yields_plain_otherMember _ _
  refine .bind_right fun name => .bind_right fun _ => .bind_right fun isMethod => ?_
  split
  next =>
    refine .bind_right fun _ => .bind_right fun _ => .bind_right fun _ => ?_
    exact .bind_right fun _ => .pure fun _ => rfl
  refine .bind_right fun isBrace => .bind_right fun isArrow => ?_
  split
  next => exact .bind_right fun _ => .bind_right fun _ => .pure fun _ => rfl
  next =>
    refine .bind_right fun first => .bind_right fun others => .bind_right fun _ => ?_
    exact .bind_right fun _ => .pure fun _ => rfl

theorem tracks_of_plain {p : Parser Member} {R : Member → Nat → Prop} {P : EnumDecl → Prop}
    (hmoves : Moves text o p R) (hplain : Yields p Member.IsPlain) :
    Tracks text o p fun m _ => EnumsIn P [m] := by
  intro s hs m c' hp
  obtain ⟨-, hout⟩ := hmoves s hs
  rw [hp] at hout
  exact ⟨hout.1, hout.2.1, .of_isPlain (hplain _ m c' hp)⟩

/-! ## Enums inside other declarations -/

section

variable {P : EnumDecl → Prop} {self : Option String → Parser (List Member)}
  (hself : ∀ container o, Tracks text o (self container) fun ms _ => EnumsIn P ms)

include hself

theorem tracks_typeDeclaration_enumsIn (h : DeclHeader) :
    Tracks text o (typeDeclaration self h) fun m _ => EnumsIn P [m] := by
  have hbody (name : Identifier) (o : Nat) :
      Tracks text o (typeBody self name) fun ms _ => EnumsIn P ms := by
    refine .skip (advances_acceptHere ";") fun isEmpty o₁ _ => ?_
    split
    next => exact .pure (.of_forall (by rintro m ⟨⟩))
    refine .skip (advances_symbol _).label fun _ o₂ _ => ?_
    refine (hself _ o₂).bind fun members o₃ _ hmembers => ?_
    exact .skip (advances_symbol _).label fun _ o₄ _ => .pure hmembers
  refine .skip advances_typeKind fun kind o₁ _ => ?_
  refine .skip (.label (.of_tracks fun _ => spans_identifier)) fun name o₂ _ => ?_
  refine .skip (.of_tracks fun _ => spans_typeParameters?) fun ps o₃ _ => ?_
  refine .skip advances_trivia fun _ o₄ _ => .skip advances_primaryConstructor fun _ o₅ _ => ?_
  refine .skip (.of_tracks fun _ => spans_baseList) fun bases o₆ _ => ?_
  refine .skip advances_constraintClauses fun _ o₇ _ => .skip advances_trivia fun _ o₈ _ => ?_
  refine (hbody name o₈).bind fun members o₉ _ hmembers => .spanFrom_bind fun _ => .pure ?_
  exact .ofType hmembers

theorem tracks_namespaceDeclaration_enumsIn (start : Nat) :
    Tracks text o (namespaceDeclaration self start) fun m _ => EnumsIn P [m] := by
  have husings : Advances usingDirectives := .of_tracks fun _ => spans_usingDirectives
  have hscoped (o : Nat) : Tracks text o (fileScopedBody self) fun r _ => EnumsIn P r.2 :=
    .skip husings fun _ o₁ _ => (hself none o₁).bind fun members o₂ _ hmembers =>
      .skip advances_endOfText.label fun _ o₃ _ => .pure hmembers
  have hblock (o : Nat) : Tracks text o (blockBody self) fun r _ => EnumsIn P r.2 := by
    refine .skip (advances_symbol _).label fun _ o₁ _ => .skip husings fun _ o₂ _ => ?_
    refine (hself none o₂).bind fun members o₃ _ hmembers => ?_
    refine .skip (advances_symbol _).label fun _ o₄ _ => ?_
    exact .skip (advances_accept ";") fun _ o₅ _ => .pure hmembers
  refine .skip (advances_keyword _) fun _ o₁ _ => ?_
  refine .skip (.label (.of_tracks fun _ => spans_dottedName)) fun name o₂ _ => ?_
  refine .skip advances_trivia fun _ o₃ _ => .skip (advances_acceptHere _) fun isScoped o₄ _ => ?_
  split
  next =>
    refine (hscoped o₄).bind fun r o₅ _ hr => ?_
    exact .spanFrom_bind fun _ => .pure (.ofNamespace hr)
  next =>
    refine (hblock o₄).bind fun r o₅ _ hr => ?_
    exact .spanFrom_bind fun _ => .pure (.ofNamespace hr)

variable (henum : ∀ h o, Tracks text o (enumDeclaration h) fun m _ => EnumsIn P [m])

include henum

theorem tracks_memberDeclarationOf_enumsIn (container : Option String) :
    Tracks text o (memberDeclarationOf self container) fun m _ => EnumsIn P [m] := by
  have hother (start : Nat) (kind : OtherKind) (o : Nat) :
      Tracks text o (otherMember start kind) fun m _ => EnumsIn P [m] :=
    tracks_of_plain (moves_otherMember kind) (yields_plain_otherMember start kind)
  refine .skip advances_trivia fun _ start _ => .offset_bind fun _ => ?_
  refine .skip (.of_tracks fun _ => spans_attributeLists) fun attributes o₁ _ => ?_
  refine .skip (.of_tracks fun _ => spans_modifiers) fun ms o₂ _ => ?_
  refine .skip .lookahead fun next o₃ _ => ?_
  split
  next => exact tracks_namespaceDeclaration_enumsIn hself start
  next => exact tracks_typeDeclaration_enumsIn hself _
  next => exact tracks_typeDeclaration_enumsIn hself _
  next => exact tracks_typeDeclaration_enumsIn hself _
  next => exact tracks_typeDeclaration_enumsIn hself _
  next => exact henum _ o₃
  next => exact hother _ _ o₃
  next => exact hother _ _ o₃
  next => exact .skip advances_throughParameters fun _ o₄ _ => hother _ _ o₄
  next => exact .skip advances_throughParameters fun _ o₄ _ => hother _ _ o₄
  refine .skip (advances_nextIs _) fun isDestructor o₄ _ => ?_
  split
  next =>
    refine .skip (advances_takeUntil _).label fun _ o₅ _ => ?_
    exact .skip (advances_delimited _ _) fun _ o₆ _ => hother _ _ o₆
  refine .skip (advances_acceptConstructor container) fun isConstructor o₅ _ => ?_
  split
  next => exact .skip (advances_delimited _ _) fun _ o₆ _ => hother _ _ o₆
  next => exact tracks_of_plain moves_typedMember (yields_plain_typedMember _)

theorem tracks_membersOf_enumsIn (container : Option String) :
    Tracks text o (membersOf self container) fun ms _ => EnumsIn P ms := by
  have hsemicolons : Advances straySemicolons := by
    refine .bind (.many ?_) fun _ => .pure _
    exact .bind advances_trivia fun _ => (advances_literal ";").attempt
  have hround (o : Nat) : Tracks text o (member? self container)
      (Tracks.OfElement (fun _ ms _ => ∀ m ∈ ms, EnumsIn P [m]) o) := by
    refine .skip hsemicolons fun _ o₁ _ => .ahead_bind fun s _ => ?_
    split
    next => exact .pure (by rintro m ⟨⟩)
    next => exact .pure (by rintro m ⟨⟩)
    next =>
      refine (tracks_memberDeclarationOf_enumsIn hself henum container).bind fun m o₂ _ hm => ?_
      exact .pure fun ms _ _ hms => List.forall_mem_cons.mpr ⟨hm, hms⟩
  exact (Tracks.many hround o).mono fun ms _ _ hms => .of_forall hms

end

/-- What holds of every enum declaration in the text holds of all enums that are read from it. -/
theorem tracks_membersIn_enumsIn {P : EnumDecl → Prop}
    (henum : ∀ h o, Tracks text o (enumDeclaration h) fun m _ => EnumsIn P [m])
    (container : Option String) :
    Tracks text o (membersIn container) fun ms _ => EnumsIn P ms :=
  Tracks.fix (fun _ hself container _ => tracks_membersOf_enumsIn hself henum container)
    container o

/-- All members of all enums of a file are quoted in its text. -/
theorem enumerates_of_parse {s : String} {u : CompilationUnit}
    (h : CompilationUnit.parse s = .ok u) : EnumsIn (Enumerates s.toList) u.members := by
  have hunit : Tracks s.toList 0 compilationUnit fun u _ =>
      EnumsIn (Enumerates s.toList) u.members := by
    refine .offset_bind fun _ => .skip advances_externAliases fun _ o₁ _ => ?_
    refine .skip (.of_tracks fun _ => spans_usingDirectives) fun usings o₂ _ => ?_
    refine (tracks_membersIn_enumsIn (fun h _ => tracks_enumDeclarationText h) none).bind
      fun members o₃ _ hmembers => ?_
    exact .skip advances_endOfText.label fun _ o₄ _ => .spanFrom_bind fun _ => .pure hmembers
  obtain ⟨c, hread⟩ := CompilationUnit.exists_of_parse h
  exact (hunit s.toList ⟨[], rfl, rfl⟩ u c hread).2.2

end Grammar

end DeclGen
