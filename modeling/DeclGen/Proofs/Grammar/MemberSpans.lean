import DeclGen.Grammar.Unit
import DeclGen.Proofs.Grammar.ExprSpans

/-!
# Spans of declarations

The spans of a whole file fit its text: each part of a declaration stands inside the declaration and
behind the parts before it, down to the last identifier.

## Main definitions

* `DeclHeader.spanTrees`, `MemberName.spanTrees`: the spans in what members start with

## Main statements

* `exact_of_parse`: the spans of what is read from a text are exact
-/

namespace DeclGen.Grammar

open DeclGen.Grammar.Parser DeclGen.Text

variable {text : List Char} {o : Nat}

/-! ## Bodies -/

theorem advances_throughSemicolon (what : String) : Advances (throughSemicolon what) :=
  .bind (advances_takeUntil _).label fun _ => .bind (.take _) fun _ => .pure _

theorem advances_nextIsAssignment : Advances nextIsAssignment :=
  .bind (advances_nextIs _) fun _ => .bind (advances_startsWith _) fun _ => .pure _

theorem advances_memberBody : Advances memberBody := by
  refine .bind advances_trivia fun _ => .bind (advances_nextIs _) fun isBrace => ?_
  split
  next => exact .bind (advances_delimited _ _) fun _ => .pure _
  refine .bind (advances_acceptHere _) fun isArrow => ?_
  split
  next => exact .bind (advances_throughSemicolon _) fun _ => .pure _
  next => exact .bind (advances_symbol _).label fun _ => .pure _

theorem advances_throughParameters : Advances throughParameters :=
  .bind (advances_takeUntil _) fun _ => .bind (advances_delimited _ _) fun _ => .pure _

theorem advances_constraintClauses : Advances constraintClauses := by
  refine .bind (advances_acceptKeyword _) fun isWhere => ?_
  split
  next => exact .bind (advances_takeUntil _).label fun _ => .pure _
  next => exact .pure _

theorem advances_propertyBody (modifiers : List Modifier) : Advances (propertyBody modifiers) := by
  refine .bind (advances_nextIs _) fun isBrace => ?_
  split
  next =>
    refine .bind (advances_delimited _ _) fun _ => .bind advances_trivia fun _ => ?_
    refine .bind advances_nextIsAssignment fun isAssignment => ?_
    split
    next =>
      refine .bind (.take _) fun _ => .bind (advances_throughSemicolon _) fun _ => .pure _
    next => exact .pure _
  next => exact .bind advances_memberBody fun _ => .pure _

theorem advances_initializerPiece : Advances initializerPiece := by
  refine .bind (advances_takeUntil _).label fun _ => .bind (advances_nextIs _) fun isComma => ?_
  split
  next =>
    refine .bind .lookahead fun next => ?_
    split
    next => exact .pure _
    next => exact .bind (.take _) fun _ => .pure _
  next => exact .pure _

theorem tracks_otherMember {start : Nat} (hlo : IsBoundary text start) (hle : start ≤ o)
    (kind : OtherKind) :
    Tracks text o (otherMember start kind) fun m o' => Stand text start [m.spanTree] o' := by
  have hrest {o' : Nat} (hle' : start ≤ o') :
      Tracks text o' (do return Member.other kind (← spanFrom start)) fun m o'' =>
        Stand text start [m.spanTree] o'' :=
    .spanFrom_bind fun hhi =>
      .pure (.singleton ((Stand.nil hle').node hlo hhi) (Nat.le_refl _) (Nat.le_refl _))
  refine .skip (advances_takeUntil _).label fun _ o₁ hle₁ => ?_
  refine .skip advances_trivia fun _ o₂ hle₂ => ?_
  refine .skip advances_nextIsAssignment fun isAssignment o₃ hle₃ => ?_
  split
  next =>
    refine .skip (.take _) fun _ o₄ hle₄ => ?_
    exact .skip (advances_throughSemicolon _) fun _ o₅ hle₅ => hrest (by omega)
  next => exact .skip advances_memberBody fun _ o₄ hle₄ => hrest (by omega)

/-! ## Members that start with a type -/

def DeclHeader.spanTrees (h : DeclHeader) : List SpanTree :=
  h.attributes.map (·.spanTree) ++ h.modifiers.map (·.spanTree)

/-- The spans of what is kept of the name of a member. -/
def MemberName.spanTrees (n : MemberName) : List SpanTree :=
  n.identifier.spanTree :: n.typeParameters.toList.map (·.spanTree)

theorem spans_nameBrackets : Spans text nameBrackets fun r => r.toList.map (·.spanTree) := by
  refine fun o => .skip (advances_nextIs '<') fun isOpen o₁ hle₁ => ?_
  split
  next =>
    refine (spans_typeParameters?.attempt o₁).bind fun r o₂ hle₂ hr => ?_
    cases r with
    | some ps =>
      have hps : Stand text o₁ (ps.toList.map (·.spanTree)) o₂ := by simpa using hr
      exact .pure (hps.mono hle₁ (Nat.le_refl _))
    | none =>
      refine .skip (.of_tracks fun _ => spans_typeArgumentsOf spans_typeExpr) fun _ o₃ hle₃ => ?_
      exact .pure (.nil (by omega))
  next => exact .pure (.nil hle₁)

theorem spans_nameSegment :
    Spans text nameSegment fun r => r.1.spanTree :: r.2.toList.map (·.spanTree) := by
  refine fun o => (spans_identifier o).bind fun name o₁ _ hname => ?_
  refine .skip advances_trivia fun _ o₂ hle => (spans_nameBrackets o₂).bind fun ps o₃ _ hps => ?_
  exact .pure (hname.append (hps.mono hle (Nat.le_refl _)))

theorem spans_memberName : Spans text memberName MemberName.spanTrees := by
  have hsegment : Spans text (do trivia; withText nameSegment) fun r =>
      r.1.1.spanTree :: r.1.2.toList.map (·.spanTree) :=
    fun o => .skip advances_trivia fun _ o₁ hle => (spans_nameSegment o₁).withText.mono
      fun _ _ _ hr => hr.1.mono hle (Nat.le_refl _)
  refine fun o => (hsegment.sepBy (advances_accept ".") o).bind fun segments o₁ _ hall => ?_
  dsimp only
  split
  next name ps x hlast =>
    obtain ⟨front, rfl⟩ := List.getLast?_eq_some_iff.mp hlast
    have hsplit : Stand text o (front.flatMap (fun r =>
        r.1.1.spanTree :: r.1.2.toList.map (·.spanTree)) ++
          MemberName.spanTrees ⟨none, name, ps⟩) o₁ := by
      simpa [MemberName.spanTrees] using hall
    exact .pure hsplit.of_append_right
  next => exact .fail

section

variable {h : DeclHeader} {type : TypeExpr} {name : MemberName} {mid : Nat}
  (hlo : IsBoundary text h.start) (htype : Stand text h.start (h.spanTrees ++ [type.spanTree]) mid)
  (hname : Stand text mid name.spanTrees o)

include hlo htype hname

theorem tracks_methodDeclaration : Tracks text o (methodDeclaration h type name) fun m o' =>
    Stand text h.start [m.spanTree] o' := by
  refine .skip (advances_delimited '(' ')').label fun parameters o₁ hle₁ => ?_
  refine .skip advances_constraintClauses fun _ o₂ hle₂ => ?_
  refine .skip advances_memberBody fun hasBody o₃ hle₃ => .spanFrom_bind fun hhi => .pure ?_
  have hall := (htype.append hname).mono (Nat.le_refl _) (show o ≤ o₃ by omega)
  refine .singleton (Stand.node ?_ hlo hhi) (Nat.le_refl _) (Nat.le_refl _)
  simpa [DeclHeader.spanTrees, MemberName.spanTrees] using hall

theorem tracks_propertyDeclaration : Tracks text o (propertyDeclaration h type name) fun m o' =>
    Stand text h.start [m.spanTree] o' := by
  refine .skip (advances_propertyBody _) fun isAuto o₁ hle₁ => .spanFrom_bind fun hhi => .pure ?_
  have hidentifier : Stand text mid [name.identifier.spanTree] o := Stand.of_append_left hname
  have hall := (htype.append hidentifier).mono (Nat.le_refl _) hle₁
  refine .singleton (Stand.node ?_ hlo hhi) (Nat.le_refl _) (Nat.le_refl _)
  simpa [DeclHeader.spanTrees] using hall

end

theorem spans_fieldInitializer : Spans text fieldInitializer fun span => [.node span none []] := by
  refine fun o => .skip advances_trivia fun _ start hstart => .offset_bind fun hlo => ?_
  refine (advances_initializerPiece.rounds text start).withText.bind fun r o₁ _ hr => ?_
  obtain ⟨_, skipped⟩ := r
  obtain ⟨hspells, hle⟩ := hr.2.trimEnd
  dsimp only
  split
  next => exact .failAt _ _
  next =>
    refine .pure (.singleton (Stand.node (.nil ?_) hlo hspells.isBoundary_stop) hstart hle)
    exact hspells.le

theorem tracks_declarator {lo : Nat} {name : Identifier} (hname : Stand text lo [name.spanTree] o) :
    Tracks text o (declarator name) fun d o' => Stand text lo [d.spanTree] o' := by
  have hexact := hname.exact name.spanTree (by simp)
  have hstart := (hname.inside name.spanTree (by simp)).1
  have hrest {o' : Nat} (hle : o ≤ o') : Tracks text o' (do
      trivia
      if ← acceptHere "=" then
        let initializer ← fieldInitializer
        return (⟨name, some initializer, ⟨name.span.start, initializer.stop⟩⟩ : Declarator)
      else return ⟨name, none, name.span⟩) fun d o'' => Stand text lo [d.spanTree] o'' := by
    refine .skip advances_trivia fun _ o₁ hle₁ => ?_
    refine .skip (advances_acceptHere _) fun isAssignment o₂ hle₂ => ?_
    have hname' := hname.mono (Nat.le_refl _) (show o ≤ o₂ by omega)
    split
    next =>
      refine (spans_fieldInitializer o₂).bind fun initializer o₃ _ hinitializer => .pure ?_
      have hends : Stand text lo ([name.spanTree, .node initializer none []].map id) o₃ :=
        hname'.append hinitializer
      exact hends.exact_of_ends
    next =>
      refine .pure (.singleton ?_ hstart (hname'.inside name.spanTree (by simp)).2)
      exact (Stand.singleton hexact (Nat.le_refl _) (Nat.le_refl _)).node hexact.isBoundary_start
        hexact.isBoundary_stop
  refine .skip advances_trivia fun _ o₁ hle₁ => ?_
  refine .skip (advances_nextIs _) fun isBracket o₂ hle₂ => ?_
  split
  next => exact .skip (advances_delimited _ _) fun _ o₃ hle₃ => hrest (by omega)
  next => exact hrest (by omega)

theorem tracks_fieldDeclaration {h : DeclHeader} {type : TypeExpr} {name : MemberName} {mid : Nat}
    (hlo : IsBoundary text h.start)
    (htype : Stand text h.start (h.spanTrees ++ [type.spanTree]) mid)
    (hname : Stand text mid name.spanTrees o) :
    Tracks text o (fieldDeclaration h type name) fun m o' =>
      Stand text h.start [m.spanTree] o' := by
  have hidentifier : Stand text mid [name.identifier.spanTree] o := Stand.of_append_left hname
  refine (tracks_declarator hidentifier).bind fun first o₁ _ hfirst => ?_
  have hothers : Spans text (many do
      if ← accept "," then
        let next ← label "variable name" identifier
        return some (← declarator next)
      else return none) fun ds => ds.map (·.spanTree) := by
    refine .of_map (.many fun o => .skip (advances_accept ",") fun isComma o₂ hle => ?_)
    split
    next =>
      refine (spans_identifier.label o₂).bind fun next o₃ _ hnext => ?_
      refine (tracks_declarator hnext).bind fun d o₄ _ hd => .pure ?_
      exact hd.mono hle (Nat.le_refl _)
    next => exact .pure (.nil hle)
  refine (hothers o₁).bind fun others o₂ _ hothers => ?_
  refine .skip (advances_symbol ";").label fun _ o₃ hle => .spanFrom_bind fun hhi => .pure ?_
  have hall := (htype.append (hfirst.append hothers)).mono (Nat.le_refl _) hle
  refine .singleton (Stand.node ?_ hlo hhi) (Nat.le_refl _) (Nat.le_refl _)
  simpa [DeclHeader.spanTrees] using hall

theorem tracks_typedMember {h : DeclHeader} (hlo : IsBoundary text h.start)
    (hh : Stand text h.start h.spanTrees o) :
    Tracks text o (typedMember h) fun m o' => Stand text h.start [m.spanTree] o' := by
  refine (spans_typeExpr.label o).bind fun type o₁ _ htype => ?_
  have htype := hh.append htype
  refine .skip (advances_acceptKeyword _) fun isOperator o₂ hle₂ => ?_
  have hle := htype.le
  split
  next =>
    refine .skip advances_throughParameters fun _ o₃ hle₃ => ?_
    exact tracks_otherMember hlo (by omega) _
  refine .skip (advances_acceptKeyword _) fun isIndexer o₃ hle₃ => ?_
  split
  next =>
    refine .skip advances_trivia fun _ o₄ hle₄ => ?_
    refine .skip (advances_delimited _ _).label fun _ o₅ hle₅ => ?_
    exact tracks_otherMember hlo (by omega) _
  refine (spans_memberName.label o₃).bind fun name o₄ _ hname => ?_
  have htype := htype.mono (Nat.le_refl _) (Nat.le_trans hle₂ hle₃)
  refine .skip advances_trivia fun _ o₅ hle₅ => .skip (advances_nextIs _) fun isMethod o₆ hle₆ => ?_
  split
  next =>
    exact tracks_methodDeclaration hlo htype (hname.mono (Nat.le_refl _) (by omega))
  refine .skip (advances_nextIs _) fun isBrace o₇ hle₇ => ?_
  refine .skip (advances_startsWith _) fun isArrow o₈ hle₈ => ?_
  split
  next =>
    exact tracks_propertyDeclaration hlo htype (hname.mono (Nat.le_refl _) (by omega))
  next =>
    exact tracks_fieldDeclaration hlo htype (hname.mono (Nat.le_refl _) (by omega))

/-! ## Enums -/

theorem spans_enumMember : Spans text enumMember fun m => [m.spanTree] := by
  refine fun o => .skip advances_trivia fun _ start hstart => .offset_bind fun hlo => ?_
  refine (spans_attributeLists start).bind fun attributes o₁ _ hattributes => ?_
  refine (spans_identifier o₁).bind fun name o₂ _ hname => ?_
  refine .skip (advances_accept "=") fun hasInitializer o₃ hle => ?_
  have hall := (hattributes.append hname).mono (Nat.le_refl _) hle
  have hrest {initializer : Option Expr} {o₄ : Nat}
      (hinitializer : Stand text o₃ (initializer.toList.map (·.spanTree)) o₄) :
      Tracks text o₄ (do
        return (⟨attributes, name, initializer, ← spanFrom start⟩ : EnumMember))
        fun m o' => Stand text o [m.spanTree] o' := by
    refine .spanFrom_bind fun hhi => .pure ?_
    exact .singleton ((hall.append hinitializer).node hlo hhi) hstart (Nat.le_refl _)
  split
  next =>
    refine Tracks.bind ((spans_initializerExpr o₃).bind fun e o₄ _ he => .pure ?_)
      fun initializer o₄ _ hinitializer => hrest hinitializer
    exact he
  next => exact hrest (.nil (Nat.le_refl _))

theorem spans_enumMembers : Spans text enumMembers fun ms => ms.map (·.spanTree) := by
  refine .of_map (.rounds fun o => .skip advances_trivia fun _ o₁ hle₁ => ?_)
  refine .skip (advances_acceptHere _) fun isEnd o₂ hle₂ => ?_
  split
  next => exact .pure (.nil (Nat.le_trans hle₁ hle₂))
  refine (spans_enumMember.label o₂).bind fun m o₃ _ hm => ?_
  refine .skip (advances_accept ",") fun isComma o₄ hle₄ => ?_
  split
  next => exact .pure (hm.mono (by omega) hle₄)
  next =>
    refine .skip (advances_symbol _).label fun _ o₅ hle₅ => .pure ?_
    exact hm.mono (by omega) (Nat.le_trans hle₄ hle₅)

theorem tracks_enumDeclaration {h : DeclHeader} (hlo : IsBoundary text h.start)
    (hh : Stand text h.start h.spanTrees o) :
    Tracks text o (enumDeclaration h) fun m o' => Stand text h.start [m.spanTree] o' := by
  refine .skip (advances_keyword _) fun _ o₁ hle₁ => ?_
  refine (spans_identifier.label o₁).bind fun name o₂ _ hname => ?_
  refine .skip advances_trivia fun _ o₃ hle₃ => ?_
  refine .skip (advances_acceptHere _) fun hasBase o₄ hle₄ => ?_
  have hall := ((hh.mono (Nat.le_refl _) hle₁).append hname).mono (Nat.le_refl _)
    (Nat.le_trans hle₃ hle₄)
  have hrest {base : Option TypeExpr} {o₅ : Nat}
      (hbase : Stand text o₄ (base.toList.map (·.spanTree)) o₅) : Tracks text o₅ (do
        label "'\x7b' opening the enum body" (symbol "\x7b")
        let members ← enumMembers
        let _ ← accept ";"
        return Member.ofEnum ⟨h.attributes, h.modifiers, name, base, members, ← spanFrom h.start⟩)
        fun m o' => Stand text h.start [m.spanTree] o' := by
    refine .skip (advances_symbol _).label fun _ o₆ hle₆ => ?_
    refine (spans_enumMembers o₆).bind fun members o₇ _ hmembers => ?_
    refine .skip (advances_accept ";") fun _ o₈ hle₈ => .spanFrom_bind fun hhi => .pure ?_
    have hmembers := ((hall.append hbase).mono (Nat.le_refl _) hle₆).append
      (hmembers.mono (Nat.le_refl _) hle₈)
    refine .singleton (Stand.node ?_ hlo hhi) (Nat.le_refl _) (Nat.le_refl _)
    simpa [DeclHeader.spanTrees] using hmembers
  split
  next =>
    refine Tracks.bind ((spans_typeExpr.label o₄).bind fun t o₅ _ ht => .pure ?_)
      fun base o₅ _ hbase => hrest hbase
    exact ht
  next => exact hrest (.nil (Nat.le_refl _))

/-! ## Types -/

theorem advances_typeKind : Advances typeKind := by
  refine .bind advances_trivia fun _ => .bind .offset fun start => .bind advances_word fun w => ?_
  split
  next => exact .pure _
  next => exact .pure _
  next => exact .pure _
  next =>
    refine .bind (advances_acceptKeyword _) fun isStruct => ?_
    split
    next => exact .pure _
    next => exact .bind (advances_acceptKeyword _) fun _ => .pure _
  next => exact .failAt _ _

theorem spans_baseType : Spans text baseType fun t => [t.spanTree] := by
  refine fun o => (spans_typeExpr.label o).bind fun t o₁ _ ht => ?_
  refine .skip advances_trivia fun _ o₂ hle₂ => .skip (advances_nextIs _) fun isOpen o₃ hle₃ => ?_
  have hrest {o' : Nat} (hle : o₁ ≤ o') :
      Tracks text o' (do trivia; return t) fun t o'' => Stand text o [t.spanTree] o'' :=
    .skip advances_trivia fun _ o₄ hle₄ => .pure (ht.mono (Nat.le_refl _) (Nat.le_trans hle hle₄))
  split
  next => exact .skip (advances_delimited _ _) fun _ o₄ hle₄ => hrest (by omega)
  next => exact hrest (by omega)

theorem spans_baseList : Spans text baseList fun ts => ts.map (·.spanTree) := by
  refine fun o => .skip advances_trivia fun _ o₁ hle₁ => ?_
  refine .skip (advances_acceptHere _) fun hasBases o₂ hle₂ => ?_
  split
  next =>
    refine ((spans_baseType.sepBy (advances_acceptHere _)).of_map o₂).mono fun ts o₃ _ hts => ?_
    exact hts.mono (Nat.le_trans hle₁ hle₂) (Nat.le_refl _)
  next => exact .pure (.nil (Nat.le_trans hle₁ hle₂))

theorem advances_primaryConstructor : Advances primaryConstructor := by
  refine .bind (advances_nextIs _) fun isOpen => ?_
  split
  next => exact .bind (advances_delimited _ _) fun _ => .pure _
  next => exact .pure _

theorem advances_endOfText : Advances endOfText := by
  refine .bind .ahead fun s => ?_
  split
  next => exact .pure _
  next => exact .fail

theorem advances_acceptConstructor (container : Option String) :
    Advances (acceptConstructor container) := by
  have hname (c : String) : Advances (constructorName c) := by
    refine .bind (.of_tracks fun _ => spans_identifier) fun name => ?_
    refine .bind advances_trivia fun _ => .bind (advances_nextIs _) fun isOpen => ?_
    split
    next => exact .pure _
    next => exact .fail
  cases container with
  | none => exact .pure _
  | some c => exact .bind (hname c).attempt fun _ => .pure _

section

variable {self : Option String → Parser (List Member)}
  (hself : ∀ container, Spans text (self container) memberTrees)

include hself

theorem spans_typeBody (name : Identifier) : Spans text (typeBody self name) memberTrees := by
  refine fun o => .skip (advances_acceptHere ";") fun isEmpty o₁ hle₁ => ?_
  split
  next => exact .pure (.nil hle₁)
  next =>
    refine .skip (advances_symbol _).label fun _ o₂ hle₂ => ?_
    refine (hself _ o₂).bind fun members o₃ _ hmembers => ?_
    refine .skip (advances_symbol _).label fun _ o₄ hle₄ => .pure ?_
    exact hmembers.mono (Nat.le_trans hle₁ hle₂) hle₄

theorem tracks_typeDeclaration {h : DeclHeader} (hlo : IsBoundary text h.start)
    (hh : Stand text h.start h.spanTrees o) :
    Tracks text o (typeDeclaration self h) fun m o' => Stand text h.start [m.spanTree] o' := by
  refine .skip advances_typeKind fun kind o₁ hle₁ => ?_
  refine (spans_identifier.label o₁).bind fun name o₂ _ hname => ?_
  refine (spans_typeParameters? o₂).bind fun ps o₃ _ hps => ?_
  refine .skip advances_trivia fun _ o₄ hle₄ => ?_
  refine .skip advances_primaryConstructor fun constructor o₅ hle₅ => ?_
  refine (spans_baseList o₅).bind fun bases o₆ _ hbases => ?_
  refine .skip advances_constraintClauses fun _ o₇ hle₇ => .skip advances_trivia fun _ o₈ hle₈ => ?_
  refine (spans_typeBody hself name o₈).bind fun members o₉ _ hmembers => ?_
  refine .spanFrom_bind fun hhi => .pure ?_
  have hnamed := ((hh.mono (Nat.le_refl _) hle₁).append hname).append hps
  have hbased := (hnamed.mono (Nat.le_refl _) (Nat.le_trans hle₄ hle₅)).append hbases
  have hall := (hbased.mono (Nat.le_refl _) (Nat.le_trans hle₇ hle₈)).append hmembers
  refine .singleton (Stand.node ?_ hlo hhi) (Nat.le_refl _) (Nat.le_refl _)
  simpa [DeclHeader.spanTrees, TypeHead.spanTrees] using hall

/-! ## Namespaces -/

theorem spans_fileScopedBody : Spans text (fileScopedBody self) fun r =>
    r.1.map (·.spanTree) ++ memberTrees r.2 := by
  refine fun o => (spans_usingDirectives o).bind fun usings o₁ _ husings => ?_
  refine (hself none o₁).bind fun members o₂ _ hmembers => ?_
  refine .skip advances_endOfText.label fun _ o₃ hle => .pure ?_
  exact husings.append (hmembers.mono (Nat.le_refl _) hle)

theorem spans_blockBody : Spans text (blockBody self) fun r =>
    r.1.map (·.spanTree) ++ memberTrees r.2 := by
  refine fun o => .skip (advances_symbol _).label fun _ o₁ hle₁ => ?_
  refine (spans_usingDirectives o₁).bind fun usings o₂ _ husings => ?_
  refine (hself none o₂).bind fun members o₃ _ hmembers => ?_
  refine .skip (advances_symbol _).label fun _ o₄ hle₄ => ?_
  refine .skip (advances_accept ";") fun _ o₅ hle₅ => .pure ?_
  exact (husings.append hmembers).mono hle₁ (Nat.le_trans hle₄ hle₅)

theorem tracks_namespaceDeclaration {start : Nat} (hlo : IsBoundary text start)
    (hle : start ≤ o) :
    Tracks text o (namespaceDeclaration self start) fun m o' =>
      Stand text start [m.spanTree] o' := by
  refine .skip (advances_keyword _) fun _ o₁ hle₁ => ?_
  refine (spans_dottedName.label o₁).bind fun name o₂ _ hname => ?_
  refine .skip advances_trivia fun _ o₃ hle₃ => ?_
  refine .skip (advances_acceptHere _) fun isScoped o₄ hle₄ => ?_
  have hname := hname.mono (Nat.le_trans hle hle₁) (Nat.le_trans hle₃ hle₄)
  have hrest {usings : List UsingDirective} {members : List Member} {o₅ : Nat}
      (hbody : Stand text o₄ (usings.map (·.spanTree) ++ memberTrees members) o₅) :
      Tracks text o₅ (do
        return Member.ofNamespace ⟨name, isScoped, usings, ← spanFrom start⟩ members)
        fun m o' => Stand text start [m.spanTree] o' := by
    refine .spanFrom_bind fun hhi => .pure ?_
    exact .singleton ((hname.append hbody).node hlo hhi) (Nat.le_refl _) (Nat.le_refl _)
  split
  next =>
    refine (spans_fileScopedBody hself o₄).bind fun r o₅ _ hr => ?_
    exact hrest hr
  next =>
    refine (spans_blockBody hself o₄).bind fun r o₅ _ hr => ?_
    exact hrest hr

/-! ## All declarations -/

theorem spans_memberDeclarationOf (container : Option String) :
    Spans text (memberDeclarationOf self container) fun m => [m.spanTree] := by
  refine fun o => .skip advances_trivia fun _ start hstart => .offset_bind fun hlo => ?_
  refine (spans_attributeLists start).bind fun attributes o₁ _ hattributes => ?_
  refine (spans_modifiers o₁).bind fun ms o₂ _ hms => ?_
  have hh : Stand text start (DeclHeader.spanTrees ⟨start, attributes, ms⟩) o₂ :=
    hattributes.append hms
  refine .skip .lookahead fun next o₃ hle₃ => ?_
  have hh := hh.mono (Nat.le_refl _) hle₃
  suffices hread : Tracks text o₃ _ fun (m : Member) o' => Stand text start [m.spanTree] o' from
    hread.mono fun m o' _ hm => hm.mono hstart (Nat.le_refl _)
  split
  next => exact tracks_namespaceDeclaration hself hlo hh.le
  next => exact tracks_typeDeclaration hself hlo hh
  next => exact tracks_typeDeclaration hself hlo hh
  next => exact tracks_typeDeclaration hself hlo hh
  next => exact tracks_typeDeclaration hself hlo hh
  next => exact tracks_enumDeclaration hlo hh
  next => exact tracks_otherMember hlo hh.le _
  next => exact tracks_otherMember hlo hh.le _
  next =>
    refine .skip advances_throughParameters fun _ o₄ hle₄ => ?_
    exact tracks_otherMember hlo (Nat.le_trans hh.le hle₄) _
  next =>
    refine .skip advances_throughParameters fun _ o₄ hle₄ => ?_
    exact tracks_otherMember hlo (Nat.le_trans hh.le hle₄) _
  have hle := hh.le
  refine .skip (advances_nextIs _) fun isDestructor o₄ hle₄ => ?_
  split
  next =>
    refine .skip (advances_takeUntil _).label fun _ o₅ hle₅ => ?_
    refine .skip (advances_delimited _ _) fun _ o₆ hle₆ => ?_
    exact tracks_otherMember hlo (by omega) _
  refine .skip (advances_acceptConstructor container) fun isConstructor o₅ hle₅ => ?_
  split
  next =>
    refine .skip (advances_delimited _ _) fun _ o₆ hle₆ => ?_
    exact tracks_otherMember hlo (by omega) _
  next => exact tracks_typedMember hlo (hh.mono (Nat.le_refl _) (by omega))

theorem spans_membersOf (container : Option String) :
    Spans text (membersOf self container) memberTrees := by
  have hsemicolons : Advances straySemicolons := by
    refine .bind (.many ?_) fun _ => .pure _
    exact .bind advances_trivia fun _ => (advances_literal ";").attempt
  have hmany : Spans text (membersOf self container) fun ms =>
      ms.flatMap fun m => [m.spanTree] := by
    refine .many fun o => .skip hsemicolons fun _ o₁ hle₁ => .ahead_bind fun s _ => ?_
    split
    next => exact .pure (.nil hle₁)
    next => exact .pure (.nil hle₁)
    next =>
      refine (spans_memberDeclarationOf hself container o₁).bind fun m o₂ _ hm => .pure ?_
      exact hm.mono hle₁ (Nat.le_refl _)
  rwa [funext memberTrees_eq]

end

theorem spans_membersIn (container : Option String) :
    Spans text (membersIn container) memberTrees :=
  .fix (fun _ hself container => spans_membersOf hself container) container

/-! ## Files -/

theorem advances_externAliases : Advances externAliases := by
  have hopening : Advances externAliasOpening :=
    .bind (advances_keyword _) fun _ => advances_keyword _
  refine .bind (.many (.bind hopening.attempt fun r => ?_)) fun _ => .pure _
  split
  next => exact .pure _
  next =>
    refine .bind advances_trivia fun _ => .bind advances_word fun _ => ?_
    exact .bind (advances_symbol _).label fun _ => .pure _

theorem spans_compilationUnit : Spans text compilationUnit fun u => [u.spanTree] := by
  refine fun start => .offset_bind fun hlo => .skip advances_externAliases fun _ o₁ hle₁ => ?_
  refine (spans_usingDirectives o₁).bind fun usings o₂ _ husings => ?_
  refine (spans_membersIn none o₂).bind fun members o₃ _ hmembers => ?_
  refine .skip advances_endOfText.label fun _ o₄ hle₄ => .spanFrom_bind fun hhi => .pure ?_
  have hall := (husings.append hmembers).mono hle₁ hle₄
  exact .singleton (hall.node hlo hhi) (Nat.le_refl _) (Nat.le_refl _)

end DeclGen.Grammar

namespace DeclGen

open DeclGen.Grammar

/-- All spans of the tree of a text fit the text: they start and end at characters of it, the spans
below a node lie inside its span and one behind the other, and every identifier, attribute list,
modifier, built-in type, integer literal and unsupported expression has the text that its span
covers. -/
theorem CompilationUnit.exact_of_parse {text : String} {u : CompilationUnit}
    (h : CompilationUnit.parse text = .ok u) : u.spanTree.Exact text.toList := by
  obtain ⟨c, hread⟩ := exists_of_parse h
  have hstart : Rest text.toList 0 text.toList := ⟨[], rfl, rfl⟩
  obtain ⟨-, -, hstand⟩ := spans_compilationUnit 0 text.toList hstart u c hread
  exact hstand.exact u.spanTree List.mem_cons_self

def shortFile : String :=
  "partial class A<T> : B.C<int[]> \x7b [X(1)] public T? é = f(2), @d ; \x7d " ++
    "enum E : byte \x7b F = -(1 << 2) \x7d"

theorem CompilationUnit.exact_of_parse_shortFile :
    ∃ u, CompilationUnit.parse shortFile = .ok u ∧ u.members.length = 2 ∧
      u.spanTree.Exact shortFile.toList := by
  have hparse : (CompilationUnit.parse shortFile).toOption.any
      (fun u => u.members.length == 2) = true := by decide +kernel
  obtain ⟨u, hsome, hlength⟩ := (Option.any_eq_true ..).mp hparse
  have hok : CompilationUnit.parse shortFile = .ok u := by
    cases hread : CompilationUnit.parse shortFile with
    | error e => simp [hread, Except.toOption] at hsome
    | ok v => simpa [hread, Except.toOption] using hsome
  exact ⟨u, hok, beq_iff_eq.mp hlength, CompilationUnit.exact_of_parse hok⟩

end DeclGen
