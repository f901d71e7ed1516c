import DeclGen.Proofs.Grammar.CappedExprs
import DeclGen.Proofs.Grammar.MemberMoves
import DeclGen.Proofs.Source.LineStarts

/-!
# Members in front of a closing brace

Members that are read in the first text are read in the second. The head of a type and every member
but an enum is the same in both, apart from places. In the second text more may be read, for a body
in braces may end with the brace behind the text.

## Main statements

* `alike_otherMember`, `alike_typedMember`: members
* `alike_typeKind`, `alike_baseList`, `alike_acceptConstructor`: heads of types
-/

namespace DeclGen.Grammar

open DeclGen.Grammar.Parser DeclGen.Text

variable {lax : Prop}

/-! ## Bodies -/

theorem alike_throughSemicolon {what : String} :
    Alike lax (throughSemicolon what) (throughSemicolon what) fun _ _ => True := by
  refine (alike_takeUntil (by decide) fun _ => by decide).label.bind_leaves
    (leaves_takeUntil _).label ?_
  rintro _ _ - _ t ⟨c, u, rfl, -⟩ hst
  exact .take_bind hst (by simp) (.pure trivial)

/-- Where a single `=` is found to come next in the first text, it comes next in the second. -/
theorem Alike.nextIsAssignment_bind {β : Type} {f g : Bool → Parser β} {W : β → β → Prop}
    (h : ∀ b s t, Capped s t → (b = true → ∃ u, s = '=' :: u) → AlikeAt lax s t (f b) (g b) W) :
    Alike lax (nextIsAssignment >>= f) (nextIsAssignment >>= g) W := by
  intro s t hst
  have hat := h (s.head? == some '=' && !"=>".toList.isPrefixOf s) s t hst fun hb =>
    List.head?_eq_some_iff.mp (eq_of_beq (Bool.and_eq_true _ _ ▸ hb).1)
  change AlikeAt lax s t (f (s.head? == some '=' && !"=>".toList.isPrefixOf s))
    (g (t.head? == some '=' && !"=>".toList.isPrefixOf t)) W
  rwa [hst.head?_beq (by decide) (by decide), isPrefixOf_capped (by decide) hst]

theorem alike_memberBody : Alike True memberBody memberBody (· = ·) := by
  refine alike_trivia.bind fun _ _ _ => (alike_nextIs (by decide)).bind ?_
  rintro isBrace _ rfl
  refine .ite (fun _ => alike_braced.bind fun _ _ _ => .pure rfl) fun _ => ?_
  refine (alike_acceptHere (by decide)).bind ?_
  rintro isArrow _ rfl
  refine .ite (fun _ => alike_throughSemicolon.bind fun _ _ _ => .pure rfl) fun _ => ?_
  exact (alike_symbol (by decide)).label.bind fun _ _ _ => .pure rfl

theorem alike_otherMember {start start' : Nat} (kind : OtherKind) :
    Alike True (otherMember start kind) (otherMember start' kind) (·.bare = ·.bare) := by
  have hend : Alike True (do return Member.other kind (← spanFrom start))
      (do return Member.other kind (← spanFrom start')) (·.bare = ·.bare) :=
    alike_spanFrom.bind fun _ _ _ => .pure rfl
  refine (alike_takeUntil (by decide) fun _ => by decide).label.bind fun _ _ _ => ?_
  refine alike_trivia.bind fun _ _ _ => .nextIsAssignment_bind fun isAssignment s t hst h => ?_
  split
  next hb =>
    obtain ⟨u, rfl⟩ := h hb
    exact .take_bind hst (by simp) (alike_throughSemicolon.bind fun _ _ _ => hend)
  next => exact (alike_memberBody.bind fun _ _ _ => hend) _ _ hst

theorem alike_throughParameters :
    Alike lax throughParameters throughParameters fun _ _ => True :=
  (alike_takeUntil (by decide) fun _ => by decide).bind fun _ _ _ =>
    alike_parenthesized.bind fun _ _ _ => .pure trivial

theorem alike_constraintClauses :
    Alike lax constraintClauses constraintClauses fun _ _ => True := by
  refine (alike_acceptKeyword _).bind ?_
  rintro isWhere _ rfl
  refine .ite (fun _ => ?_) fun _ => .pure trivial
  exact (alike_takeUntil (by decide) fun _ => by decide).label.bind fun _ _ _ => .pure trivial

/-! ## Names of members -/

theorem trimEnd_cap {x y : List Char} (h : y = x ∨ y = x ++ ['\n']) : trimEnd y = trimEnd x := by
  rcases h with rfl | rfl
  · rfl
  · exact dropTrailing_append_of_all (List.all_eq_true.mp (by decide))

/-- A line feed that was added is a blank at the end and is trimmed away. -/
theorem trim_cap {x y : List Char} (h : y = x ∨ y = x ++ ['\n']) : trim y = trim x := by
  rcases h with rfl | rfl
  · rfl
  induction x with
  | nil => rfl
  | cons c x ih =>
    rw [trim, trimStart, trim, trimStart, List.cons_append, List.dropWhile_cons,
      List.dropWhile_cons]
    split
    · exact ih
    · exact trimEnd_cap (.inr rfl)

/-- Two segments of a member name are the same but for places, with texts that are the same but for
a line feed. -/
def SameSegment (a b : (Identifier × Option TypeParameters) × List Char) : Prop :=
  (a.1.1.bare = b.1.1.bare ∧ a.1.2.map (·.bare) = b.1.2.map (·.bare)) ∧
    (b.2 = a.2 ∨ b.2 = a.2 ++ ['\n'])

def MemberName.Same (n n' : MemberName) : Prop :=
  n.explicitInterface = n'.explicitInterface ∧ n.identifier.bare = n'.identifier.bare ∧
    n.typeParameters.map (·.bare) = n'.typeParameters.map (·.bare)

theorem alike_nameBrackets :
    Alike lax nameBrackets nameBrackets fun r r' => r.map (·.bare) = r'.map (·.bare) := by
  refine (alike_nextIs (by decide)).bind ?_
  rintro isOpen _ rfl
  refine .ite (fun _ => alike_typeParameters?.attempt.bind ?_) fun _ => .pure rfl
  rintro _ _ (h | _)
  · exact .pure (map_eq_of_rel h)
  · exact alike_typeArguments.bind fun _ _ _ => .pure rfl

theorem alike_nameSegmentText :
    Alike lax nameSegmentText nameSegmentText SameSegment := by
  have hsegment : Alike lax nameSegment nameSegment fun a b =>
      a.1.bare = b.1.bare ∧ a.2.map (·.bare) = b.2.map (·.bare) :=
    alike_identifier.bind fun _ _ hname => alike_trivia.bind fun _ _ _ =>
      alike_nameBrackets.bind fun _ _ h => .pure ⟨hname, h⟩
  exact alike_trivia.bind fun _ _ _ => hsegment.withText

/-- The last elements are related, and so are those before. -/
theorem forall₂_unsnoc {α : Type} {V : α → α → Prop} {as bs : List α} (h : List.Forall₂ V as bs) :
    List.Forall₂ V as.dropLast bs.dropLast ∧ Option.Rel V as.getLast? bs.getLast? := by
  induction h with
  | nil => exact ⟨.nil, .none⟩
  | cons hab hrest ih =>
    cases hrest with
    | nil => exact ⟨.nil, .some hab⟩
    | cons _ _ => exact ⟨.cons hab ih.1, ih.2⟩

theorem alike_memberName : Alike lax memberName memberName MemberName.Same := by
  refine (Alike.sepBy alike_nameSegmentText (alike_accept (by decide)) fun _ o a c =>
    not_ok_at_end (fun _ _ _ => moves_nameSegmentText) o (a, c)).bind fun as bs h => ?_
  have hqualifiers : (as.dropLast.map fun s => String.ofList (trimEnd s.2)) =
      bs.dropLast.map fun s => String.ofList (trimEnd s.2) :=
    map_eq_of_forall₂ ((forall₂_unsnoc h).1.imp fun _ _ hab => by rw [trimEnd_cap hab.2])
  have hlast := (forall₂_unsnoc h).2
  simp only [hqualifiers]
  generalize as.getLast? = last at hlast
  generalize bs.getLast? = last' at hlast
  cases hlast with
  | none => exact .fail
  | some hab => exact .pure ⟨rfl, hab.1⟩

/-! ## Members that start with a type -/

def DeclHeader.Same (h h' : DeclHeader) : Prop :=
  h.attributes.map (·.bare) = h'.attributes.map (·.bare) ∧
    h.modifiers.map (·.bare) = h'.modifiers.map (·.bare)

theorem has_eq_of_bare {ms ms' : List Modifier} (h : ms.map (·.bare) = ms'.map (·.bare))
    (k : ModifierKind) : Modifier.has ms k = Modifier.has ms' k := by
  have hbare (ms : List Modifier) : Modifier.has (ms.map (·.bare)) k = Modifier.has ms k := by
    rw [Modifier.has, List.any_map]
    rfl
  rw [← hbare ms, h, hbare ms']

theorem alike_propertyBody {ms ms' : List Modifier} (h : ms.map (·.bare) = ms'.map (·.bare)) :
    Alike True (propertyBody ms) (propertyBody ms') (· = ·) := by
  refine (alike_nextIs (by decide)).bind ?_
  rintro isBrace _ rfl
  refine .ite (fun _ => alike_braced.bind ?_) fun _ => alike_memberBody.bind fun _ _ _ => .pure rfl
  rintro accessors _ rfl
  have hauto : isAutoAccessors ms accessors = isAutoAccessors ms' accessors := by
    rw [isAutoAccessors, isAutoAccessors, has_eq_of_bare h, has_eq_of_bare h]
  refine alike_trivia.bind fun _ _ _ => .nextIsAssignment_bind fun isAssignment s t hst h => ?_
  split
  next hb =>
    obtain ⟨u, rfl⟩ := h hb
    exact .take_bind hst (by simp) (alike_throughSemicolon.bind fun _ _ _ => .pure hauto)
  next => exact .pure hst hauto

theorem alike_declaratorStart :
    Alike lax declaratorStart declaratorStart fun _ _ => True := by
  refine alike_trivia.bind fun _ _ _ => (alike_acceptHere (by decide)).bind fun _ _ _ => ?_
  refine alike_word.bind ?_
  rintro name _ rfl
  refine alike_trivia.bind fun _ _ _ => .ahead_bind fun s t hst => ?_
  cases isKeyword name with
  | true => exact .fail
  | false =>
    rcases hst.cases_head with ⟨c, u, rfl, rfl⟩ | ⟨rfl, rfl | rfl⟩
    · by_cases hsemicolon : c = ';'
      · subst hsemicolon
        exact .pure hst trivial
      by_cases hcomma : c = ','
      · subst hcomma
        exact .pure hst trivial
      by_cases hequals : c = '='
      · subst hequals
        rcases u with _ | ⟨d, u⟩
        · exact .pure hst trivial
        by_cases hdouble : d = '='
        · subst hdouble
          exact .fail
        by_cases harrow : d = '>'
        · subst harrow
          exact .fail
        · simpa [hdouble, harrow] using .pure hst trivial
      · simpa [hsemicolon, hcomma, hequals] using .fail
    · exact .fail
    · exact .fail

/-- The `,` behind a piece of an initializer ends it in both texts or in none. -/
theorem alike_initializerPiece :
    Alike lax initializerPiece initializerPiece (Round.Rel fun _ _ => True) := by
  refine (alike_takeUntil (by decide) fun _ => by decide).label.bind fun _ _ _ => ?_
  refine .nextIs_bind (by decide) fun isComma s t hst h => ?_
  split
  next hb =>
    obtain ⟨u, rfl⟩ := h hb
    have hnext : AlikeAt False (',' :: u) t (do let _ ← take 1; declaratorStart)
        (do let _ ← take 1; declaratorStart) fun _ _ => True :=
      .take_bind hst (by simp) alike_declaratorStart
    refine hnext.lookahead_bind ?_
    rintro _ _ (_ | _)
    · exact .pure hst (.last trivial)
    · exact .take_bind hst (by simp) (.pure (.more trivial))
  next => exact .pure hst (.last trivial)

theorem alike_fieldInitializer :
    Alike True fieldInitializer fieldInitializer fun _ _ => True := by
  refine alike_trivia.bind fun _ _ _ => .offset_bind fun o o' => ?_
  refine (Alike.rounds alike_initializerPiece fun h => absurd trivial h).withText.bind ?_
  rintro ⟨_, skipped⟩ ⟨_, skipped'⟩ ⟨-, htext⟩
  simp only [trim_cap htext]
  exact .ite (fun _ => .failAt) fun _ => .pure trivial

theorem alike_declarator {name name' : Identifier} (h : name.bare = name'.bare) :
    Alike True (declarator name) (declarator name') (·.bare = ·.bare) := by
  have hinitializer : Alike True
      (do
        trivia
        if ← acceptHere "=" then
          let initializer ← fieldInitializer
          return (⟨name, some initializer, ⟨name.span.start, initializer.stop⟩⟩ : Declarator)
        else return ⟨name, none, name.span⟩)
      (do
        trivia
        if ← acceptHere "=" then
          let initializer ← fieldInitializer
          return (⟨name', some initializer, ⟨name'.span.start, initializer.stop⟩⟩ : Declarator)
        else return ⟨name', none, name'.span⟩) (·.bare = ·.bare) := by
    refine alike_trivia.bind fun _ _ _ => (alike_acceptHere (by decide)).bind ?_
    rintro isInitialized _ rfl
    refine .ite (fun _ => alike_fieldInitializer.bind fun _ _ _ => .pure ?_) fun _ => .pure ?_
    · simp only [Declarator.bare, h, Option.map_some]
    · simp only [Declarator.bare, h, Option.map_none]
  refine alike_trivia.bind fun _ _ _ => (alike_nextIs (by decide)).bind ?_
  rintro isSized _ rfl
  exact .ite (fun _ => alike_bracketed.bind fun _ _ _ => hinitializer) fun _ => hinitializer

theorem alike_declarator? :
    Alike True declarator? declarator? (Option.Rel (·.bare = ·.bare)) := by
  refine (alike_accept (by decide)).bind ?_
  rintro isComma _ rfl
  refine .ite (fun _ => alike_identifier.label.bind fun _ _ hname => ?_) fun _ => .pure .none
  exact (alike_declarator hname).bind fun _ _ h => .pure (.some h)

section

variable {h h' : DeclHeader} {type type' : TypeExpr} {name name' : MemberName} (hh : h.Same h')
  (htype : type.bare = type'.bare) (hname : name.Same name')

include hh htype hname

theorem alike_methodDeclaration :
    Alike True (methodDeclaration h type name) (methodDeclaration h' type' name')
      (·.bare = ·.bare) := by
  refine alike_parenthesized.label.bind ?_
  rintro parameters _ rfl
  refine alike_constraintClauses.bind fun _ _ _ => alike_memberBody.bind ?_
  rintro hasBody _ rfl
  refine alike_spanFrom.bind fun _ _ _ => .pure ?_
  simp only [Member.bare, MethodDecl.bare, hh.1, hh.2, htype, hname.1, hname.2.1, hname.2.2]

theorem alike_propertyDeclaration :
    Alike True (propertyDeclaration h type name) (propertyDeclaration h' type' name')
      (·.bare = ·.bare) := by
  refine (alike_propertyBody hh.2).bind ?_
  rintro isAuto _ rfl
  refine alike_spanFrom.bind fun _ _ _ => .pure ?_
  simp only [Member.bare, PropertyDecl.bare, hh.1, hh.2, htype, hname.1, hname.2.1]

theorem alike_fieldDeclaration :
    Alike True (fieldDeclaration h type name) (fieldDeclaration h' type' name')
      (·.bare = ·.bare) := by
  refine (alike_declarator hname.2.1).bind fun first first' hfirst => ?_
  refine (Alike.many alike_declarator? fun h => absurd trivial h).bind ?_
  refine fun others others' hothers => (alike_symbol (by decide)).label.bind fun _ _ _ => ?_
  refine alike_spanFrom.bind fun _ _ _ => ?_
  refine .pure ?_
  simp only [Member.bare, FieldDecl.bare, List.map_cons, hh.1, hh.2, htype, hfirst,
    map_eq_of_forall₂ hothers]

end

theorem alike_typedMember {h h' : DeclHeader} (hh : h.Same h') :
    Alike True (typedMember h) (typedMember h') (·.bare = ·.bare) := by
  refine alike_typeExpr.label.bind fun type type' htype => (alike_acceptKeyword _).bind ?_
  rintro isOperator _ rfl
  refine .ite (fun _ => alike_throughParameters.bind fun _ _ _ => alike_otherMember _) fun _ => ?_
  refine (alike_acceptKeyword _).bind ?_
  rintro isIndexer _ rfl
  refine .ite (fun _ => alike_trivia.bind fun _ _ _ => alike_bracketed.label.bind fun _ _ _ =>
    alike_otherMember _) fun _ => ?_
  refine alike_memberName.label.bind fun name name' hname => alike_trivia.bind fun _ _ _ => ?_
  refine (alike_nextIs (by decide)).bind ?_
  rintro isMethod _ rfl
  refine .ite (fun _ => alike_methodDeclaration hh htype hname) fun _ => ?_
  refine (alike_nextIs (by decide)).bind ?_
  rintro isBrace _ rfl
  refine (alike_startsWith (by decide)).bind ?_
  rintro isArrow _ rfl
  exact .ite (fun _ => alike_propertyDeclaration hh htype hname) fun _ =>
    alike_fieldDeclaration hh htype hname

/-! ## Heads of types -/

theorem alike_typeKind : Alike lax typeKind typeKind (· = ·) := by
  refine alike_trivia.bind fun _ _ _ => .offset_bind fun o o' => alike_word.bind ?_
  rintro kind _ rfl
  split
  · exact .pure rfl
  · exact .pure rfl
  · exact .pure rfl
  · refine (alike_acceptKeyword _).bind ?_
    rintro isStruct _ rfl
    exact .ite (fun _ => .pure rfl) fun _ => (alike_acceptKeyword _).bind fun _ _ _ => .pure rfl
  · exact .failAt

theorem alike_baseType : Alike lax baseType baseType (·.bare = ·.bare) := by
  have hend {type type' : TypeExpr} (h : type.bare = type'.bare) :
      Alike lax (do trivia; return type) (do trivia; return type') (·.bare = ·.bare) :=
    alike_trivia.bind fun _ _ _ => .pure h
  refine alike_typeExpr.label.bind fun type type' h => alike_trivia.bind fun _ _ _ => ?_
  refine (alike_nextIs (by decide)).bind ?_
  rintro isCall _ rfl
  exact .ite (fun _ => alike_parenthesized.bind fun _ _ _ => hend h) fun _ => hend h

theorem alike_baseList :
    Alike lax baseList baseList fun as bs => as.map (·.bare) = bs.map (·.bare) := by
  refine alike_trivia.bind fun _ _ _ => (alike_acceptHere (by decide)).bind ?_
  rintro isColon _ rfl
  refine .ite (fun _ => ?_) fun _ => .pure rfl
  exact (Alike.sepBy alike_baseType (alike_acceptHere (by decide)) fun _ o a c =>
    not_ok_at_end (fun _ _ _ => moves_baseType) o (a, c)).mono fun _ _ => map_eq_of_forall₂

theorem alike_primaryConstructor :
    Alike lax primaryConstructor primaryConstructor (· = ·) := by
  refine (alike_nextIs (by decide)).bind ?_
  rintro isOpen _ rfl
  refine .ite (fun _ => alike_parenthesized.bind ?_) fun _ => .pure rfl
  rintro parameters _ rfl
  exact .pure rfl

/-! ## What decides between members -/

theorem alike_constructorName (container : String) :
    Alike lax (constructorName container) (constructorName container) fun _ _ => True := by
  refine alike_identifier.bind fun name name' h => alike_trivia.bind fun _ _ _ => ?_
  have hname : name.bare.name = name'.bare.name := by rw [h]
  change name.name = name'.name at hname
  refine (alike_nextIs (by decide)).bind ?_
  rintro isOpen _ rfl
  rw [hname]
  exact .ite (fun _ => .pure trivial) fun _ => .fail

theorem alike_acceptConstructor (container : Option String) :
    Alike lax (acceptConstructor container) (acceptConstructor container) (· = ·) := by
  cases container with
  | none => exact .pure rfl
  | some name => exact alike_isSome (alike_constructorName name)

theorem alike_straySemicolons :
    Alike lax straySemicolons straySemicolons fun _ _ => True := by
  have hsemicolon : Alike lax straySemicolon? straySemicolon? (Option.Rel fun _ _ => True) :=
    alike_trivia.bind fun _ _ _ => (alike_literal (by decide)).attempt
  exact (Alike.many hsemicolon fun _ => not_some_at_end fun _ _ _ => moves_straySemicolon?).bind
    fun _ _ _ => .pure trivial

end DeclGen.Grammar
