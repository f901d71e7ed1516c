import DeclGen.Grammar.Unit
import DeclGen.Proofs.Grammar.ExprMoves

/-!
# Declarations go forward

Whatever a declaration starts with, something of it is read: a word, a name or a bracket. The
parser of a list of declarations calls itself behind the brace or semicolon that opens a body.

## Main statements

* `moves_initializerPiece`, `moves_declarator?`, `moves_enumMemberRound`: rounds of declarations
* `agree_memberDeclarationOf`, `agree_membersOf`: what the parser of declarations does between calls
* `moves_compilationUnit`: files
-/

namespace DeclGen.Grammar

open DeclGen.Grammar.Parser DeclGen.Text

variable {text : List Char} {o : Nat}

/-! ## Bodies -/

theorem moves_throughSemicolon (what : String) :
    Moves text o (throughSemicolon what) fun _ _ => True :=
  (moves_takeUntil _).label.bind fun _ _ _ _ => (Moves.take 1).bind fun _ _ _ _ => .pure True.intro

/-- Where a single `=` is found to come next, it is left. -/
theorem Agree.nextIsAssignment_bind {β : Type} {f g : Bool → Parser β} {S : β → Nat → Prop}
    (h : ∀ b, (b = true → ∃ s, Rest text o ('=' :: s)) → Agree text o (f b) (g b) S) :
    Agree text o (nextIsAssignment >>= f) (nextIsAssignment >>= g) S := by
  intro s hs
  refine h (s.head? == some '=' && !"=>".toList.isPrefixOf s) (fun hb => ?_) s hs
  obtain ⟨t, rfl⟩ := List.head?_eq_some_iff.mp (eq_of_beq (Bool.and_eq_true _ _ ▸ hb).1)
  exact ⟨t, hs⟩

theorem moves_memberBody : Moves text o memberBody fun _ o' => o < o' := by
  refine moves_trivia.bind fun _ o₁ hle₁ _ => .nextIs_bind '\x7b' fun b _ => ?_
  split
  next =>
    refine (moves_delimited _ _).bind fun _ o₂ _ hlt => .pure ?_
    exact Nat.lt_of_le_of_lt hle₁ hlt
  next =>
    refine (moves_acceptHere (by decide)).bind fun isArrow o₂ hle₂ harrow => ?_
    split
    next hb =>
      have := harrow hb
      refine (moves_throughSemicolon _).bind fun _ o₃ hle₃ _ => .pure ?_
      omega
    next =>
      refine (moves_symbol (by decide)).label.bind fun _ o₃ _ hlt => .pure ?_
      omega

theorem moves_otherMember {start : Nat} (kind : OtherKind) :
    Moves text o (otherMember start kind) fun _ o' => o < o' := by
  refine (moves_takeUntil _).label.bind fun _ o₁ hle₁ _ => moves_trivia.bind fun _ o₂ hle₂ _ => ?_
  have hend (o₃ : Nat) (hlt : o < o₃) : Moves text o₃ (do
      return Member.other kind (← spanFrom start)) fun _ o' => o < o' :=
    (moves_spanFrom _).bind fun _ _ hle _ => .pure (Nat.lt_of_lt_of_le hlt hle)
  refine .nextIsAssignment_bind fun b hassign => ?_
  split
  next hb =>
    obtain ⟨s, hs⟩ := hassign hb
    refine (Moves.take_succ hs 0).bind fun _ o₃ _ hlt => ?_
    exact (moves_throughSemicolon _).bind fun _ o₄ _ _ => hend o₄ (by omega)
  next => exact moves_memberBody.bind fun _ o₃ _ hlt => hend o₃ (by omega)

theorem moves_throughParameters : Moves text o throughParameters fun _ o' => o < o' :=
  (moves_takeUntil _).bind fun _ _ hle _ =>
    (moves_delimited _ _).bind fun _ _ _ hlt => .pure (Nat.lt_of_le_of_lt hle hlt)

theorem moves_constraintClauses : Moves text o constraintClauses fun _ _ => True := by
  refine (moves_acceptKeyword "where").bind fun b o₁ _ _ => ?_
  split
  next => exact (moves_takeUntil _).label.bind fun _ _ _ _ => .pure True.intro
  next => exact .pure True.intro

/-! ## Names of members -/

theorem moves_nameBrackets : Moves text o nameBrackets fun _ _ => True := by
  refine .nextIs_bind '<' fun b _ => ?_
  split
  next =>
    refine moves_typeParameters?.attempt.bind fun r o₁ _ _ => ?_
    cases r with
    | some parameters => exact .pure True.intro
    | none => exact moves_typeArguments.bind fun _ _ _ _ => .pure True.intro
  next => exact .pure True.intro

theorem moves_nameSegment : Moves text o nameSegment fun _ o' => o < o' := by
  refine moves_identifier.bind fun name o₁ _ hlt => moves_trivia.bind fun _ o₂ hle₂ _ => ?_
  exact moves_nameBrackets.bind fun _ o₃ hle₃ _ => .pure (by omega)

theorem moves_nameSegmentText : Moves text o nameSegmentText fun _ o' => o < o' :=
  moves_trivia.bind fun _ _ hle _ =>
    moves_nameSegment.withText.mono fun _ _ _ hr => Nat.lt_of_le_of_lt hle hr.1

theorem moves_memberName : Moves text o memberName fun _ o' => o < o' := by
  have hsegments : Moves text o (sepBy nameSegmentText (accept ".")) fun _ o' => o < o' :=
    .sepBy (fun _ _ => moves_nameSegmentText) fun _ _ => (moves_accept (by decide)).trivial
  refine hsegments.bind fun segments o₁ _ hlt => ?_
  dsimp only
  split
  next => exact .pure hlt
  next => exact .fail

/-! ## Members that start with a type -/

section

variable {h : DeclHeader} {type : TypeExpr} {name : MemberName}

theorem moves_methodDeclaration :
    Moves text o (methodDeclaration h type name) fun _ _ => True := by
  refine (moves_delimited _ _).label.bind fun parameters o₁ _ _ => ?_
  refine moves_constraintClauses.bind fun _ o₂ _ _ => ?_
  refine moves_memberBody.bind fun hasBody o₃ _ _ => ?_
  exact (moves_spanFrom _).bind fun _ _ _ _ => .pure True.intro

theorem moves_propertyBody (modifiers : List Modifier) :
    Moves text o (propertyBody modifiers) fun _ _ => True := by
  refine .nextIs_bind '\x7b' fun b _ => ?_
  split
  next =>
    refine (moves_delimited _ _).bind fun accessors o₁ _ _ => moves_trivia.bind fun _ o₂ _ _ => ?_
    refine .nextIsAssignment_bind fun b _ => ?_
    split
    next =>
      refine (Moves.take 1).bind fun _ o₃ _ _ => ?_
      exact (moves_throughSemicolon _).bind fun _ o₄ _ _ => .pure True.intro
    next => exact .pure True.intro
  next => exact moves_memberBody.bind fun _ _ _ _ => .pure True.intro

theorem moves_propertyDeclaration :
    Moves text o (propertyDeclaration h type name) fun _ _ => True :=
  (moves_propertyBody _).bind fun _ _ _ _ =>
    (moves_spanFrom _).bind fun _ _ _ _ => .pure True.intro

theorem moves_declaratorStart : Moves text o declaratorStart fun _ o' => o < o' := by
  refine moves_trivia.bind fun _ o₁ hle₁ _ => ?_
  refine (moves_acceptHere (by decide)).bind fun _ o₂ hle₂ _ => moves_word.bind fun w o₃ _ hlt => ?_
  refine moves_trivia.bind fun _ o₄ hle₄ _ => .ahead_bind fun s _ => ?_
  have hall : o < o₄ := by omega
  split
  next => exact .pure hall
  next => exact .pure hall
  next => exact .fail
  next => exact .fail
  next => exact .pure hall
  next => exact .fail

theorem moves_initializerPiece :
    Moves text o initializerPiece fun r o' => ∀ u, r = .more u → o < o' := by
  refine (moves_takeUntil _).label.bind fun _ o₁ hle₁ _ => .nextIs_bind ',' fun b hcomma => ?_
  split
  next hb =>
    obtain ⟨s, hs⟩ := hcomma hb
    have hnext : Moves text o₁ (do let _ ← take 1; declaratorStart) fun _ _ => True :=
      (Moves.take 1).bind fun _ _ _ _ => moves_declaratorStart.trivial
    refine hnext.lookahead.bind fun r o₂ hle₂ hsame => ?_
    subst hsame
    split
    next => exact .pure fun _ h => nomatch h
    next =>
      refine (Moves.take_succ hs 0).bind fun _ o₃ _ hlt => .pure fun _ _ => ?_
      exact Nat.lt_of_le_of_lt hle₁ hlt
  next => exact .pure fun _ h => nomatch h

theorem moves_fieldInitializer : Moves text o fieldInitializer fun _ o' => o < o' := by
  refine moves_trivia.bind fun _ o₁ hle₁ _ => .offset_bind fun hstart => ?_
  have hpieces : Moves text o₁ (rounds initializerPiece) fun _ _ => True :=
    .rounds fun _ _ => moves_initializerPiece
  refine hpieces.withText.bind fun r o₂ _ hr => ?_
  obtain ⟨pieces, skipped⟩ := r
  dsimp only
  split
  next => exact .failAt hstart _
  next hskipped =>
    refine .pure (Nat.lt_of_le_of_lt hle₁ (hr.2 fun hnil => hskipped ?_))
    rw [show skipped = [] from hnil]
    rfl

theorem moves_declarator (i : Identifier) : Moves text o (declarator i) fun _ _ => True := by
  refine moves_trivia.bind fun _ o₁ _ _ => .nextIs_bind '[' fun b _ => ?_
  have hrest (o₂ : Nat) : Moves text o₂ (do
      trivia
      if ← acceptHere "=" then
        let initializer ← fieldInitializer
        return (⟨i, some initializer, ⟨i.span.start, initializer.stop⟩⟩ : Declarator)
      else return ⟨i, none, i.span⟩) fun _ _ => True := by
    refine moves_trivia.bind fun _ o₃ _ _ => ?_
    refine (moves_acceptHere (by decide)).bind fun b o₄ _ _ => ?_
    split
    next => exact moves_fieldInitializer.bind fun _ _ _ _ => .pure True.intro
    next => exact .pure True.intro
  split
  next => exact (moves_delimited _ _).bind fun _ o₂ _ _ => hrest o₂
  next => exact hrest o₁

theorem moves_declarator? : Moves text o declarator? fun r o' => ∀ d, r = some d → o < o' := by
  refine (moves_accept (by decide)).bind fun isComma o₁ _ hcomma => ?_
  split
  next hb =>
    refine moves_identifier.label.bind fun next o₂ _ hlt => ?_
    refine (moves_declarator next).bind fun d o₃ hle _ => .pure fun _ _ => ?_
    have := hcomma hb
    omega
  next => exact .pure fun _ h => nomatch h

theorem moves_fieldDeclaration :
    Moves text o (fieldDeclaration h type name) fun _ o' => o < o' := by
  refine (moves_declarator _).bind fun first o₁ hle₁ _ => ?_
  have hothers : Moves text o₁ (many declarator?) fun _ _ => True :=
    .many fun _ _ => moves_declarator?
  refine hothers.bind fun others o₂ hle₂ _ => ?_
  refine (moves_symbol (by decide)).label.bind fun _ o₃ _ hlt => ?_
  exact (moves_spanFrom _).bind fun _ o₄ hle₄ _ => .pure (by omega)

theorem moves_typedMember : Moves text o (typedMember h) fun _ o' => o < o' := by
  refine moves_typeExpr.label.bind fun type o₁ _ hlt => ?_
  have hrest {p : Parser Member} {o₂ : Nat} (hp : Moves text o₂ p fun _ _ => True)
      (hle : o₁ ≤ o₂) : Moves text o₂ p fun _ o' => o < o' :=
    hp.mono fun _ _ hle' _ => by omega
  refine (moves_acceptKeyword "operator").bind fun isOperator o₂ hle₂ _ => ?_
  split
  next =>
    refine hrest ?_ hle₂
    exact moves_throughParameters.bind fun _ _ _ _ => (moves_otherMember _).trivial
  next =>
    refine (moves_acceptKeyword "this").bind fun isIndexer o₃ hle₃ _ => hrest ?_ (by omega)
    split
    next =>
      refine moves_trivia.bind fun _ o₄ _ _ => ?_
      exact (moves_delimited _ _).label.bind fun _ _ _ _ => (moves_otherMember _).trivial
    next =>
      refine moves_memberName.label.bind fun name o₄ _ _ => moves_trivia.bind fun _ o₅ _ _ => ?_
      refine .nextIs_bind '(' fun b _ => ?_
      split
      next => exact moves_methodDeclaration
      next =>
        refine .nextIs_bind '\x7b' fun isBrace _ => .startsWith_bind "=>" fun isArrow _ => ?_
        split
        next => exact moves_propertyDeclaration
        next => exact moves_fieldDeclaration.trivial

end

/-! ## Enums -/

theorem moves_enumMember : Moves text o enumMember fun _ o' => o < o' := by
  refine moves_trivia.bind fun _ o₁ hle₁ _ => .offset_bind fun _ => ?_
  refine moves_attributeLists.bind fun attributes o₂ hle₂ _ => ?_
  refine moves_identifier.bind fun name o₃ _ hlt => ?_
  refine (moves_accept (by decide)).bind fun hasInitializer o₄ hle₄ _ => ?_
  have hinitializer : Moves text o₄ (some <$> initializerExpr) fun _ _ => True :=
    moves_initializerExpr.bind fun _ _ _ _ => .pure True.intro
  split
  next =>
    refine hinitializer.bind fun initializer o₅ hle₅ _ => ?_
    exact (moves_spanFrom _).bind fun _ o₆ hle₆ _ => .pure (by omega)
  next => exact (moves_spanFrom _).bind fun _ o₅ hle₅ _ => .pure (by omega)

/-- Each round reads a member or the brace that closes the enum. -/
theorem moves_enumMemberRound : Moves text o enumMemberRound fun _ o' => o < o' := by
  refine moves_trivia.bind fun _ o₁ hle₁ _ => ?_
  refine (moves_acceptHere (by decide)).bind fun isClosed o₂ hle₂ hclosed => ?_
  split
  next hb => exact .pure (Nat.lt_of_le_of_lt hle₁ (hclosed hb))
  next =>
    refine moves_enumMember.label.bind fun member o₃ _ hlt => ?_
    refine (moves_accept (by decide)).bind fun isMore o₄ hle₄ _ => ?_
    split
    next => exact .pure (by omega)
    next => exact (moves_symbol (by decide)).label.bind fun _ o₅ hle₅ _ => .pure (by omega)

theorem moves_enumMembers : Moves text o enumMembers fun _ o' => o < o' :=
  .rounds_of_first (fun _ _ => moves_enumMemberRound.mono fun _ _ _ hlt _ _ => hlt)
    moves_enumMemberRound

section

variable {h : DeclHeader}

theorem moves_enumDeclaration : Moves text o (enumDeclaration h) fun _ o' => o < o' := by
  refine (moves_keyword "enum").bind fun _ o₁ _ hlt => ?_
  refine moves_identifier.label.bind fun name o₂ hle₂ _ => moves_trivia.bind fun _ o₃ hle₃ _ => ?_
  refine (moves_acceptHere (by decide)).bind fun hasBase o₄ hle₄ _ => ?_
  have hbase : Moves text o₄ (some <$> label "underlying enum type" typeExpr) fun _ _ => True :=
    moves_typeExpr.label.bind fun _ _ _ _ => .pure True.intro
  have hrest (base : Option TypeExpr) (o₅ : Nat) (hle₅ : o₄ ≤ o₅) : Moves text o₅ (do
      label "'\x7b' opening the enum body" (symbol "\x7b")
      let members ← enumMembers
      let _ ← accept ";"
      return Member.ofEnum ⟨h.attributes, h.modifiers, name, base, members, ← spanFrom h.start⟩)
      fun _ o' => o < o' := by
    refine (moves_symbol (by decide)).label.bind fun _ o₆ hle₆ _ => ?_
    refine moves_enumMembers.bind fun members o₇ hle₇ _ => ?_
    refine (moves_accept (by decide)).bind fun _ o₈ hle₈ _ => ?_
    exact (moves_spanFrom _).bind fun _ o₉ hle₉ _ => .pure (by omega)
  split
  next => exact hbase.bind fun base o₅ hle₅ _ => hrest base o₅ hle₅
  next => exact hrest none o₄ (Nat.le_refl _)

/-! ## Types -/

theorem moves_typeKind : Moves text o typeKind fun _ o' => o < o' := by
  refine moves_trivia.bind fun _ o₁ hle₁ _ => .offset_bind fun hstart => ?_
  refine moves_word.bind fun w o₂ _ hlt => ?_
  have hall : o < o₂ := Nat.lt_of_le_of_lt hle₁ hlt
  split
  next => exact .pure hall
  next => exact .pure hall
  next => exact .pure hall
  next =>
    refine (moves_acceptKeyword "struct").bind fun isStruct o₃ hle₃ _ => ?_
    split
    next => exact .pure (Nat.lt_of_lt_of_le hall hle₃)
    next => exact (moves_acceptKeyword "class").bind fun _ o₄ hle₄ _ => .pure (by omega)
  next => exact .failAt hstart _

theorem moves_baseType : Moves text o baseType fun _ o' => o < o' := by
  refine moves_typeExpr.label.bind fun base o₁ _ hlt => moves_trivia.bind fun _ o₂ hle₂ _ => ?_
  refine .nextIs_bind '(' fun b _ => ?_
  split
  next =>
    refine (moves_delimited _ _).bind fun _ o₃ hle₃ _ => ?_
    exact moves_trivia.bind fun _ o₄ hle₄ _ => .pure (by omega)
  next => exact moves_trivia.bind fun _ o₃ hle₃ _ => .pure (by omega)

theorem moves_baseList : Moves text o baseList fun _ _ => True := by
  refine moves_trivia.bind fun _ o₁ _ _ => (moves_acceptHere (by decide)).bind fun b o₂ _ _ => ?_
  have hbases : Moves text o₂ (sepBy baseType (acceptHere ",")) fun _ o' => o₂ < o' :=
    .sepBy (fun _ _ => moves_baseType) fun _ _ => (moves_acceptHere (by decide)).trivial
  split
  next => exact hbases.trivial
  next => exact .pure True.intro

theorem moves_primaryConstructor : Moves text o primaryConstructor fun _ _ => True := by
  refine .nextIs_bind '(' fun b _ => ?_
  split
  next => exact (moves_delimited _ _).bind fun _ _ _ _ => .pure True.intro
  next => exact .pure True.intro

theorem moves_endOfText : Moves text o endOfText fun _ _ => True := by
  refine .ahead_bind fun s _ => ?_
  split
  next => exact .pure True.intro
  next => exact .fail

/-! ## Declarations in declarations -/

variable {self self' : Option String → Parser (List Member)}

theorem agree_typeBody
    (hself : ∀ c o₁, o < o₁ → Agree text o₁ (self c) (self' c) fun _ _ => True)
    (name : Identifier) :
    Agree text o (typeBody self name) (typeBody self' name) fun _ _ => True := by
  refine (moves_acceptHere (by decide)).bind fun b o₁ hle₁ _ => ?_
  split
  next => exact .pure True.intro
  next =>
    refine (moves_symbol (by decide)).label.bind fun _ o₂ _ hlt => ?_
    refine (hself _ o₂ (by omega)).bind fun members o₃ _ _ => ?_
    exact (moves_symbol (by decide)).label.bind fun _ _ _ _ => .pure True.intro

/-- The members of a type are read behind its name and a brace. -/
theorem agree_typeDeclaration
    (hself : ∀ c o₁, o < o₁ → Agree text o₁ (self c) (self' c) fun _ _ => True) :
    Agree text o (typeDeclaration self h) (typeDeclaration self' h) fun _ o' => o < o' := by
  refine moves_typeKind.bind fun kind o₁ _ hlt => ?_
  refine moves_identifier.label.bind fun name o₂ hle₂ _ => ?_
  refine moves_typeParameters?.bind fun parameters o₃ hle₃ _ => ?_
  refine moves_trivia.bind fun _ o₄ hle₄ _ => ?_
  refine moves_primaryConstructor.bind fun constructor o₅ hle₅ _ => ?_
  refine moves_baseList.bind fun bases o₆ hle₆ _ => ?_
  refine moves_constraintClauses.bind fun _ o₇ hle₇ _ => moves_trivia.bind fun _ o₈ hle₈ _ => ?_
  have hbody := agree_typeBody (fun c o₉ ho₉ => hself c o₉ (by omega)) name (o := o₈)
  refine hbody.bind fun members o₉ hle₉ _ => ?_
  exact (moves_spanFrom _).bind fun _ o' hle' _ => .pure (by omega)

theorem agree_fileScopedBody
    (hself : ∀ c o₁, o ≤ o₁ → Agree text o₁ (self c) (self' c) fun _ _ => True) :
    Agree text o (fileScopedBody self) (fileScopedBody self') fun _ _ => True := by
  refine moves_usingDirectives.bind fun usings o₁ hle _ => ?_
  refine (hself none o₁ hle).bind fun members o₂ _ _ => ?_
  exact moves_endOfText.label.bind fun _ _ _ _ => .pure True.intro

theorem agree_blockBody
    (hself : ∀ c o₁, o ≤ o₁ → Agree text o₁ (self c) (self' c) fun _ _ => True) :
    Agree text o (blockBody self) (blockBody self') fun _ _ => True := by
  refine (moves_symbol (by decide)).label.bind fun _ o₁ hle₁ _ => ?_
  refine moves_usingDirectives.bind fun usings o₂ hle₂ _ => ?_
  refine (hself none o₂ (by omega)).bind fun members o₃ _ _ => ?_
  refine (moves_symbol (by decide)).label.bind fun _ o₄ _ _ => ?_
  exact (moves_accept (by decide)).bind fun _ _ _ _ => .pure True.intro

theorem agree_namespaceDeclaration
    (hself : ∀ c o₁, o < o₁ → Agree text o₁ (self c) (self' c) fun _ _ => True) (start : Nat) :
    Agree text o (namespaceDeclaration self start) (namespaceDeclaration self' start)
      fun _ o' => o < o' := by
  refine (moves_keyword _).bind fun _ o₁ _ hlt => ?_
  refine moves_dottedName.label.bind fun name o₂ hle₂ _ => moves_trivia.bind fun _ o₃ hle₃ _ => ?_
  refine (moves_acceptHere (by decide)).bind fun isFileScoped o₄ hle₄ _ => ?_
  have hbelow (c : Option String) (o₅ : Nat) (ho₅ : o₄ ≤ o₅) :
      Agree text o₅ (self c) (self' c) fun _ _ => True :=
    hself c o₅ (by omega)
  split
  next =>
    refine (agree_fileScopedBody hbelow).bind fun body o₅ hle₅ _ => ?_
    exact (moves_spanFrom _).bind fun _ o₆ hle₆ _ => .pure (by omega)
  next =>
    refine (agree_blockBody hbelow).bind fun body o₅ hle₅ _ => ?_
    exact (moves_spanFrom _).bind fun _ o₆ hle₆ _ => .pure (by omega)

theorem moves_constructorName (container : String) :
    Moves text o (constructorName container) fun _ _ => True := by
  refine moves_identifier.bind fun name o₁ _ _ => moves_trivia.bind fun _ o₂ _ _ => ?_
  refine .nextIs_bind '(' fun b _ => ?_
  split
  next => exact .pure True.intro
  next => exact .fail

theorem moves_acceptConstructor (container : Option String) :
    Moves text o (acceptConstructor container) fun _ _ => True := by
  cases container with
  | none => exact .pure True.intro
  | some name => exact (moves_constructorName name).attempt.bind fun _ _ _ _ => .pure True.intro

end

/-- Each kind of declaration reads a word or a name before it comes to declarations inside. -/
theorem agree_memberDeclarationOf {self self' : Option String → Parser (List Member)}
    (hself : ∀ c o₁, o < o₁ → Agree text o₁ (self c) (self' c) fun _ _ => True)
    (container : Option String) :
    Agree text o (memberDeclarationOf self container) (memberDeclarationOf self' container)
      fun _ o' => o < o' := by
  refine moves_trivia.bind fun _ o₁ hle₁ _ => .offset_bind fun _ => ?_
  refine moves_attributeLists.bind fun attributes o₂ hle₂ _ => ?_
  refine moves_modifiers.bind fun modifiers o₃ hle₃ _ => ?_
  refine moves_peekWord.bind fun found o₄ hle₄ _ => ?_
  have hbelow (c : Option String) (o₅ : Nat) (ho₅ : o₄ < o₅) :
      Agree text o₅ (self c) (self' c) fun _ _ => True :=
    hself c o₅ (by omega)
  -- The header may be empty; what comes behind it is not.
  suffices hrest : Agree text o₄ _ _ fun _ o' => o₄ < o' from
    hrest.mono fun _ _ _ hlt => by omega
  split
  next => exact agree_namespaceDeclaration hbelow _
  next => exact agree_typeDeclaration hbelow
  next => exact agree_typeDeclaration hbelow
  next => exact agree_typeDeclaration hbelow
  next => exact agree_typeDeclaration hbelow
  next => exact moves_enumDeclaration
  next => exact moves_otherMember _
  next => exact moves_otherMember _
  next =>
    exact moves_throughParameters.bind fun _ _ _ hlt =>
      (moves_otherMember _).mono fun _ _ _ hlt' => Nat.lt_trans hlt hlt'
  next =>
    exact moves_throughParameters.bind fun _ _ _ hlt =>
      (moves_otherMember _).mono fun _ _ _ hlt' => Nat.lt_trans hlt hlt'
  next =>
    refine .nextIs_bind '~' fun isDestructor _ => ?_
    split
    next =>
      refine (moves_takeUntil _).label.bind fun _ o₅ hle₅ _ => ?_
      refine (moves_delimited _ _).bind fun _ o₆ hle₆ _ => ?_
      exact (moves_otherMember _).mono fun _ _ _ hlt => by omega
    next =>
      refine (moves_acceptConstructor _).bind fun isConstructor o₅ hle₅ _ => ?_
      split
      next =>
        refine (moves_delimited _ _).bind fun _ o₆ hle₆ _ => ?_
        exact (moves_otherMember _).mono fun _ _ _ hlt => by omega
      next => exact moves_typedMember.mono fun _ _ _ hlt => Nat.lt_of_le_of_lt hle₅ hlt

theorem moves_straySemicolon? :
    Moves text o straySemicolon? fun r o' => ∀ u, r = some u → o < o' :=
  moves_trivia.bind fun _ _ hle _ =>
    (moves_literal (by decide)).attempt.mono fun _ _ _ hr u hu => Nat.lt_of_le_of_lt hle (hr u hu)

theorem moves_straySemicolons : Moves text o straySemicolons fun _ _ => True := by
  have hmany : Moves text o (many straySemicolon?) fun _ _ => True :=
    .many fun _ _ => moves_straySemicolon?
  exact hmany.bind fun _ _ _ _ => .pure True.intro

theorem agree_member? {self self' : Option String → Parser (List Member)}
    (hself : ∀ c o₁, o < o₁ → Agree text o₁ (self c) (self' c) fun _ _ => True)
    (container : Option String) :
    Agree text o (member? self container) (member? self' container)
      fun r o' => ∀ m, r = some m → o < o' := by
  refine moves_straySemicolons.bind fun _ o₁ hle₁ _ => .ahead_bind fun s _ => ?_
  split
  next => exact .pure fun _ h => nomatch h
  next => exact .pure fun _ h => nomatch h
  next =>
    have hmember := agree_memberDeclarationOf (o := o₁) (fun c o₂ ho₂ => hself c o₂ (by omega))
      container
    exact hmember.bind fun m o₂ _ hlt => .pure fun _ _ => Nat.lt_of_le_of_lt hle₁ hlt

theorem agree_membersOf {self self' : Option String → Parser (List Member)}
    (hself : ∀ c o₁, o < o₁ → Agree text o₁ (self c) (self' c) fun _ _ => True)
    (container : Option String) :
    Agree text o (membersOf self container) (membersOf self' container) fun _ _ => True :=
  .many fun _ ho₁ => agree_member? (fun c o₂ ho₂ => hself c o₂ (by omega)) container

theorem moves_membersIn (container : Option String) :
    Moves text o (membersIn container) fun _ _ => True :=
  Agree.fix (R := fun _ _ _ _ => True)
    (fun _ _ _ _ hself c => agree_membersOf (fun c' o₂ ho₂ => hself c' o₂ ho₂) c) container

theorem moves_memberDeclaration (container : Option String) :
    Moves text o (memberDeclaration container) fun _ o' => o < o' :=
  agree_memberDeclarationOf (fun c _ _ => moves_membersIn c) container

/-! ## Files -/

theorem moves_externAliasOpening : Moves text o externAliasOpening fun _ o' => o < o' :=
  (moves_keyword _).bind fun _ _ _ hlt =>
    (moves_keyword _).mono fun _ _ _ hlt' => Nat.lt_trans hlt hlt'

theorem moves_externAlias? : Moves text o externAlias? fun r o' => ∀ u, r = some u → o < o' := by
  refine moves_externAliasOpening.attempt.bind fun r o₁ _ hr => ?_
  cases r with
  | none => exact .pure fun _ h => nomatch h
  | some u =>
    have hlt := hr u rfl
    refine moves_trivia.bind fun _ o₂ hle₂ _ => moves_word.bind fun _ o₃ hle₃ _ => ?_
    exact (moves_symbol (by decide)).label.bind fun _ o₄ hle₄ _ => .pure fun _ _ => by omega

theorem moves_externAliases : Moves text o externAliases fun _ _ => True := by
  have hmany : Moves text o (many externAlias?) fun _ _ => True :=
    .many fun _ _ => moves_externAlias?
  exact hmany.bind fun _ _ _ _ => .pure True.intro

theorem moves_compilationUnit : Moves text o compilationUnit fun _ _ => True := by
  refine .offset_bind fun _ => moves_externAliases.bind fun _ o₁ _ _ => ?_
  refine moves_usingDirectives.bind fun usings o₂ _ _ => ?_
  refine (moves_membersIn none).bind fun members o₃ _ _ => ?_
  refine moves_endOfText.label.bind fun _ o₄ _ _ => ?_
  exact (moves_spanFrom _).bind fun _ _ _ _ => .pure True.intro

end DeclGen.Grammar
