import DeclGen.Proofs.Grammar.ByteAgreement
import DeclGen.Proofs.Grammar.MemberMoves

/-!
# Reading ends

Every parser of the grammar ends on every text, well-formed or not. A parser that succeeds leaves
an end part of what it was given. Its repetitions go on only where a round has read something, and
it calls itself only where something has been read, so what `rounds` and `fix` would refuse is
never asked of them. The search through the bytes of a region goes on only at a larger index. A
file that cannot be read is said to end its reading at a place of the text.

## Main definitions

* `Production`, `Consuming`: the parsers of the grammar, and those that always read something
* `Loop`: the rounds of all repetitions
* `Cursor.Reaches`, `Cursor.GoesTo`: a place further on in the same text
* `Descends`: a recursion that needs its own values at shorter texts only

## Main statements

* `reading_ends`: all of this
-/

namespace DeclGen.Grammar

open DeclGen.Grammar.Parser DeclGen.Text

variable {α ι : Type}

/-! ## Places further on -/

/-- What is left at the second place is an end part of what is left at the first, and the offset
counts what lies between. -/
def Cursor.Reaches (c c' : Cursor) : Prop :=
  ∃ x, c.rest = x ++ c'.rest ∧ c'.offset = c.offset + size x

/-- The same, and something lies between. -/
def Cursor.GoesTo (c c' : Cursor) : Prop :=
  ∃ x, x ≠ [] ∧ c.rest = x ++ c'.rest ∧ c'.offset = c.offset + size x

/-- Some text has the characters left at the offset. -/
theorem exists_rest (c : Cursor) : ∃ text, Rest text c.offset c.rest := by
  refine ⟨List.replicate c.offset 'a' ++ c.rest, _, rfl, ?_⟩
  induction c.offset with
  | zero => rfl
  | succ n ih =>
    rw [List.replicate_succ, size_cons, ih]
    exact Nat.add_comm 1 n

section

variable {p : Parser α} {R : Nat → α → Nat → Prop} {c c' : Cursor} {a : α}

/-- A parser that goes forward in any text goes forward from any place. -/
theorem Moves.exists_between (h : ∀ text o, Moves text o p (R o)) (hp : p c = .ok (a, c')) :
    c.Reaches c' ∧ R c.offset a c'.offset := by
  obtain ⟨text, hc⟩ := exists_rest c
  have hout := (h text c.offset c.rest hc).2
  rw [show (⟨c.offset, c.rest⟩ : Cursor) = c from rfl, hp] at hout
  obtain ⟨hc', hle, hR⟩ := hout
  obtain ⟨x, hx, front, back, -, hfront, hsize⟩ := hc.exists_between hc' hle
  exact ⟨⟨x, hx, by omega⟩, hR⟩

theorem Cursor.Reaches.goesTo (h : c.Reaches c') (hlt : c.offset < c'.offset) : c.GoesTo c' := by
  obtain ⟨x, hrest, hoffset⟩ := h
  refine ⟨x, ?_, hrest, hoffset⟩
  rintro rfl
  rw [size_nil] at hoffset
  omega

end

/-! ## The parsers of the grammar -/

/-- Parsers of words, marks and skipped text. -/
inductive LexicalProduction : {α : Type} → Parser α → Prop
  | trivia : LexicalProduction trivia
  | word : LexicalProduction word
  | peekWord : LexicalProduction peekWord
  | keyword (kw : String) : LexicalProduction (keyword kw)
  | acceptKeyword (kw : String) : LexicalProduction (acceptKeyword kw)
  | symbol {s : String} (hs : s ≠ "") : LexicalProduction (symbol s)
  | literal {s : String} (hs : s ≠ "") : LexicalProduction (literal s)
  | accept {s : String} (hs : s ≠ "") : LexicalProduction (accept s)
  | acceptHere {s : String} (hs : s ≠ "") : LexicalProduction (acceptHere s)
  | identifier : LexicalProduction identifier
  | delimited (opening closing : Char) : LexicalProduction (delimited opening closing)
  | takeUntil (stop : Char → Bool) : LexicalProduction (takeUntil stop)
  | dottedTail : LexicalProduction dottedTail
  | dottedName : LexicalProduction dottedName
  | endOfText : LexicalProduction endOfText

theorem LexicalProduction.moves {p : Parser α} (h : LexicalProduction p) (text : List Char)
    (o : Nat) : Moves text o p fun _ _ => True := by
  cases h with
  | trivia => exact moves_trivia
  | word => exact moves_word.trivial
  | peekWord => exact moves_peekWord.trivial
  | keyword kw => exact (moves_keyword kw).trivial
  | acceptKeyword kw => exact (moves_acceptKeyword kw).trivial
  | symbol hs => exact (moves_symbol hs).trivial
  | literal hs => exact (moves_literal hs).trivial
  | accept hs => exact (moves_accept hs).trivial
  | acceptHere hs => exact (moves_acceptHere hs).trivial
  | identifier => exact moves_identifier.trivial
  | delimited opening closing => exact (moves_delimited opening closing).trivial
  | takeUntil stop => exact moves_takeUntil stop
  | dottedTail => exact moves_dottedTail
  | dottedName => exact moves_dottedName.trivial
  | endOfText => exact moves_endOfText

/-- Parsers of types and of what types consist of. -/
inductive TypeProduction : {α : Type} → Parser α → Prop
  | predefinedType : TypeProduction predefinedType
  | typeArguments : TypeProduction typeArguments
  | optionalTypeArguments : TypeProduction (optionalTypeArguments typeExpr)
  | dottedIdentifier : TypeProduction dottedIdentifier
  | segmentTail : TypeProduction (segmentTail typeExpr)
  | namedType : TypeProduction namedType
  | tupleElement : TypeProduction (tupleElement typeExpr)
  | tupleType : TypeProduction (tupleType typeExpr)
  | typeSuffix : TypeProduction typeSuffix
  | coreType : TypeProduction (coreType typeExpr)
  | typeExpr : TypeProduction typeExpr
  | typeParameter : TypeProduction typeParameter
  | typeParameters? : TypeProduction typeParameters?

theorem TypeProduction.moves {p : Parser α} (h : TypeProduction p) (text : List Char) (o : Nat) :
    Moves text o p fun _ _ => True := by
  cases h with
  | predefinedType => exact moves_predefinedType.trivial
  | typeArguments => exact moves_typeArguments.trivial
  | optionalTypeArguments => exact agree_optionalTypeArguments further_typeExpr
  | dottedIdentifier => exact moves_dottedIdentifier.trivial
  | segmentTail => exact agree_segmentTail further_typeExpr
  | namedType => exact moves_namedType.trivial
  | tupleElement =>
    exact (moves_typeExpr.bind fun _ _ _ _ => moves_identifier.attempt.bind fun _ _ _ _ =>
      .pure True.intro)
  | tupleType => exact (agree_tupleType further_typeExpr).trivial
  | typeSuffix => exact moves_typeSuffix.trivial
  | coreType => exact (agree_coreType further_typeExpr).trivial
  | typeExpr => exact moves_typeExpr.trivial
  | typeParameter => exact moves_typeParameter.trivial
  | typeParameters? => exact moves_typeParameters?

/-- Parsers of the expressions that give members their values. -/
inductive ExprProduction : {α : Type} → Parser α → Prop
  | decimalDigits : ExprProduction decimalDigits
  | integerToken : ExprProduction integerToken
  | integerLiteral : ExprProduction integerLiteral
  | characterLiteral : ExprProduction characterLiteral
  | inParentheses : ExprProduction (inParentheses constantExpr)
  | nameHead : ExprProduction nameHead
  | nameExpr : ExprProduction nameExpr
  | primaryExpr : ExprProduction (primaryExpr constantExpr)
  | castType : ExprProduction castType
  | castExpr : ExprProduction (castExpr (unaryExpr constantExpr))
  | unaryExpr : ExprProduction (unaryExpr constantExpr)
  | operatorFrom (least : Nat) : ExprProduction (operatorFrom least)
  | binaryExpr (least : Nat) : ExprProduction (binaryExpr least)
  | closedExpr : ExprProduction closedExpr
  | initializerExpr : ExprProduction initializerExpr

theorem ExprProduction.moves {p : Parser α} (h : ExprProduction p) (text : List Char) (o : Nat) :
    Moves text o p fun _ _ => True := by
  have constant : Further text o constantExpr constantExpr := fun _ _ => moves_binaryExpr 0
  have operand : Further text o (Grammar.unaryExpr constantExpr) (Grammar.unaryExpr constantExpr) :=
    fun _ _ => agree_unaryExpr fun _ _ => moves_binaryExpr 0
  cases h with
  | decimalDigits => exact moves_decimalDigits.trivial
  | integerToken => exact moves_integerToken.trivial
  | integerLiteral => exact moves_integerLiteral.trivial
  | characterLiteral => exact moves_characterLiteral.trivial
  | inParentheses => exact (agree_inParentheses constant).trivial
  | nameHead => exact moves_nameHead.trivial
  | nameExpr => exact moves_nameExpr.trivial
  | primaryExpr => exact (agree_primaryExpr constant).trivial
  | castType => exact moves_castType.trivial
  | castExpr => exact (agree_castExpr operand).trivial
  | unaryExpr => exact (agree_unaryExpr constant).trivial
  | operatorFrom least => exact (moves_operatorFrom least).trivial
  | binaryExpr least => exact (moves_binaryExpr least).trivial
  | closedExpr => exact moves_closedExpr.trivial
  | initializerExpr => exact moves_initializerExpr

/-- Parsers of methods, properties and fields, and of what stands before a declaration. -/
inductive MemberProduction : {α : Type} → Parser α → Prop
  | attributeLists : MemberProduction attributeLists
  | modifier : MemberProduction modifier
  | modifiers : MemberProduction modifiers
  | throughSemicolon (what : String) : MemberProduction (throughSemicolon what)
  | memberBody : MemberProduction memberBody
  | otherMember (start : Nat) (kind : OtherKind) : MemberProduction (otherMember start kind)
  | throughParameters : MemberProduction throughParameters
  | constraintClauses : MemberProduction constraintClauses
  | nameBrackets : MemberProduction nameBrackets
  | nameSegment : MemberProduction nameSegment
  | memberName : MemberProduction memberName
  | methodDeclaration (h : DeclHeader) (type : TypeExpr) (name : MemberName) :
      MemberProduction (methodDeclaration h type name)
  | propertyBody (modifiers : List Modifier) : MemberProduction (propertyBody modifiers)
  | propertyDeclaration (h : DeclHeader) (type : TypeExpr) (name : MemberName) :
      MemberProduction (propertyDeclaration h type name)
  | declaratorStart : MemberProduction declaratorStart
  | fieldInitializer : MemberProduction fieldInitializer
  | declarator (name : Identifier) : MemberProduction (declarator name)
  | fieldDeclaration (h : DeclHeader) (type : TypeExpr) (name : MemberName) :
      MemberProduction (fieldDeclaration h type name)
  | typedMember (h : DeclHeader) : MemberProduction (typedMember h)

theorem MemberProduction.moves {p : Parser α} (h : MemberProduction p) (text : List Char)
    (o : Nat) : Moves text o p fun _ _ => True := by
  cases h with
  | attributeLists => exact moves_attributeLists
  | modifier => exact moves_modifier.trivial
  | modifiers => exact moves_modifiers
  | throughSemicolon what => exact moves_throughSemicolon what
  | memberBody => exact moves_memberBody.trivial
  | otherMember start kind => exact (moves_otherMember kind).trivial
  | throughParameters => exact moves_throughParameters.trivial
  | constraintClauses => exact moves_constraintClauses
  | nameBrackets => exact moves_nameBrackets
  | nameSegment => exact moves_nameSegment.trivial
  | memberName => exact moves_memberName.trivial
  | methodDeclaration h type name => exact moves_methodDeclaration
  | propertyBody modifiers => exact moves_propertyBody modifiers
  | propertyDeclaration h type name => exact moves_propertyDeclaration
  | declaratorStart => exact moves_declaratorStart.trivial
  | fieldInitializer => exact moves_fieldInitializer.trivial
  | declarator name => exact moves_declarator name
  | fieldDeclaration h type name => exact moves_fieldDeclaration.trivial
  | typedMember h => exact moves_typedMember.trivial

/-- Parsers of enums, types, namespaces and whole files. -/
inductive DeclProduction : {α : Type} → Parser α → Prop
  | usingOpening : DeclProduction usingOpening
  | usingAlias : DeclProduction usingAlias
  | usingDirectives : DeclProduction usingDirectives
  | enumMember : DeclProduction enumMember
  | enumMembers : DeclProduction enumMembers
  | enumDeclaration (h : DeclHeader) : DeclProduction (enumDeclaration h)
  | typeKind : DeclProduction typeKind
  | baseType : DeclProduction baseType
  | baseList : DeclProduction baseList
  | primaryConstructor : DeclProduction primaryConstructor
  | typeBody (name : Identifier) : DeclProduction (typeBody membersIn name)
  | typeDeclaration (h : DeclHeader) : DeclProduction (typeDeclaration membersIn h)
  | fileScopedBody : DeclProduction (fileScopedBody membersIn)
  | blockBody : DeclProduction (blockBody membersIn)
  | namespaceDeclaration (start : Nat) : DeclProduction (namespaceDeclaration membersIn start)
  | constructorName (container : String) : DeclProduction (constructorName container)
  | acceptConstructor (container : Option String) : DeclProduction (acceptConstructor container)
  | memberDeclaration (container : Option String) : DeclProduction (memberDeclaration container)
  | straySemicolons : DeclProduction straySemicolons
  | membersIn (container : Option String) : DeclProduction (membersIn container)
  | externAliasOpening : DeclProduction externAliasOpening
  | externAliases : DeclProduction externAliases
  | compilationUnit : DeclProduction compilationUnit

theorem DeclProduction.moves {p : Parser α} (h : DeclProduction p) (text : List Char) (o : Nat) :
    Moves text o p fun _ _ => True := by
  have members (c : Option String) (o₁ : Nat) :
      Moves text o₁ (Grammar.membersIn c) fun _ _ => True :=
    moves_membersIn c
  cases h with
  | usingOpening => exact moves_usingOpening.trivial
  | usingAlias => exact moves_usingAlias.trivial
  | usingDirectives => exact moves_usingDirectives
  | enumMember => exact moves_enumMember.trivial
  | enumMembers => exact moves_enumMembers.trivial
  | enumDeclaration h => exact moves_enumDeclaration.trivial
  | typeKind => exact moves_typeKind.trivial
  | baseType => exact moves_baseType.trivial
  | baseList => exact moves_baseList
  | primaryConstructor => exact moves_primaryConstructor
  | typeBody name => exact agree_typeBody (fun c o₁ _ => members c o₁) name
  | typeDeclaration h => exact (agree_typeDeclaration fun c o₁ _ => members c o₁).trivial
  | fileScopedBody => exact agree_fileScopedBody fun c o₁ _ => members c o₁
  | blockBody => exact agree_blockBody fun c o₁ _ => members c o₁
  | namespaceDeclaration start =>
    exact (agree_namespaceDeclaration (fun c o₁ _ => members c o₁) start).trivial
  | constructorName container => exact moves_constructorName container
  | acceptConstructor container => exact moves_acceptConstructor container
  | memberDeclaration container => exact (moves_memberDeclaration container).trivial
  | straySemicolons => exact moves_straySemicolons
  | membersIn container => exact moves_membersIn container
  | externAliasOpening => exact moves_externAliasOpening.trivial
  | externAliases => exact moves_externAliases
  | compilationUnit => exact moves_compilationUnit

/-- The parsers of the grammar. -/
inductive Production : {α : Type} → Parser α → Prop
  | lexical {α : Type} {p : Parser α} (h : LexicalProduction p) : Production p
  | type {α : Type} {p : Parser α} (h : TypeProduction p) : Production p
  | expr {α : Type} {p : Parser α} (h : ExprProduction p) : Production p
  | member {α : Type} {p : Parser α} (h : MemberProduction p) : Production p
  | decl {α : Type} {p : Parser α} (h : DeclProduction p) : Production p

/-- A parser of the grammar goes forward in the text, or fails at a place of it. -/
theorem Production.moves {p : Parser α} (h : Production p) (text : List Char) (o : Nat) :
    Moves text o p fun _ _ => True := by
  cases h with
  | lexical h | type h | expr h | member h | decl h => exact h.moves text o

/-- Parsers that read something whenever they succeed. -/
inductive Consuming : {α : Type} → Parser α → Prop
  | memberDeclaration (container : Option String) : Consuming (memberDeclaration container)
  | enumDeclaration (h : DeclHeader) : Consuming (enumDeclaration h)
  | enumMember : Consuming enumMember
  | enumMemberRound : Consuming enumMemberRound
  | fieldDeclaration (h : DeclHeader) (type : TypeExpr) (name : MemberName) :
      Consuming (fieldDeclaration h type name)
  | fieldInitializer : Consuming fieldInitializer
  | memberName : Consuming memberName
  | nameSegmentText : Consuming nameSegmentText
  | baseType : Consuming baseType
  | modifier : Consuming modifier
  | typeExpr : Consuming typeExpr
  | typeSuffix : Consuming typeSuffix
  | binaryExpr (least : Nat) : Consuming (binaryExpr least)

/-- What these parsers read has at least one character. -/
theorem Consuming.moves {p : Parser α} (h : Consuming p) (text : List Char) (o : Nat) :
    Moves text o p fun _ o' => o < o' := by
  cases h with
  | memberDeclaration container => exact moves_memberDeclaration container
  | enumDeclaration h => exact moves_enumDeclaration
  | enumMember => exact moves_enumMember
  | enumMemberRound => exact moves_enumMemberRound
  | fieldDeclaration h type name => exact moves_fieldDeclaration
  | fieldInitializer => exact moves_fieldInitializer
  | memberName => exact moves_memberName
  | nameSegmentText => exact moves_nameSegmentText
  | baseType => exact moves_baseType
  | modifier => exact moves_modifier
  | typeExpr => exact moves_typeExpr
  | typeSuffix => exact moves_typeSuffix
  | binaryExpr least => exact moves_binaryExpr least

/-! ## Repetitions -/

/-- The rounds of the repetitions in the grammar. -/
inductive Loop : {α : Type} → Parser (Round α) → Prop
  | externAliases : Loop (manyRound externAlias?)
  | usingDirectives : Loop (manyRound usingDirective?)
  | attributeLists : Loop (manyRound attributeList?)
  | modifiers : Loop (manyRound modifier?)
  | dottedTail : Loop (manyRound dottedPart?)
  | typeArguments : Loop (sepByRound typeExpr (accept ","))
  | tupleElements : Loop (sepByRound (tupleElement typeExpr) (accept ","))
  | segmentTail : Loop (manyRound (segment? typeExpr))
  | typeSuffixes : Loop (manyRound (attempt typeSuffix))
  | typeParameters : Loop (sepByRound typeParameter (accept ","))
  | nameParts : Loop (manyRound namePart?)
  | operations (least : Nat) : Loop (manyRound (operation? binaryExpr least))
  | memberName : Loop (sepByRound nameSegmentText (accept "."))
  | initializerPieces : Loop initializerPiece
  | declarators : Loop (manyRound declarator?)
  | enumMembers : Loop enumMemberRound
  | baseTypes : Loop (sepByRound baseType (acceptHere ","))
  | straySemicolons : Loop (manyRound straySemicolon?)
  | members (container : Option String) : Loop (manyRound (member? membersIn container))

/-- A round that is followed by another reads something. -/
theorem Loop.moves {p : Parser (Round α)} (h : Loop p) (text : List Char) (o : Nat) :
    Moves text o p fun r o' => ∀ a, r = .more a → o < o' := by
  have comma (o₁ : Nat) : Moves text o₁ (accept ",") fun _ _ => True :=
    (moves_accept (by decide)).trivial
  have separated {β : Type} {q : Parser β} {sep : Parser Bool}
      (hq : Moves text o q fun _ o' => o < o')
      (hsep : ∀ o₁, Moves text o₁ sep fun _ _ => True) :
      Moves text o (sepByRound q sep) fun r o' => ∀ a, r = .more a → o < o' :=
    (hq.sepByRound fun o₁ _ => hsep o₁).mono fun _ _ _ hlt _ _ => hlt
  cases h with
  | externAliases => exact moves_externAlias?.manyRound
  | usingDirectives => exact moves_usingDirective?.manyRound
  | attributeLists => exact moves_attributeList?.manyRound
  | modifiers => exact moves_modifier?.manyRound
  | dottedTail => exact moves_dottedPart?.manyRound
  | typeArguments => exact separated moves_typeExpr comma
  | tupleElements =>
    refine separated (moves_typeExpr.bind fun _ _ _ hlt => ?_) comma
    exact moves_identifier.attempt.bind fun _ _ hle _ => .pure (Nat.lt_of_lt_of_le hlt hle)
  | segmentTail => exact (agree_segment? further_typeExpr).manyRound
  | typeSuffixes => exact moves_typeSuffix.attempt.manyRound
  | typeParameters => exact separated moves_typeParameter comma
  | nameParts => exact moves_namePart?.manyRound
  | operations least => exact (moves_operation? least).manyRound
  | memberName => exact separated moves_nameSegmentText fun _ => (moves_accept (by decide)).trivial
  | initializerPieces => exact moves_initializerPiece
  | declarators => exact moves_declarator?.manyRound
  | enumMembers => exact moves_enumMemberRound.mono fun _ _ _ hlt _ _ => hlt
  | baseTypes => exact separated moves_baseType fun _ => (moves_acceptHere (by decide)).trivial
  | straySemicolons => exact moves_straySemicolon?.manyRound
  | members container =>
    exact (agree_member? (fun c _ _ => moves_membersIn c) container).manyRound

/-! ## Recursion -/

/-- A step gives the values of `f` if the values of `f` at shorter texts are known, whatever else is
found where no less is left. -/
def Descends (step : (ι → Parser α) → ι → Parser α) (f : ι → Parser α) : Prop :=
  ∀ c self, (∀ j c', c'.rest.length < c.rest.length → self j c' = f j c') →
    ∀ i, step self i c = f i c

/-- A repetition needs the rounds behind the first only where less is left. -/
theorem Loop.descends {p : Parser (Round α)} (h : Loop p) :
    Descends (fun self (_ : Unit) => turn p (self ())) fun _ => rounds p := by
  rintro c self hself ⟨⟩
  obtain ⟨text, hc⟩ := exists_rest c
  exact (Agree.rounds_eq_turn (h.moves text c.offset) hc (hself ())).symm

theorem descends_fix {step : (ι → Parser α) → ι → Parser α} {R : ι → Nat → α → Nat → Prop}
    (h : ∀ text o self self',
      (∀ j o₁, o < o₁ → Agree text o₁ (self j) (self' j) (R j o₁)) →
      ∀ i, Agree text o (step self i) (step self' i) (R i o)) :
    Descends step (fix step) := by
  intro c self hself i
  obtain ⟨text, hc⟩ := exists_rest c
  exact (fix_eq_step (fun o₁ _ => h text o₁) hc hself i).symm

theorem descends_membersIn : Descends membersOf membersIn :=
  descends_fix (R := fun _ _ _ _ => True) fun _ _ _ _ hself => agree_membersOf hself

theorem descends_typeExpr :
    Descends (fun self (_ : Unit) => suffixedType (self ())) fun _ => typeExpr :=
  descends_fix (R := fun _ o _ o' => o < o') fun _ _ _ _ hself _ => agree_suffixedType (hself ())

theorem descends_unaryExpr :
    Descends (fun self (_ : Unit) => unaryExprOf constantExpr (self ()))
      fun _ => unaryExpr constantExpr :=
  descends_fix (R := fun _ o _ o' => o < o') fun _ _ _ _ hself _ =>
    agree_unaryExprOf (fun _ _ => moves_binaryExpr 0) (hself ())

theorem descends_binaryExpr : Descends binaryExprOf binaryExpr :=
  descends_fix (R := fun _ o _ o' => o < o') fun _ _ _ _ hself => agree_binaryExprOf hself

/-! ## All of it -/

/-- A file that cannot be read is said to end its reading at a place of its text. -/
theorem isBoundary_of_parse_eq_error {text : String} {e : SyntaxError}
    (h : CompilationUnit.parse text = .error e) : IsBoundary text.toList e.offset := by
  have hstart : Rest text.toList 0 text.toList := ⟨[], rfl, rfl⟩
  have hout := (moves_compilationUnit text.toList hstart).2
  rw [CompilationUnit.parse] at h
  cases hread : compilationUnit (.ofString text) with
  | ok r =>
    rw [hread] at h
    cases h
  | error e' =>
    rw [hread] at h
    cases h
    rw [show (⟨0, text.toList⟩ : Cursor) = .ofString text from rfl, hread] at hout
    exact hout

/-- The parsers of the grammar end on every text. -/
theorem reading_ends :
    -- Whatever succeeds leaves an end part of what it was given, and some parsers always a
    -- shorter one.
    (∀ {α : Type} (p : Parser α), Production p → ∀ c a c', p c = .ok (a, c') → c.Reaches c') ∧
    (∀ {α : Type} (p : Parser α), Consuming p → ∀ c a c', p c = .ok (a, c') → c.GoesTo c') ∧
    -- In repetitions each round that is followed by another reads something, so the further rounds
    -- are needed only where less is left; the same holds of each recursion.
    (∀ {α : Type} (p : Parser (Round α)), Loop p →
      (∀ c a c', p c = .ok (.more a, c') → c.GoesTo c') ∧
      Descends (fun self (_ : Unit) => turn p (self ())) fun _ => rounds p) ∧
    Descends membersOf membersIn ∧
    Descends (fun self (_ : Unit) => suffixedType (self ())) (fun _ => typeExpr) ∧
    Descends (fun self (_ : Unit) => unaryExprOf constantExpr (self ()))
      (fun _ => unaryExpr constantExpr) ∧
    Descends binaryExprOf binaryExpr ∧
    -- The search through bytes is two loops that call each other; both go on at a larger index
    -- only, and a literal ends behind its start.
    (∀ bs stop depth i,
      ByteScan.index? (ByteScan.scanDepth bs stop depth i) =
        (ByteScan.scanNext bs stop depth i).result fun depth' j =>
          ByteScan.index? (ByteScan.scanDepth bs stop depth' j)) ∧
    (∀ bs isVerbatim isInterpolated i,
      ByteScan.index? (ByteScan.stringBodyEnd bs isVerbatim isInterpolated i) =
        (ByteScan.bodyNext bs isVerbatim isInterpolated i).result fun _ j =>
          ByteScan.index? (ByteScan.stringBodyEnd bs isVerbatim isInterpolated j)) ∧
    (∀ bs stop depth depth' i j, ByteScan.scanNext bs stop depth i = .goOn depth' j → i < j) ∧
    (∀ bs isVerbatim isInterpolated i j,
      ByteScan.bodyNext bs isVerbatim isInterpolated i = .goOn () j → i < j) ∧
    (∀ bs i e, ByteScan.index? (ByteScan.stringEnd bs i) = some e → i < e) ∧
    -- The regions and literals that are stepped over are those that this search finds.
    (∀ front s stop depth, OnlyAscii stop →
      ByteScan.index? (ByteScan.scanDepth (bytes (front ++ s)) stop depth (size front)) =
        placed (size front) s (scan stop depth 0 s)) ∧
    (∀ front c s,
      ByteScan.index? (ByteScan.literalEnd (bytes (front ++ c :: s)) (size front)) =
        placed (size front) (c :: s) ((literalTail c s).map (· + 1))) ∧
    -- An error is reported at a place of the file.
    ∀ text e, CompilationUnit.parse text = .error e →
      e.offset ≤ size text.toList ∧ IsBoundary text.toList e.offset := by
  refine ⟨fun p hp c a c' h => ?_, fun p hp c a c' h => ?_, fun p hp => ⟨fun c a c' h => ?_, ?_⟩,
    descends_membersIn, descends_typeExpr, descends_unaryExpr, descends_binaryExpr,
    fun _ => ByteScan.scanDepth_eq_next, fun _ => ByteScan.stringBodyEnd_eq_next,
    fun _ _ _ _ _ _ => ByteScan.lt_of_scanNext, fun _ _ _ _ _ => ByteScan.lt_of_bodyNext,
    fun bs i e h => ?_, fun front s _ depth hstop => ?_, fun front c s => ?_, fun text e h => ?_⟩
  · exact (Moves.exists_between hp.moves h).1
  · obtain ⟨hreaches, hlt⟩ := Moves.exists_between hp.moves h
    exact hreaches.goesTo hlt
  · obtain ⟨hreaches, hlt⟩ := Moves.exists_between hp.moves h
    exact hreaches.goesTo (hlt a rfl)
  · exact hp.descends
  · obtain ⟨k, -, rfl⟩ := Option.map_eq_some_iff.mp h
    exact k.2
  · exact ByteScan.scanDepth_eq hstop (.of_append front s) depth
  · exact ByteScan.literalEnd_eq (.of_append front (c :: s))
  · have hboundary := isBoundary_of_parse_eq_error h
    exact ⟨hboundary.le_size, hboundary⟩

/-- An enum that is not closed, behind a name of two bytes. -/
theorem reading_ends_unclosedEnum :
    ∃ e, CompilationUnit.parse "enum é \x7b" = .error e ∧ e.offset = 9 ∧
      e.offset ≤ size "enum é \x7b".toList ∧ IsBoundary "enum é \x7b".toList e.offset := by
  have hoffset : (match CompilationUnit.parse "enum é \x7b" with
      | .error e => e.offset == 9
      | .ok _ => false) = true := by decide +kernel
  obtain ⟨-, -, -, -, -, -, -, -, -, -, -, -, -, -, hplace⟩ := reading_ends
  cases hparse : CompilationUnit.parse "enum é \x7b" with
  | ok u => simp [hparse] at hoffset
  | error e =>
    simp only [hparse, beq_iff_eq] at hoffset
    exact ⟨e, rfl, hoffset, hplace _ _ hparse⟩

end DeclGen.Grammar
