import DeclGen.Proofs.Grammar.CutCommas
import DeclGen.Proofs.Grammar.CutExprs

/-!
# Cutting out members

The members of types and enums. A stop character that a search found is cut off behind the region
that it ends, and a parameter list between its brackets.

## Main definitions

* `throughSemicolon`, `memberBody`, `otherMember`: members that are stepped over
* `typedMember`: members that start with a type
* `enumDeclaration`: enums

## Main statements

* `otherMember_eq`, `typedMember_eq`, `enumDeclaration_eq`: the cuts have an outcome
-/

namespace DeclGen.Grammar.Cutting

open DeclGen.Grammar.Parser DeclGen.Text

variable {α β : Type}

/-! ## A character that is cut off -/

section

variable {c : Cursor} {d : Char} {p p' : Parser β} {q q' : Cutting β}

/-- What comes behind an ASCII character ahead. -/
theorem cut_one_bind_eq (h : c.rest.head? = some d) (hd : isAscii d = true) (hq : q = ofParser p) :
    (do let _ ← cut 1; q : Cutting β) c = some ((do let _ ← take 1; p : Parser β) c) :=
  bind_apply_eq (cut_one h hd) fun _ c' _ => congrFun hq c'

/-- What comes where an ASCII character is ahead and where it is not. -/
theorem nextIs_bind_eq (h : ∀ c, c.rest.head? = some d → q c = some (p c))
    (hq : q' = ofParser p') :
    (do if ← nextIs d then q else q' : Cutting β) =
      ofParser (do if ← nextIs d then p else p') := by
  refine bind_eq_of rfl fun c b c' hb => ?_
  have happly : nextIs d c = .ok (c.rest.head? == some d, c) := rfl
  cases happly.symm.trans hb
  split
  next hd => exact h c (eq_of_beq hd)
  next => exact congrFun hq c

/-- A sign of an assignment is cut off. -/
theorem nextIsAssignment_bind_eq (hq : q = ofParser p) (hq' : q' = ofParser p') :
    (do
      if ← nextIsAssignment then
        let _ ← cut 1
        q
      else q' : Cutting β) =
      ofParser (do
        if ← nextIsAssignment then
          let _ ← take 1
          p
        else p') := by
  refine bind_eq_of rfl fun c b c' hb => ?_
  have happly : nextIsAssignment c =
      .ok (c.rest.head? == some '=' && !"=>".toList.isPrefixOf c.rest, c) := rfl
  cases happly.symm.trans hb
  split
  next h =>
    have hhead := (Bool.and_eq_true _ _ ▸ h).1
    exact cut_one_bind_eq (eq_of_beq hhead) (by decide) hq
  next => exact congrFun hq' c

/-- Behind a search stands what it looked for. -/
theorem exists_head?_of_takeUntil {stop : Char → Bool} {x : List Char} {c' : Cursor}
    (h : Grammar.takeUntil stop c = .ok (x, c')) :
    ∃ d, c'.rest.head? = some d ∧ stop d = true := by
  obtain ⟨n, hscan, -, rfl⟩ := exists_scan_of_takeUntil h
  obtain ⟨d, t, hdrop, hd⟩ := exists_of_scan hscan
  exact ⟨d, congrArg List.head? hdrop, hd⟩

theorem of_label {what : String} {p : Parser α} {r : α × Cursor}
    (h : Parser.label what p c = .ok r) : p c = .ok r := by
  rw [Parser.label] at h
  cases hp : p c with
  | error e =>
    rw [hp] at h
    cases h
  | ok r' =>
    rw [hp] at h
    exact h

theorem eq_of_lookahead {p : Parser α} {a : Option α} {c' : Cursor}
    (h : Parser.lookahead p c = .ok (a, c')) : c' = c := by
  rw [Parser.lookahead] at h
  cases hp : p c <;> rw [hp] at h <;> cases h <;> rfl

end

/-! ## Members that are stepped over -/

def throughSemicolon (what : String) : Cutting Unit := do
  let _ ← label what (takeUntil (· == ';'))
  let _ ← cut 1

def memberBody : Cutting Bool := do
  trivia
  if ← nextIs '{' then
    let _ ← braced
    return true
  else if ← acceptHere "=>" then
    throughSemicolon "';' after the expression body"
    return true
  else
    Parser.label "member body or ';'" (symbol ";")
    return false

def otherMember (start : Nat) (kind : OtherKind) : Cutting Member := do
  let _ ← label "member declaration" (takeUntil endsHead)
  trivia
  if ← nextIsAssignment then
    let _ ← cut 1
    throughSemicolon "';'"
  else
    let _ ← memberBody
  return .other kind (← spanFrom start)

def throughParameters : Cutting Unit := do
  let _ ← takeUntil (· == '(')
  let _ ← parenthesized

def constraintClauses : Cutting Unit := do
  if ← acceptKeyword "where" then
    let _ ← label "type parameter constraints" (takeUntil endsHead)

theorem braced_eq : braced = ofParser Grammar.braced := delimited_eq (by decide) (by decide)

theorem parenthesized_eq : parenthesized = ofParser Grammar.parenthesized :=
  delimited_eq (by decide) (by decide)

theorem onlyAscii_endsHead : OnlyAscii endsHead :=
  .or (.or (.beq (by decide)) (.beq (by decide))) (.beq (by decide))

theorem throughSemicolon_eq (what : String) :
    throughSemicolon what = ofParser (Grammar.throughSemicolon what) := by
  refine bind_eq_of (label_eq (takeUntil_eq (.beq (by decide)))) fun c x c' h => ?_
  obtain ⟨d, hd, hsemicolon⟩ := exists_head?_of_takeUntil (of_label h)
  rw [eq_of_beq hsemicolon] at hd
  exact cut_one_bind_eq hd (by decide) rfl

theorem memberBody_eq : memberBody = ofParser Grammar.memberBody := by
  refine bind_eq rfl fun _ => bind_eq rfl fun _ => ite_eq (bind_eq braced_eq fun _ => rfl) ?_
  refine bind_eq rfl fun _ => ite_eq (bind_eq (throughSemicolon_eq _) fun _ => rfl) ?_
  exact bind_eq rfl fun _ => rfl

theorem otherMember_eq (start : Nat) (kind : OtherKind) :
    otherMember start kind = ofParser (Grammar.otherMember start kind) := by
  have hend : (do return .other kind (← spanFrom start) : Cutting Member) =
      ofParser (do return .other kind (← spanFrom start)) := bind_eq rfl fun _ => rfl
  refine bind_eq (label_eq (takeUntil_eq onlyAscii_endsHead)) fun _ => bind_eq rfl fun _ => ?_
  exact nextIsAssignment_bind_eq (bind_eq (throughSemicolon_eq _) fun _ => hend)
    (bind_eq memberBody_eq fun _ => hend)

theorem throughParameters_eq : throughParameters = ofParser Grammar.throughParameters :=
  bind_eq (takeUntil_eq (.beq (by decide))) fun _ => bind_eq parenthesized_eq fun _ => rfl

theorem constraintClauses_eq : constraintClauses = ofParser Grammar.constraintClauses :=
  bind_eq rfl fun _ =>
    ite_eq (bind_eq (label_eq (takeUntil_eq onlyAscii_endsHead)) fun _ => rfl) rfl

/-! ## Members that start with a type -/

def nameBrackets : Cutting (Option TypeParameters) := do
  if ← nextIs '<' then
    match ← attempt typeParameters? with
    | some parameters => return parameters
    | none =>
      let _ ← typeArgumentsOf typeExpr
      return none
  else return none

def nameSegment : Cutting (Identifier × Option TypeParameters) := do
  let name ← identifier
  trivia
  return (name, ← nameBrackets)

/-- A segment of a member name with its text, which is cut out. -/
def nameSegmentText : Cutting ((Identifier × Option TypeParameters) × List Char) := do
  trivia
  withText nameSegment

def memberName : Cutting MemberName := do
  let segments ← sepBy nameSegmentText (accept ".")
  let qualifiers := segments.dropLast.map fun s => String.ofList (Text.trimEnd s.2)
  match segments.getLast? with
  | some ((name, parameters), _) =>
    let qualifier := if qualifiers.isEmpty then none else some (".".intercalate qualifiers)
    return ⟨qualifier, name, parameters⟩
  | none => fail

/-- The number of parameters in a parameter list, which is cut out of its parentheses. -/
def parameterCount (list : List Char) : Option Nat :=
  ((inner list).bind splitCommas).map (·.length)

def methodDeclaration (h : DeclHeader) (type : TypeExpr) (name : MemberName) :
    Cutting Member := do
  let parameters ← label "parameter list" parenthesized
  let count ← ofOption (parameterCount parameters)
  constraintClauses
  let hasBody ← memberBody
  return .ofMethod ⟨h.attributes, h.modifiers, type, name.explicitInterface, name.identifier,
    name.typeParameters, count, hasBody, ← spanFrom h.start⟩

def isAutoAccessors (modifiers : List Modifier) (accessors : List Char) : Option Bool :=
  (inner accessors).map fun text =>
    !text.contains '{' && !hasArrow text && !Modifier.has modifiers .abstractMod
      && !Modifier.has modifiers .externMod

def propertyBody (modifiers : List Modifier) : Cutting Bool := do
  if ← nextIs '{' then
    let isAuto ← ofOption (isAutoAccessors modifiers (← braced))
    trivia
    if ← nextIsAssignment then
      let _ ← cut 1
      throughSemicolon "';' after the property initializer"
    return isAuto
  else
    let _ ← memberBody
    return false

def propertyDeclaration (h : DeclHeader) (type : TypeExpr) (name : MemberName) :
    Cutting Member := do
  let isAuto ← propertyBody h.modifiers
  return .ofProperty ⟨h.attributes, h.modifiers, type, name.explicitInterface, name.identifier,
    isAuto, ← spanFrom h.start⟩

/-- Whether a comma ahead starts a further declarator; it is cut off. -/
def declaratorFollows : Cutting Unit := do
  let _ ← cut 1
  declaratorStart

def initializerPiece : Cutting (Round Unit) := do
  let _ ← label "field initializer" (takeUntil fun c => c == ',' || c == ';')
  if ← nextIs ',' then
    match ← lookahead declaratorFollows with
    | some () => return .last ()
    | none =>
      let _ ← cut 1
      return .more ()
  else return .last ()

def fieldInitializer : Cutting Span := do
  trivia
  let start ← offset
  let (_, skipped) ← withText (rounds initializerPiece)
  if (Text.trim skipped).isEmpty then failAt start "field initializer"
  else return ⟨start, start + Text.size (Text.trimEnd skipped)⟩

def declarator (name : Identifier) : Cutting Declarator := do
  trivia
  if ← nextIs '[' then
    let _ ← bracketed
  trivia
  if ← cutHere '=' then
    let initializer ← fieldInitializer
    return ⟨name, some initializer, ⟨name.span.start, initializer.stop⟩⟩
  else return ⟨name, none, name.span⟩

def declarator? : Cutting (Option Declarator) := do
  if ← accept "," then
    let next ← label "variable name" identifier
    return some (← declarator next)
  else return none

def fieldDeclaration (h : DeclHeader) (type : TypeExpr) (name : MemberName) :
    Cutting Member := do
  let first ← declarator name.identifier
  let others ← many declarator?
  Parser.label "';' after the field declaration" (symbol ";")
  return .ofField ⟨h.attributes, h.modifiers, type, first :: others, ← spanFrom h.start⟩

def typedMember (h : DeclHeader) : Cutting Member := do
  let type ← label "a member declaration" typeExpr
  if ← acceptKeyword "operator" then
    throughParameters
    otherMember h.start .operator
  else if ← acceptKeyword "this" then
    trivia
    let _ ← label "indexer parameters" bracketed
    otherMember h.start .indexer
  else
    let name ← label "member name" memberName
    trivia
    if ← nextIs '(' then methodDeclaration h type name
    else if (← nextIs '{') || (← startsWith "=>") then propertyDeclaration h type name
    else fieldDeclaration h type name

theorem nameSegment_eq : nameSegment = ofParser Grammar.nameSegment := by
  have hbrackets : nameBrackets = ofParser Grammar.nameBrackets := by
    refine bind_eq rfl fun _ => ite_eq (bind_eq (attempt_eq typeParameters?_eq) fun ps => ?_) rfl
    cases ps with
    | some ps => rfl
    | none => exact bind_eq (typeArgumentsOf_eq typeExpr_eq) fun _ => rfl
  exact bind_eq identifier_eq fun _ => bind_eq rfl fun _ => bind_eq hbrackets fun _ => rfl

theorem memberName_eq : memberName = ofParser Grammar.memberName := by
  have htext : nameSegmentText = ofParser Grammar.nameSegmentText :=
    bind_eq rfl fun _ => withText_eq nameSegment_eq fun _ _ => moves_nameSegment
  refine bind_eq (sepBy_eq htext rfl) fun segments => ?_
  cases segments.getLast? <;> rfl

theorem parameterCount_eq (x : List Char) :
    parameterCount ('(' :: (x ++ [')'])) = some (Grammar.parameterCount ('(' :: (x ++ [')']))) := by
  rw [parameterCount, inner_eq (by decide) (by decide), Option.bind_some, splitCommas_eq,
    Option.map_some, Grammar.parameterCount]

theorem isAutoAccessors_eq (modifiers : List Modifier) (x : List Char) :
    isAutoAccessors modifiers ('{' :: (x ++ ['}'])) =
      some (Grammar.isAutoAccessors modifiers ('{' :: (x ++ ['}']))) := by
  rw [isAutoAccessors, inner_eq (by decide) (by decide)]
  rfl

theorem methodDeclaration_eq (h : DeclHeader) (type : TypeExpr) (name : MemberName) :
    methodDeclaration h type name = ofParser (Grammar.methodDeclaration h type name) := by
  refine bind_eq_of (label_eq parenthesized_eq) fun c list c' hlist => ?_
  obtain ⟨x, rfl⟩ := exists_of_delimited (of_label hlist)
  rw [parameterCount_eq, ofOption_some_bind]
  exact congrFun (bind_eq constraintClauses_eq fun _ => bind_eq memberBody_eq fun _ =>
    bind_eq rfl fun _ => rfl) c'

theorem propertyBody_eq (modifiers : List Modifier) :
    propertyBody modifiers = ofParser (Grammar.propertyBody modifiers) := by
  refine bind_eq rfl fun _ => ite_eq ?_ (bind_eq memberBody_eq fun _ => rfl)
  refine bind_eq_of braced_eq fun c accessors c' haccessors => ?_
  obtain ⟨x, rfl⟩ := exists_of_delimited haccessors
  rw [isAutoAccessors_eq, ofOption_some_bind]
  refine congrFun (bind_eq rfl fun _ => ?_) c'
  exact nextIsAssignment_bind_eq (bind_eq (throughSemicolon_eq _) fun _ => rfl) rfl

theorem propertyDeclaration_eq (h : DeclHeader) (type : TypeExpr) (name : MemberName) :
    propertyDeclaration h type name = ofParser (Grammar.propertyDeclaration h type name) :=
  bind_eq (propertyBody_eq _) fun _ => bind_eq rfl fun _ => rfl

theorem initializerPiece_eq : initializerPiece = ofParser Grammar.initializerPiece := by
  have hstop : OnlyAscii fun c => c == ',' || c == ';' := .or (.beq (by decide)) (.beq (by decide))
  refine bind_eq (label_eq (takeUntil_eq hstop)) fun _ => nextIs_bind_eq (fun c hcomma => ?_) rfl
  have hfollows : declaratorFollows c =
      some ((do let _ ← take 1; declaratorStart : Parser Unit) c) :=
    cut_one_bind_eq hcomma (by decide) rfl
  refine bind_apply_eq (lookahead_apply_eq hfollows) fun follows c' hc' => ?_
  obtain rfl := eq_of_lookahead hc'
  cases follows with
  | some u => rfl
  | none => exact cut_one_bind_eq hcomma (by decide) rfl

theorem fieldInitializer_eq : fieldInitializer = ofParser Grammar.fieldInitializer := by
  have hpieces : withText (rounds initializerPiece) =
      ofParser (Parser.withText (Parser.rounds Grammar.initializerPiece)) :=
    withText_eq (rounds_eq initializerPiece_eq) fun _ _ => .rounds fun _ _ => moves_initializerPiece
  exact bind_eq rfl fun _ => bind_eq rfl fun _ => bind_eq hpieces fun _ => ite_eq rfl rfl

theorem declarator_eq (name : Identifier) :
    declarator name = ofParser (Grammar.declarator name) := by
  have hbehind : (do
      trivia
      if ← cutHere '=' then
        let initializer ← fieldInitializer
        return ⟨name, some initializer, ⟨name.span.start, initializer.stop⟩⟩
      else return ⟨name, none, name.span⟩ : Cutting Declarator) = ofParser (do
      trivia
      if ← acceptHere "=" then
        let initializer ← Grammar.fieldInitializer
        return ⟨name, some initializer, ⟨name.span.start, initializer.stop⟩⟩
      else return ⟨name, none, name.span⟩) :=
    bind_eq rfl fun _ => bind_eq (cutHere_eq (by decide) rfl) fun _ =>
      ite_eq (bind_eq fieldInitializer_eq fun _ => rfl) rfl
  exact bind_eq rfl fun _ => bind_eq rfl fun _ => ite_eq (bind_eq bracketed_eq fun _ => hbehind)
    hbehind

theorem fieldDeclaration_eq (h : DeclHeader) (type : TypeExpr) (name : MemberName) :
    fieldDeclaration h type name = ofParser (Grammar.fieldDeclaration h type name) := by
  have hnext : declarator? = ofParser Grammar.declarator? :=
    bind_eq rfl fun _ => ite_eq (bind_eq (label_eq identifier_eq) fun next =>
      bind_eq (declarator_eq next) fun _ => rfl) rfl
  exact bind_eq (declarator_eq _) fun _ => bind_eq (many_eq hnext) fun _ => bind_eq rfl fun _ =>
    bind_eq rfl fun _ => rfl

theorem typedMember_eq (h : DeclHeader) : typedMember h = ofParser (Grammar.typedMember h) := by
  refine bind_eq (label_eq typeExpr_eq) fun type => bind_eq rfl fun _ => ite_eq ?_ ?_
  · exact bind_eq throughParameters_eq fun _ => otherMember_eq _ _
  refine bind_eq rfl fun _ => ite_eq ?_ ?_
  · exact bind_eq rfl fun _ => bind_eq (label_eq bracketed_eq) fun _ => otherMember_eq _ _
  refine bind_eq (label_eq memberName_eq) fun name => bind_eq rfl fun _ => bind_eq rfl fun _ => ?_
  refine ite_eq (methodDeclaration_eq h type name) (bind_eq rfl fun _ => bind_eq rfl fun _ => ?_)
  exact ite_eq (propertyDeclaration_eq h type name) (fieldDeclaration_eq h type name)

/-! ## Enums -/

def enumMember : Cutting EnumMember := do
  trivia
  let start ← offset
  let attributes ← attributeLists
  let name ← identifier
  let hasInitializer ← accept "="
  let initializer ← if hasInitializer then some <$> initializerExpr else pure none
  return ⟨attributes, name, initializer, ← spanFrom start⟩

def enumMemberRound : Cutting (Round EnumMember) := do
  trivia
  if ← acceptHere "\x7d" then return .stop
  else
    let member ← label "enum member" enumMember
    if ← accept "," then return .more member
    else
      Parser.label "',' or '\x7d' after the enum member" (symbol "\x7d")
      return .last member

def enumDeclaration (h : DeclHeader) : Cutting Member := do
  keyword "enum"
  let name ← label "enum name" identifier
  trivia
  let hasBase ← acceptHere ":"
  let base ← if hasBase then some <$> label "underlying enum type" typeExpr else pure none
  Parser.label "'\x7b' opening the enum body" (symbol "\x7b")
  let members ← rounds enumMemberRound
  let _ ← accept ";"
  return .ofEnum ⟨h.attributes, h.modifiers, name, base, members, ← spanFrom h.start⟩

theorem enumMember_eq : enumMember = ofParser Grammar.enumMember := by
  refine bind_eq rfl fun _ => bind_eq rfl fun _ => bind_eq attributeLists_eq fun _ => ?_
  refine bind_eq identifier_eq fun _ => bind_eq rfl fun _ => ?_
  exact ite_bind_eq (map_eq some initializerExpr_eq) fun _ => bind_eq rfl fun _ => rfl

theorem enumDeclaration_eq (h : DeclHeader) :
    enumDeclaration h = ofParser (Grammar.enumDeclaration h) := by
  have hround : enumMemberRound = ofParser Grammar.enumMemberRound := by
    refine bind_eq rfl fun _ => bind_eq rfl fun _ => ite_eq rfl ?_
    refine bind_eq (label_eq enumMember_eq) fun _ => bind_eq rfl fun _ => ite_eq rfl ?_
    exact bind_eq rfl fun _ => rfl
  refine bind_eq rfl fun _ => bind_eq (label_eq identifier_eq) fun _ => bind_eq rfl fun _ => ?_
  refine bind_eq rfl fun _ => ite_bind_eq (map_eq some (label_eq typeExpr_eq)) fun _ => ?_
  refine bind_eq rfl fun _ => bind_eq (rounds_eq hround) fun _ => bind_eq rfl fun _ => ?_
  exact bind_eq rfl fun _ => rfl

end DeclGen.Grammar.Cutting
