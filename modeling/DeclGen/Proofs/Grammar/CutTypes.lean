import DeclGen.Proofs.Grammar.CutRegions
import DeclGen.Proofs.Grammar.TokenSpans

/-!
# Cutting out names and types

Identifiers, what stands before and between declarations, and types, with the texts and regions in
them cut out at byte offsets.

## Main statements

* `identifier_eq`, `typeExpr_eq`, `typeParameters?_eq`: the cuts have an outcome
-/

namespace DeclGen.Grammar.Cutting

open DeclGen.Grammar.Parser DeclGen.Text

/-! ## Single characters -/

def cutHere (d : Char) : Cutting Bool := do
  if ← nextIs d then
    let _ ← cut 1
    return true
  else return false

theorem literal_apply (s : String) (c : Cursor) :
    literal s c = if s.toList.isPrefixOf c.rest then .ok ((), c.skip s.length)
      else .error ⟨c.offset, []⟩ := by
  change (if s.toList.isPrefixOf c.rest then Parser.take s.length >>= fun _ => pure ()
    else fail) c = _
  split <;> rfl

theorem cutHere_eq {d : Char} {s : String} (hd : isAscii d = true) (hs : s.toList = [d]) :
    cutHere d = ofParser (acceptHere s) := by
  funext c
  have hlength : s.length = 1 := by rw [← String.length_toList, hs]; rfl
  have hprefix : [d].isPrefixOf c.rest = (c.rest.head? == some d) := by
    cases c.rest with
    | nil => rfl
    | cons e t => simp [List.isPrefixOf, Bool.beq_comm]
  have haccept : acceptHere s c =
      if c.rest.head? == some d then .ok (true, c.skip 1) else .ok (false, c) := by
    rw [acceptHere, Parser.bind_apply, Parser.attempt, literal_apply, hs, hlength, hprefix]
    cases c.rest.head? == some d <;> rfl
  change (if c.rest.head? == some d then do
      let _ ← cut 1
      return true
    else return false : Cutting Bool) c = some (acceptHere s c)
  rw [haccept]
  split
  next h =>
    have hcut := cut_one (eq_of_beq h) hd
    rw [bind_apply, hcut]
    rfl
  next => rfl

/-! ## Names -/

def identifier : Cutting Identifier := do
  trivia
  let start ← offset
  let text ← ahead
  let isVerbatim ← acceptHere "@"
  let found ← word
  if !isVerbatim && isKeyword found then failAt start "an identifier"
  else
    let name ← ofOption (textBefore text (← ahead))
    return ⟨String.ofList name, ← spanFrom start⟩

def dottedPart? : Cutting (Option Identifier) := do
  if ← accept "." then return some (← identifier) else return none

def dottedName : Cutting DottedName := do
  let first ← identifier
  let others ← many dottedPart?
  let last := others.getLast?.getD first
  return ⟨first :: others, ⟨first.span.start, last.span.stop⟩⟩

/-- What `@` and a word spell. -/
theorem textBefore_word {c c₁ c₂ : Cursor} {isVerbatim : Bool} {found : String}
    (h₁ : acceptHere "@" c = .ok (isVerbatim, c₁)) (h₂ : word c₁ = .ok (found, c₂)) :
    textBefore c.rest c₂.rest = some (if isVerbatim then "@" ++ found else found).toList := by
  obtain ⟨text, hc⟩ := exists_rest c
  obtain ⟨hc₁, -, hat⟩ := tracks_acceptHere "@" c.rest hc isVerbatim c₁ h₁
  obtain ⟨hc₂, -, hword⟩ := tracks_word c₁.rest hc₁ found c₂ h₂
  refine textBefore_eq hc hc₂ ?_
  cases isVerbatim with
  | false =>
    rw [if_neg Bool.false_ne_true] at hat
    rwa [hat] at hword
  | true =>
    have hspells := hat.append hword
    rwa [← String.toList_append] at hspells

theorem identifier_eq : identifier = ofParser Grammar.identifier := by
  refine bind_eq rfl fun _ => bind_eq rfl fun start => funext fun c => ?_
  refine (ahead_bind_apply _ c).trans (bind_apply_eq rfl fun isVerbatim c₁ h₁ => ?_)
  refine bind_apply_eq rfl fun found c₂ h₂ => ?_
  split
  next => rfl
  next =>
    change (ofOption (textBefore c.rest c₂.rest) >>= fun name => do
      return (⟨String.ofList name, ← spanFrom start⟩ : Identifier)) c₂ = _
    rw [textBefore_word h₁ h₂]
    change some _ = some _
    rw [String.ofList_toList]
    rfl

theorem dottedPart?_eq : dottedPart? = ofParser Grammar.dottedPart? :=
  bind_eq rfl fun _ => ite_eq (bind_eq identifier_eq fun _ => rfl) rfl

theorem dottedName_eq : dottedName = ofParser Grammar.dottedName :=
  bind_eq identifier_eq fun _ => bind_eq (many_eq dottedPart?_eq) fun _ => rfl

/-! ## What stands before and between declarations -/

def attributeList? : Cutting (Option AttributeList) := do
  trivia
  if ← nextIs '[' then
    let start ← offset
    let text ← label "attribute list" bracketed
    return some ⟨String.ofList text, ← spanFrom start⟩
  else return none

def attributeLists : Cutting (List AttributeList) := many attributeList?

def usingAlias : Cutting Identifier := do
  let name ← identifier
  symbol "="
  return name

def usingDirective? : Cutting (Option UsingDirective) := do
  trivia
  let start ← offset
  match ← Parser.attempt usingOpening with
  | none => return none
  | some isGlobal =>
    let isStatic ← acceptKeyword "static"
    let aliasName ← attempt usingAlias
    trivia
    let name ← label "using directive" (takeUntil (· == ';'))
    symbol ";"
    return some ⟨isGlobal, isStatic, aliasName, String.ofList (Text.trim name), ← spanFrom start⟩

def usingDirectives : Cutting (List UsingDirective) := many usingDirective?

theorem bracketed_eq : bracketed = ofParser Grammar.bracketed :=
  delimited_eq (by decide) (by decide)

theorem attributeLists_eq : attributeLists = ofParser Grammar.attributeLists :=
  many_eq (bind_eq rfl fun _ => bind_eq rfl fun _ => ite_eq
    (bind_eq rfl fun _ => bind_eq (label_eq bracketed_eq) fun _ => rfl) rfl)

theorem usingAlias_eq : usingAlias = ofParser Grammar.usingAlias :=
  bind_eq identifier_eq fun _ => bind_eq rfl fun _ => rfl

theorem usingDirective?_eq : usingDirective? = ofParser Grammar.usingDirective? := by
  refine bind_eq rfl fun _ => bind_eq rfl fun _ => bind_eq rfl fun opening => ?_
  cases opening with
  | none => rfl
  | some isGlobal =>
    refine bind_eq rfl fun _ => bind_eq (attempt_eq usingAlias_eq) fun _ => bind_eq rfl fun _ => ?_
    exact bind_eq (label_eq (takeUntil_eq (.beq (by decide)))) fun _ => bind_eq rfl fun _ => rfl

theorem usingDirectives_eq : usingDirectives = ofParser Grammar.usingDirectives :=
  many_eq usingDirective?_eq

/-! ## Types -/

section

variable {self : Cutting TypeExpr} {self' : Parser TypeExpr}

def typeArgumentsOf (self : Cutting TypeExpr) : Cutting (List TypeExpr) := do
  symbol "<"
  let arguments ← sepBy self (accept ",")
  Parser.label "'>' closing the type argument list" (symbol ">")
  return arguments

def optionalTypeArguments (self : Cutting TypeExpr) : Cutting (List TypeExpr) :=
  return (← attempt (typeArgumentsOf self)).getD []

def dottedIdentifier : Cutting Identifier := do
  symbol "."
  identifier

def segment? (self : Cutting TypeExpr) : Cutting (Option NameSegment) := do
  match ← attempt dottedIdentifier with
  | none => return none
  | some name => return some (.mk name (← optionalTypeArguments self))

def namedTypeOf (self : Cutting TypeExpr) : Cutting TypeExpr := do
  trivia
  let start ← offset
  let first ← label "a type" identifier
  let isAliased ← accept "::"
  let head ← if isAliased then label "a type" identifier else pure first
  let arguments ← optionalTypeArguments self
  let others ← many (segment? self)
  return .named (if isAliased then some first else none) (.mk head arguments :: others)
    (← spanFrom start)

def tupleElement (self : Cutting TypeExpr) : Cutting TypeExpr := do
  let element ← self
  let _ ← attempt identifier
  return element

def tupleType (self : Cutting TypeExpr) : Cutting TypeExpr := do
  let start ← offset
  symbol "("
  let first ← offset
  let elements ← sepBy (tupleElement self) (accept ",")
  Parser.label "')' closing the tuple type" (symbol ")")
  if elements.length < 2 then failAt first "a tuple type"
  else return .tuple elements (← spanFrom start)

/-- The rank of the array brackets that are open before a text, and the index behind their end.
Only commas and blanks may stand in them; `index` bytes of the text have been looked at. -/
def arrayRank (rank index : Nat) : List Char → Option (Nat × Nat)
  | [] => none
  | c :: s =>
    if c == ',' then arrayRank (rank + 1) (index + c.utf8Size) s
    else if c == ']' then some (rank, index + 1)
    else if Text.isBlank c then arrayRank rank (index + c.utf8Size) s
    else none

def typeSuffix : Cutting (TypeSuffix × Nat) := do
  trivia
  match ← ahead with
  | '?' :: _ =>
    let _ ← take 1
    return (.nullable, ← offset)
  | '*' :: _ =>
    let _ ← take 1
    return (.pointer, ← offset)
  | '[' :: s =>
    match arrayRank 1 0 s with
    | some (rank, i) =>
      let _ ← cut (i + 1)
      return (.array rank, ← offset)
    | none => fail
  | _ => fail

def coreType (self : Cutting TypeExpr) : Cutting TypeExpr := do
  if ← nextIs '(' then tupleType self
  else
    match ← Parser.attempt predefinedType with
    | some t => return t
    | none => namedTypeOf self

def suffixedType (self : Cutting TypeExpr) : Cutting TypeExpr := do
  trivia
  let start ← offset
  let t ← coreType self
  let suffixes ← many (attempt typeSuffix)
  return suffixes.foldl (TypeSuffix.apply start) t

def typeExpr : Cutting TypeExpr := fix (fun self _ => suffixedType (self ())) ()

def typeParameter : Cutting TypeParameter := do
  let _ ← attributeLists
  let variance ← do
    if ← acceptKeyword "in" then pure (some Variance.contravariant)
    else if ← acceptKeyword "out" then pure (some Variance.covariant)
    else pure none
  return ⟨variance, ← label "type parameter" identifier⟩

def typeParameters? : Cutting (Option TypeParameters) := do
  trivia
  let start ← offset
  if ← cutHere '<' then
    let parameters ← sepBy typeParameter (accept ",")
    Parser.label "'>' closing the type parameter list" (symbol ">")
    return some ⟨parameters, ← spanFrom start⟩
  else return none

theorem typeArgumentsOf_eq (h : self = ofParser self') :
    typeArgumentsOf self = ofParser (Grammar.typeArgumentsOf self') :=
  bind_eq rfl fun _ => bind_eq (sepBy_eq h rfl) fun _ => bind_eq rfl fun _ => rfl

theorem optionalTypeArguments_eq (h : self = ofParser self') :
    optionalTypeArguments self = ofParser (Grammar.optionalTypeArguments self') :=
  bind_eq (attempt_eq (typeArgumentsOf_eq h)) fun _ => rfl

theorem segment?_eq (h : self = ofParser self') :
    segment? self = ofParser (Grammar.segment? self') := by
  have hname : dottedIdentifier = ofParser Grammar.dottedIdentifier :=
    bind_eq rfl fun _ => identifier_eq
  refine bind_eq (attempt_eq hname) fun name => ?_
  cases name with
  | none => rfl
  | some name => exact bind_eq (optionalTypeArguments_eq h) fun _ => rfl

theorem namedTypeOf_eq (h : self = ofParser self') :
    namedTypeOf self = ofParser (Grammar.namedTypeOf self') := by
  refine bind_eq rfl fun _ => bind_eq rfl fun start => ?_
  refine bind_eq (label_eq identifier_eq) fun first => bind_eq rfl fun isAliased => ?_
  exact ite_bind_eq (label_eq identifier_eq) fun _ => bind_eq (optionalTypeArguments_eq h)
    fun _ => bind_eq (many_eq (segment?_eq h)) fun _ => rfl

theorem tupleType_eq (h : self = ofParser self') :
    tupleType self = ofParser (Grammar.tupleType self') := by
  have helement : tupleElement self = ofParser (Grammar.tupleElement self') :=
    bind_eq h fun _ => bind_eq (attempt_eq identifier_eq) fun _ => rfl
  refine bind_eq rfl fun _ => bind_eq rfl fun _ => bind_eq rfl fun _ => ?_
  refine bind_eq (sepBy_eq helement rfl) fun elements => bind_eq rfl fun _ => ?_
  split <;> rfl

/-- The index behind array brackets is that behind as many characters. -/
theorem arrayRank_eq (rank : Nat) (x s : List Char) :
    arrayRank rank (size x) s =
      (Grammar.arrayRank rank x.length s).map fun (r, n) => (r, size ((x ++ s).take n)) := by
  induction s generalizing rank x with
  | nil => rfl
  | cons c s ih =>
    have hsize : size x + c.utf8Size = size (x ++ [c]) := by simp
    have hlength : x.length + 1 = (x ++ [c]).length := by simp
    have htext : x ++ c :: s = x ++ [c] ++ s := by simp
    rw [arrayRank, Grammar.arrayRank]
    split
    · rw [hsize, hlength, ih, htext]
    split
    next hc =>
      obtain rfl := eq_of_beq hc
      have htake : (x ++ ']' :: s).take (x.length + 1) = x ++ [']'] := by
        rw [htext, hlength, List.take_left]
      simp only [Option.map_some, htake, size_append]
      rfl
    split
    · rw [hsize, hlength, ih, htext]
    · rfl

theorem typeSuffix_eq : typeSuffix = ofParser Grammar.typeSuffix := by
  refine bind_eq rfl fun _ => bind_eq_of rfl fun c s c' h => ?_
  obtain ⟨rfl, rfl⟩ : c.rest = s ∧ c = c' := by simpa [ahead] using h
  generalize hrest : c.rest = s
  split
  next => rfl
  next => rfl
  next s =>
    have hrank : arrayRank 1 0 s =
        (Grammar.arrayRank 1 0 s).map fun (r, n) => (r, size (s.take n)) := arrayRank_eq 1 [] s
    change (match arrayRank 1 0 s with
      | some (rank, i) => do
        let _ ← cut (i + 1)
        return (.array rank, ← offset)
      | none => fail : Cutting (TypeSuffix × Nat)) c = some ((match Grammar.arrayRank 1 0 s with
      | some (rank, n) => do
        let _ ← take (n + 1)
        return (.array rank, ← offset)
      | none => fail : Parser (TypeSuffix × Nat)) c)
    rw [hrank]
    cases Grammar.arrayRank 1 0 s with
    | none => rfl
    | some r =>
      have hsize : size (c.rest.take (r.2 + 1)) = size (s.take r.2) + 1 := by
        rw [hrest, List.take_succ_cons, size_cons, Nat.add_comm]
        rfl
      refine bind_apply_eq ?_ fun _ c' _ => rfl
      rw [← hsize, cut_take]
  next =>
    have hfail : (fail : Cutting (TypeSuffix × Nat)) c = some (fail c) := rfl
    simpa only using hfail

theorem coreType_eq (h : self = ofParser self') :
    coreType self = ofParser (Grammar.coreType self') := by
  refine bind_eq rfl fun _ => ite_eq (tupleType_eq h) (bind_eq rfl fun t => ?_)
  cases t with
  | none => exact namedTypeOf_eq h
  | some t => rfl

theorem suffixedType_eq (h : self = ofParser self') :
    suffixedType self = ofParser (Grammar.suffixedType self') :=
  bind_eq rfl fun _ => bind_eq rfl fun _ => bind_eq (coreType_eq h) fun _ =>
    bind_eq (many_eq (attempt_eq typeSuffix_eq)) fun _ => rfl

end

theorem typeExpr_eq : typeExpr = ofParser Grammar.typeExpr :=
  fix_eq (fun _ _ => suffixedType_eq rfl) ()

theorem typeParameter_eq : typeParameter = ofParser Grammar.typeParameter := by
  have hname (variance : Option Variance) : (do
        return ⟨variance, ← label "type parameter" identifier⟩ : Cutting TypeParameter) =
      ofParser (do return ⟨variance, ← Parser.label "type parameter" Grammar.identifier⟩) :=
    bind_eq (label_eq identifier_eq) fun _ => rfl
  refine bind_eq attributeLists_eq fun _ => bind_eq rfl fun _ => ite_eq (hname _) ?_
  exact bind_eq rfl fun _ => ite_eq (hname _) (hname _)

theorem typeParameters?_eq : typeParameters? = ofParser Grammar.typeParameters? :=
  bind_eq rfl fun _ => bind_eq rfl fun _ => bind_eq (cutHere_eq (by decide) rfl) fun _ =>
    ite_eq (bind_eq (sepBy_eq typeParameter_eq rfl) fun _ => bind_eq rfl fun _ => rfl) rfl

end DeclGen.Grammar.Cutting
