import DeclGen.Proofs.Grammar.CutTypes

/-!
# Cutting out literals and operators

Character literals are cut behind their escape sequences and expressions behind their operators.

## Main definitions

* `escapeSequence`, `characterLiteral`: characters
* `operatorSymbols`, `binaryOperator?`: operators
* `initializerExpr`: initializers

## Main statements

* `escapeSequence_eq`, `binaryOperator?_eq`: where a character or an operator is cut off
* `initializerExpr_eq`: the cuts have an outcome
-/

namespace DeclGen.Grammar.Cutting

open DeclGen.Grammar.Parser DeclGen.Text

/-! ## Characters -/

/-- The character whose code is written in hexadecimal digits behind the first byte of a text, and
the number of bytes of both. -/
def hexEscape (least most : Nat) (text : List Char) : Option (Option (Char × Nat)) :=
  (dropBytes? 1 text).bind fun t =>
    let digits := ((t.take most).takeWhile isHexDigit).length
    if digits < least then some none
    else (between? 1 (1 + digits) text).map fun code =>
      (charOfCode? (ofDigits 16 code)).map (·, digits + 1)

/-- The character that an escape sequence behind its backslash stands for, and the number of bytes
of the sequence. -/
def escapeSequence : List Char → Option (Option (Char × Nat))
  | 'x' :: s => hexEscape 1 4 ('x' :: s)
  | 'u' :: s => hexEscape 4 4 ('u' :: s)
  | 'U' :: s => hexEscape 8 8 ('U' :: s)
  | s => some (Grammar.escapeSequence s)

/-- The character between the quotes of a character literal, with the number of bytes it is written
with. -/
def characterBody (body : List Char) : Option (Option (Char × Nat)) :=
  match body with
  | [] => some none
  | c :: _ =>
    if c == '\\' then
      ((dropBytes? 1 body).bind escapeSequence).map fun found =>
        found.map fun (value, n) => (value, n + 1)
    else if c == '\'' || c == '\n' then some none
    else some (some (c, c.utf8Size))

def characterLiteral : Cutting Char := do
  match ← ahead with
  | '\'' :: body =>
    match ← ofOption (characterBody body) with
    | some (value, n) =>
      if (← ofOption (dropBytes? n body)).head? == some '\'' then
        let _ ← cut (n + 2)
        return value
      else fail
    | none => fail
  | _ => fail

theorem onlyAscii_isHexDigit : OnlyAscii isHexDigit := by
  intro c hc
  simp only [isHexDigit, Char.isDigit, Bool.or_eq_true, Bool.and_eq_true, decide_eq_true_eq,
    Char.le_def, UInt32.le_iff_toNat_le] at hc
  rw [isAscii, decide_eq_true_eq]
  simp at hc
  omega

/-- The digits behind an ASCII character. -/
theorem hexEscape_eq {c : Char} (hc : isAscii c = true) (least most : Nat) (s : List Char) :
    hexEscape least most (c :: s) = some (
      let digits := (s.take most).takeWhile isHexDigit
      if digits.length < least then none
      else (charOfCode? (ofDigits 16 digits)).map (·, digits.length + 1)) := by
  have hone : size [c] = 1 := utf8Size_eq_one_iff.mpr hc
  have hdrop := dropBytes?_size_append [c] s
  rw [hone] at hdrop
  obtain ⟨t, ht⟩ : ∃ t, s = (s.take most).takeWhile isHexDigit ++ t := by
    refine ⟨(s.take most).dropWhile isHexDigit ++ s.drop most, ?_⟩
    rw [← List.append_assoc, List.takeWhile_append_dropWhile, List.take_append_drop]
  have hbetween := between?_append [c] ((s.take most).takeWhile isHexDigit) t
  rw [hone, ← ht, onlyAscii_isHexDigit.size_takeWhile] at hbetween
  rw [List.singleton_append] at hdrop hbetween
  rw [hexEscape, hdrop]
  dsimp only [Option.bind_some]
  split
  next => rfl
  next => rw [hbetween]; rfl

/-- An escape sequence is written in ASCII. -/
theorem size_take_of_escapeSequence {s : List Char} {value : Char} {n : Nat}
    (h : Grammar.escapeSequence s = some (value, n)) : size (s.take n) = n := by
  cases s with
  | nil => cases h
  | cons c s =>
    have hhex (least most : Nat) (hc : isAscii c = true)
        (h : (let digits := (s.take most).takeWhile isHexDigit
          if digits.length < least then none
          else (charOfCode? (ofDigits 16 digits)).map (·, digits.length + 1)) = some (value, n)) :
        size ((c :: s).take n) = n := by
      dsimp only at h
      split at h
      · cases h
      · obtain ⟨_, -, h⟩ := Option.map_eq_some_iff.mp h
        cases h
        have hdigits : s.take ((s.take most).takeWhile isHexDigit).length =
            (s.take most).takeWhile isHexDigit :=
          List.prefix_iff_eq_take.mp
            ((List.takeWhile_prefix _).trans (List.take_prefix most s)) |>.symm
        rw [List.take_succ_cons, hdigits, size_cons, onlyAscii_isHexDigit.size_takeWhile,
          utf8Size_eq_one_iff.mpr hc, Nat.add_comm]
    simp only [Grammar.escapeSequence] at h
    split at h
    case h_12 => exact hhex 1 4 (by decide) h
    case h_13 => exact hhex 4 4 (by decide) h
    case h_14 => exact hhex 8 8 (by decide) h
    case h_15 => cases h
    all_goals
      cases h
      rfl

theorem escapeSequence_eq (s : List Char) :
    escapeSequence s = some (Grammar.escapeSequence s) := by
  unfold escapeSequence
  split
  · exact hexEscape_eq (by decide) 1 4 _
  · exact hexEscape_eq (by decide) 4 4 _
  · exact hexEscape_eq (by decide) 8 8 _
  · rfl

/-- The character, and where it is cut off. -/
theorem characterBody_eq (body : List Char) :
    characterBody body =
      some ((Grammar.characterBody body).map fun (value, n) => (value, size (body.take n))) := by
  cases body with
  | nil => rfl
  | cons c s =>
    rw [characterBody, Grammar.characterBody]
    split
    next hc =>
      obtain rfl := eq_of_beq hc
      have hdrop : dropBytes? 1 ('\\' :: s) = some s := dropBytes?_size_append ['\\'] s
      rw [hdrop, Option.bind_some, escapeSequence_eq, Option.map_some, Option.map_map]
      cases h : Grammar.escapeSequence s with
      | none => rfl
      | some found =>
        have hsize := size_take_of_escapeSequence h
        have htake : size (('\\' :: s).take (found.2 + 1)) = found.2 + 1 := by
          rw [List.take_succ_cons, size_cons, hsize, Nat.add_comm]
          rfl
        simp only [Option.map_some, Function.comp_apply, htake]
    next =>
      split
      · rfl
      · simp

theorem characterLiteral_eq : characterLiteral = ofParser Grammar.characterLiteral := by
  refine bind_eq_of rfl fun c s c' h => ?_
  obtain ⟨rfl, rfl⟩ : c.rest = s ∧ c = c' := by simpa [ahead] using h
  generalize hrest : c.rest = s
  split
  next body =>
    change (ofOption (characterBody body) >>= _ : Cutting Char) c = some ((match
        Grammar.characterBody body with
      | some (value, n) =>
        if (body.drop n).head? == some '\'' then do
          let _ ← take (n + 2)
          return value
        else fail
      | none => fail : Parser Char) c)
    rw [characterBody_eq]
    cases Grammar.characterBody body with
    | none => rfl
    | some found =>
      obtain ⟨value, n⟩ := found
      have hdrop := dropBytes?_size_append (body.take n) (body.drop n)
      rw [List.take_append_drop] at hdrop
      change (ofOption (dropBytes? (size (body.take n)) body) >>= _ : Cutting Char) c = some ((if
          (body.drop n).head? == some '\'' then do
            let _ ← take (n + 2)
            return value
          else fail : Parser Char) c)
      rw [hdrop]
      change (if (body.drop n).head? == some '\'' then do
          let _ ← cut (size (body.take n) + 2)
          return value
        else fail : Cutting Char) c = _
      split
      next hquote =>
        have hsize : size (c.rest.take (n + 2)) = size (body.take n) + 2 := by
          rw [hrest, List.take_succ_cons, size_cons,
            size_take_succ (eq_of_beq hquote) (by decide), Nat.add_comm]
          rfl
        refine bind_apply_eq ?_ fun _ _ _ => rfl
        rw [← hsize, cut_take]
      next => rfl
  next =>
    have hfail : (fail : Cutting Char) c = some (fail c) := rfl
    simpa only using hfail

/-! ## Operators -/

def operatorSymbols : List (List Char × BinaryOperator) :=
  [(['>', '>', '>'], .unsignedShiftRight), (['<', '<'], .shiftLeft), (['>', '>'], .shiftRight),
    (['*'], .multiply), (['/'], .divide), (['%'], .remainder), (['+'], .add), (['-'], .subtract),
    (['&'], .bitAnd), (['^'], .bitXor), (['|'], .bitOr)]

/-- The binary operator at the start of a text, with the number of its bytes; what follows it is
cut off to look for the sign of a compound assignment. -/
def binaryOperator? (s : List Char) : Option (Option (BinaryOperator × Nat)) :=
  if ['&', '&'].isPrefixOf s || ['|', '|'].isPrefixOf s then some none
  else
    match operatorSymbols.find? fun o => o.1.isPrefixOf s with
    | none => some none
    | some (x, op) =>
      (dropBytes? (size x) s).map fun t => if t.head? == some '=' then none else some (op, size x)

/-- The first symbol that fits is that of the operator. -/
theorem binaryOperator?_eq_find? {s : List Char}
    (h : (['&', '&'].isPrefixOf s || ['|', '|'].isPrefixOf s) = false) :
    Grammar.binaryOperator? s =
      ((operatorSymbols.find? fun o => o.1.isPrefixOf s).map fun o => (o.2, o.1.length)).filter
        fun (_, n) => (s.drop n).head? != some '=' := by
  unfold Grammar.binaryOperator?
  split
  case h_3 t hshift =>
    have hthird : ['>'].isPrefixOf t = false := by
      rw [Bool.eq_false_iff]
      intro hp
      obtain ⟨u, rfl⟩ := List.isPrefixOf_iff_prefix.mp hp
      exact hshift u rfl
    simp [operatorSymbols, List.find?, List.isPrefixOf, hthird]
  case h_14 h₁ h₂ h₃ _ _ h₆ h₇ h₈ h₉ h₁₀ h₁₁ h₁₂ h₁₃ =>
    have hnone : operatorSymbols.find? (fun o => o.1.isPrefixOf s) = none := by
      refine List.find?_eq_none.mpr fun o ho hp => ?_
      obtain ⟨t, rfl⟩ := List.isPrefixOf_iff_prefix.mp hp
      simp only [operatorSymbols, List.mem_cons, List.not_mem_nil, or_false] at ho
      rcases ho with rfl | rfl | rfl | rfl | rfl | rfl | rfl | rfl | rfl | rfl | rfl
      · exact h₁ t rfl
      · exact h₂ t rfl
      · exact h₃ t rfl
      · exact h₆ t rfl
      · exact h₇ t rfl
      · exact h₈ t rfl
      · exact h₉ t rfl
      · exact h₁₀ t rfl
      · exact h₁₁ t rfl
      · exact h₁₂ t rfl
      · exact h₁₃ t rfl
    rw [hnone]
    rfl
  all_goals simp_all [operatorSymbols, List.find?, List.isPrefixOf]

theorem binaryOperator?_of_logical {s : List Char}
    (h : (['&', '&'].isPrefixOf s || ['|', '|'].isPrefixOf s) = true) :
    Grammar.binaryOperator? s = none := by
  rcases Bool.or_eq_true _ _ ▸ h with h | h <;>
    obtain ⟨t, rfl⟩ := List.isPrefixOf_iff_prefix.mp h <;> rfl

/-- The operator, and where it is cut off. -/
theorem binaryOperator?_eq (s : List Char) :
    binaryOperator? s = some (Grammar.binaryOperator? s) ∧
      ∀ op n, Grammar.binaryOperator? s = some (op, n) → size (s.take n) = n := by
  cases h : ['&', '&'].isPrefixOf s || ['|', '|'].isPrefixOf s with
  | true =>
    rw [binaryOperator?, if_pos h, binaryOperator?_of_logical h]
    exact ⟨rfl, fun _ _ h => nomatch h⟩
  | false =>
    rw [binaryOperator?, if_neg (Bool.eq_false_iff.mp h), binaryOperator?_eq_find? h]
    cases hfind : operatorSymbols.find? fun o => o.1.isPrefixOf s with
    | none => exact ⟨rfl, fun _ _ h => nomatch h⟩
    | some o =>
      have hfits :=
        List.find?_some (p := fun o : List Char × BinaryOperator => o.1.isPrefixOf s) hfind
      obtain ⟨t, rfl⟩ := List.isPrefixOf_iff_prefix.mp hfits
      have hsize : ∀ o ∈ operatorSymbols, size o.1 = o.1.length := by decide
      have hlength := hsize o (List.mem_of_find?_eq_some hfind)
      have hhead : (o.1 ++ t).drop o.1.length = t := List.drop_left
      simp only [dropBytes?_size_append, Option.map_some, Option.filter, hhead, bne]
      cases t.head? == some '=' with
      | true => exact ⟨rfl, fun _ _ h => nomatch h⟩
      | false =>
        refine ⟨by rw [hlength]; rfl, fun op n h => ?_⟩
        cases h
        rw [List.take_left, hlength]

/-! ## Expressions -/

section

variable {expr self : Cutting Expr} {expr' self' : Parser Expr}

def inParentheses (expr : Cutting Expr) : Cutting Expr := do
  symbol "("
  let inner ← expr
  Parser.label "')'" (symbol ")")
  return inner

def nameHead : Cutting Identifier := do
  match ← attempt identifier with
  | some name => return name
  | none =>
    let start ← offset
    match ← Parser.attempt word with
    | some found =>
      if isPredefinedType found then return ⟨found, ← spanFrom start⟩
      else failAt start "constant expression"
    | none => failAt start "constant expression"

def namePart? : Cutting (Option Identifier) := do
  if ← accept "." then return some (← label "member name" identifier) else return none

def nameExpr : Cutting Expr := do
  let start ← offset
  let first ← nameHead
  let isAliased ← accept "::"
  let head ← if isAliased then label "a name" identifier else pure first
  let others ← many namePart?
  return .name (head :: others) (← spanFrom start)

def primaryExpr (expr : Cutting Expr) : Cutting Expr := do
  let start ← offset
  match ← ahead with
  | '\'' :: _ => return .character (← label "character literal" characterLiteral) (← spanFrom start)
  | c :: _ =>
    if c.isDigit then
      return .integer (← Parser.label "integer literal" integerLiteral) (← spanFrom start)
    else
      match ← Parser.lookahead word with
      | some "checked" =>
        let _ ← word
        return .overflowContext true (← inParentheses expr) (← spanFrom start)
      | some "unchecked" =>
        let _ ← word
        return .overflowContext false (← inParentheses expr) (← spanFrom start)
      | _ => nameExpr
  | [] => nameExpr

def castType : Cutting TypeExpr := do
  symbol "("
  let type ← typeExpr
  symbol ")"
  let operand ← Parser.lookahead (do trivia; ahead)
  if castOperandFollows type (operand.getD []) then return type else fail

def castExpr (unary : Cutting Expr) : Cutting Expr := do
  let start ← offset
  let type ← castType
  return .cast type (← unary) (← spanFrom start)

def unaryExprOf (expr self : Cutting Expr) : Cutting Expr := do
  trivia
  let start ← offset
  let s ← ahead
  match unaryOperator? s with
  | some op =>
    let _ ← cut 1
    return .unary op (← self) (← spanFrom start)
  | none =>
    if s.head? == some '(' then
      match ← attempt (castExpr self) with
      | some e => return e
      | none => return .parenthesized (← inParentheses expr) (← spanFrom start)
    else primaryExpr expr

def unaryExpr (expr : Cutting Expr) : Cutting Expr :=
  fix (fun self _ => unaryExprOf expr (self ())) ()

def operatorFrom (least : Nat) : Cutting BinaryOperator := do
  trivia
  match ← ofOption (binaryOperator? (← ahead)) with
  | some (op, n) =>
    if op.precedence < least then fail
    else
      let _ ← cut n
      return op
  | none => fail

def operation? (self : Nat → Cutting Expr) (least : Nat) :
    Cutting (Option (BinaryOperator × Expr)) := do
  match ← attempt (operatorFrom least) with
  | some op => return some (op, ← self (op.precedence + 1))
  | none => return none

def binaryExprOf (self : Nat → Cutting Expr) (least : Nat) : Cutting Expr := do
  let first ← unaryExpr (self 0)
  let others ← many (operation? self least)
  return others.foldl Expr.combine first

def constantExpr : Cutting Expr := fix binaryExprOf 0

def closedExpr : Cutting Expr := do
  let e ← constantExpr
  match ← Parser.lookahead (do trivia; ahead) with
  | some (',' :: _) | some ('}' :: _) => return e
  | _ => fail

def initializerExpr : Cutting Expr := do
  match ← attempt closedExpr with
  | some e => return e
  | none =>
    trivia
    let start ← offset
    let text := trimEnd (← label "enum member value" (takeUntil fun c => c == ',' || c == '}'))
    if text.isEmpty then failAt start "enum member value"
    else return .unsupported (String.ofList text) ⟨start, start + size text⟩

theorem inParentheses_eq (h : expr = ofParser expr') :
    inParentheses expr = ofParser (Grammar.inParentheses expr') :=
  bind_eq rfl fun _ => bind_eq h fun _ => bind_eq rfl fun _ => rfl

theorem nameHead_eq : nameHead = ofParser Grammar.nameHead := by
  refine bind_eq (attempt_eq identifier_eq) fun name => ?_
  cases name with
  | some name => rfl
  | none =>
    refine bind_eq rfl fun start => bind_eq rfl fun found => ?_
    cases found with
    | none => rfl
    | some found => exact ite_eq (bind_eq rfl fun _ => rfl) rfl

theorem nameExpr_eq : nameExpr = ofParser Grammar.nameExpr := by
  have hpart : namePart? = ofParser Grammar.namePart? :=
    bind_eq rfl fun _ => ite_eq (bind_eq (label_eq identifier_eq) fun _ => rfl) rfl
  refine bind_eq rfl fun start => bind_eq nameHead_eq fun first => bind_eq rfl fun isAliased => ?_
  exact ite_bind_eq (label_eq identifier_eq) fun _ => bind_eq (many_eq hpart) fun _ => rfl

theorem primaryExpr_eq (h : expr = ofParser expr') :
    primaryExpr expr = ofParser (Grammar.primaryExpr expr') := by
  refine bind_eq rfl fun start => bind_eq rfl fun s => ?_
  cases s with
  | nil => exact nameExpr_eq
  | cons c t =>
    by_cases hc : c = '\''
    · subst hc
      exact bind_eq (label_eq characterLiteral_eq) fun _ => bind_eq rfl fun _ => rfl
    · simp only
      refine ite_eq (bind_eq rfl fun _ => bind_eq rfl fun _ => rfl) (bind_eq rfl fun found => ?_)
      by_cases hchecked : found = some "checked"
      · subst hchecked
        exact bind_eq rfl fun _ => bind_eq (inParentheses_eq h) fun _ => bind_eq rfl fun _ => rfl
      by_cases hunchecked : found = some "unchecked"
      · subst hunchecked
        exact bind_eq rfl fun _ => bind_eq (inParentheses_eq h) fun _ => bind_eq rfl fun _ => rfl
      · simp only
        exact nameExpr_eq

theorem castExpr_eq (h : self = ofParser self') :
    castExpr self = ofParser (Grammar.castExpr self') := by
  have htype : castType = ofParser Grammar.castType :=
    bind_eq rfl fun _ => bind_eq typeExpr_eq fun _ => bind_eq rfl fun _ => bind_eq rfl fun _ =>
      ite_eq rfl rfl
  exact bind_eq rfl fun _ => bind_eq htype fun _ => bind_eq h fun _ => bind_eq rfl fun _ => rfl

/-- A unary operator is a single ASCII character. -/
theorem exists_head?_of_unaryOperator? {s : List Char} {op : UnaryOperator}
    (h : unaryOperator? s = some op) : ∃ d, s.head? = some d ∧ isAscii d = true := by
  unfold unaryOperator? at h
  split at h
  case h_2 => exact ⟨'+', rfl, by decide⟩
  case h_4 => exact ⟨'-', rfl, by decide⟩
  case h_5 => exact ⟨'~', rfl, by decide⟩
  all_goals cases h

theorem unaryExprOf_eq (he : expr = ofParser expr') (hs : self = ofParser self') :
    unaryExprOf expr self = ofParser (Grammar.unaryExprOf expr' self') := by
  refine bind_eq rfl fun _ => bind_eq rfl fun start => bind_eq_of rfl fun c s c' h => ?_
  obtain ⟨rfl, rfl⟩ : c.rest = s ∧ c = c' := by simpa [ahead] using h
  cases hop : unaryOperator? c.rest with
  | some op =>
    obtain ⟨d, hd, hascii⟩ := exists_head?_of_unaryOperator? hop
    exact bind_apply_eq (cut_one hd hascii) fun _ c' _ =>
      congrFun (bind_eq hs fun _ => bind_eq rfl fun _ => rfl) c'
  | none =>
    refine congrFun (ite_eq (bind_eq (attempt_eq (castExpr_eq hs)) fun e => ?_)
      (primaryExpr_eq he)) c
    cases e with
    | some e => rfl
    | none => exact bind_eq (inParentheses_eq he) fun _ => bind_eq rfl fun _ => rfl

theorem unaryExpr_eq (h : expr = ofParser expr') :
    unaryExpr expr = ofParser (Grammar.unaryExpr expr') :=
  fix_eq (fun _ _ => unaryExprOf_eq h rfl) ()

theorem operatorFrom_eq (least : Nat) :
    operatorFrom least = ofParser (Grammar.operatorFrom least) := by
  refine bind_eq rfl fun _ => bind_eq_of rfl fun c s c' h => ?_
  obtain ⟨rfl, rfl⟩ : c.rest = s ∧ c = c' := by simpa [ahead] using h
  obtain ⟨heq, hsize⟩ := binaryOperator?_eq c.rest
  rw [heq]
  change (match Grammar.binaryOperator? c.rest with
    | some (op, n) => if op.precedence < least then fail else do
      let _ ← cut n
      return op
    | none => fail : Cutting BinaryOperator) c = some _
  cases hop : Grammar.binaryOperator? c.rest with
  | none => rfl
  | some found =>
    obtain ⟨op, n⟩ := found
    dsimp only
    split
    · rfl
    · have hcut := cut_take n c
      rw [hsize op n hop] at hcut
      exact bind_apply_eq hcut fun _ _ _ => rfl

theorem constantExpr_eq : constantExpr = ofParser Grammar.constantExpr := by
  refine fix_eq (fun self least => bind_eq (unaryExpr_eq rfl) fun _ => bind_eq (many_eq ?_)
    fun _ => rfl) 0
  refine bind_eq (attempt_eq (operatorFrom_eq least)) fun op => ?_
  cases op with
  | none => rfl
  | some op => exact bind_eq rfl fun _ => rfl

theorem initializerExpr_eq : initializerExpr = ofParser Grammar.initializerExpr := by
  have hclosed : closedExpr = ofParser Grammar.closedExpr := by
    refine bind_eq constantExpr_eq fun e => bind_eq rfl fun s => ?_
    split
    next => rfl
    next => rfl
    next =>
      have hfail : (fail : Cutting Expr) = ofParser fail := rfl
      simpa only using hfail
  have hstop : OnlyAscii fun c => c == ',' || c == '}' := .or (.beq (by decide)) (.beq (by decide))
  refine bind_eq (attempt_eq hclosed) fun e => ?_
  cases e with
  | some e => rfl
  | none =>
    exact bind_eq rfl fun _ => bind_eq rfl fun _ => bind_eq (label_eq (takeUntil_eq hstop))
      fun _ => ite_eq rfl rfl

end

end DeclGen.Grammar.Cutting
