import DeclGen.Grammar.TypeExpr
import DeclGen.Text.Digit

/-!
# Reading constant expressions

Integer and character literals, names, unary and binary operators, casts, parentheses and
`checked`. Binary operators associate to the left and climb by precedence. An initializer outside
this grammar is kept as its text.

## Main definitions

* `integerLiteral`, `characterLiteral`: literals
* `constantExpr`: a constant expression
* `initializerExpr`: the initializer of an enum member
-/

namespace DeclGen.Grammar

open DeclGen.Grammar.Parser DeclGen.Text

/-- One or more characters that satisfy `p`, behind one of two marks. -/
def digitsAfter (lower upper : String) (p : Char → Bool) : Parser Unit := do
  orElse (literal lower) (literal upper)
  match ((← ahead).takeWhile p).length with
  | 0 => fail
  | n + 1 =>
    let _ ← take (n + 1)

def decimalDigits : Parser Unit := do
  match ← ahead with
  | c :: s =>
    if c.isDigit then
      let _ ← take ((s.takeWhile fun c => c.isDigit || c == '_').length + 1)
    else fail
  | [] => fail

/-- The digits of an integer literal in one of the three bases, and its suffix. -/
def integerToken : Parser Unit := do
  orElse (digitsAfter "0x" "0X" fun c => isHexDigit c || c == '_')
    (orElse (digitsAfter "0b" "0B" fun c => c == '0' || c == '1' || c == '_') decimalDigits)
  let _ ← take ((← ahead).takeWhile isIntegerSuffix).length

/-- An integer literal as written. No letter, digit, `_` or dot may follow it. -/
def integerLiteral : Parser String := do
  let start ← place
  let ((), text) ← withText integerToken
  match ← ahead with
  | c :: _ =>
    if isAlphanumeric c || c == '_' || c == '.' then fun _ => .error ⟨start.offset, []⟩
    else return String.ofList text
  | [] => return String.ofList text

/-- The character that an escape sequence behind its backslash stands for, and the length of the
sequence. -/
def escapeSequence : List Char → Option (Char × Nat)
  | [] => none
  | c :: s =>
    let hex (least most : Nat) : Option (Char × Nat) :=
      let digits := (s.take most).takeWhile isHexDigit
      if digits.length < least then none
      else (charOfCode? (ofDigits 16 digits)).map (·, digits.length + 1)
    match c with
    | '\'' => some ('\'', 1)
    | '"' => some ('"', 1)
    | '\\' => some ('\\', 1)
    | '0' => some ('\x00', 1)
    | 'a' => some ('\x07', 1)
    | 'b' => some ('\x08', 1)
    | 'f' => some ('\x0c', 1)
    | 'n' => some ('\n', 1)
    | 'r' => some ('\r', 1)
    | 't' => some ('\t', 1)
    | 'v' => some ('\x0b', 1)
    | 'x' => hex 1 4
    | 'u' => hex 4 4
    | 'U' => hex 8 8
    | _ => none

/-- The character between the quotes of a character literal, with the number of characters it is
written with. -/
def characterBody : List Char → Option (Char × Nat)
  | [] => none
  | c :: s =>
    if c == '\\' then (escapeSequence s).map fun (value, n) => (value, n + 1)
    else if c == '\'' || c == '\n' then none
    else some (c, 1)

def characterLiteral : Parser Char := do
  match ← ahead with
  | '\'' :: s =>
    match characterBody s with
    | some (value, n) =>
      if (s.drop n).head? == some '\'' then
        let _ ← take (n + 2)
        return value
      else fail
    | none => fail
  | _ => fail

/-- The binary operator at the start of a text, with the number of its characters. Logical
operators and compound assignments are none. -/
def binaryOperator? (s : List Char) : Option (BinaryOperator × Nat) :=
  let found : Option (BinaryOperator × Nat) :=
    match s with
    | '>' :: '>' :: '>' :: _ => some (.unsignedShiftRight, 3)
    | '<' :: '<' :: _ => some (.shiftLeft, 2)
    | '>' :: '>' :: _ => some (.shiftRight, 2)
    | '&' :: '&' :: _ => none
    | '|' :: '|' :: _ => none
    | '*' :: _ => some (.multiply, 1)
    | '/' :: _ => some (.divide, 1)
    | '%' :: _ => some (.remainder, 1)
    | '+' :: _ => some (.add, 1)
    | '-' :: _ => some (.subtract, 1)
    | '&' :: _ => some (.bitAnd, 1)
    | '^' :: _ => some (.bitXor, 1)
    | '|' :: _ => some (.bitOr, 1)
    | _ => none
  found.filter fun (_, n) => (s.drop n).head? != some '='

/-- The unary operator at the start of a text. `++` and `--` are none. -/
def unaryOperator? : List Char → Option UnaryOperator
  | '+' :: '+' :: _ => none
  | '+' :: _ => some .plus
  | '-' :: '-' :: _ => none
  | '-' :: _ => some .minus
  | '~' :: _ => some .complement
  | _ => none

def inParentheses (expr : Parser Expr) : Parser Expr := do
  symbol "("
  let inner ← expr
  label "')'" (symbol ")")
  return inner

/-- The first segment of a name: an identifier or a built-in type word. -/
def nameHead : Parser Identifier := do
  match ← attempt identifier with
  | some name => return name
  | none =>
    let start ← offset
    match ← attempt word with
    | some found =>
      if isPredefinedType found then return ⟨found, ← spanFrom start⟩
      else failAt start "constant expression"
    | none => failAt start "constant expression"

def namePart? : Parser (Option Identifier) := do
  if ← accept "." then return some (← label "member name" identifier) else return none

/-- A name. The alias before `::` is no segment of it. -/
def nameExpr : Parser Expr := do
  let start ← offset
  let first ← nameHead
  let isAliased ← accept "::"
  let head ← if isAliased then label "a name" identifier else pure first
  let others ← many namePart?
  return .name (head :: others) (← spanFrom start)

def primaryExpr (expr : Parser Expr) : Parser Expr := do
  let start ← offset
  match ← ahead with
  | '\'' :: _ => return .character (← label "character literal" characterLiteral) (← spanFrom start)
  | c :: _ =>
    if c.isDigit then
      return .integer (← label "integer literal" integerLiteral) (← spanFrom start)
    else
      match ← lookahead word with
      | some "checked" =>
        let _ ← word
        return .overflowContext true (← inParentheses expr) (← spanFrom start)
      | some "unchecked" =>
        let _ ← word
        return .overflowContext false (← inParentheses expr) (← spanFrom start)
      | _ => nameExpr
  | [] => nameExpr

/-- Whether an operand of a cast to `type` starts the text. Behind a type that is not built in, a
sign belongs to a binary operation instead. -/
def castOperandFollows (type : TypeExpr) : List Char → Bool
  | [] => false
  | c :: _ =>
    isAlphanumeric c || c == '_' || c == '@' || c == '(' || c == '\'' || c == '~'
      || ((c == '+' || c == '-') && type.isPredefined)

/-- The type of a cast in its parentheses, if an operand follows. -/
def castType : Parser TypeExpr := do
  symbol "("
  let type ← typeExpr
  symbol ")"
  let operand ← lookahead (do trivia; ahead)
  if castOperandFollows type (operand.getD []) then return type else fail

/-- A cast, where `unary` reads its operand. -/
def castExpr (unary : Parser Expr) : Parser Expr := do
  let start ← offset
  let type ← castType
  return .cast type (← unary) (← spanFrom start)

/-- An expression without binary operators outside brackets, where `self` reads an operand. -/
def unaryExprOf (expr self : Parser Expr) : Parser Expr := do
  trivia
  let start ← offset
  let s ← ahead
  match unaryOperator? s with
  | some op =>
    let _ ← take 1
    return .unary op (← self) (← spanFrom start)
  | none =>
    if s.head? == some '(' then
      match ← attempt (castExpr self) with
      | some e => return e
      | none => return .parenthesized (← inParentheses expr) (← spanFrom start)
    else primaryExpr expr

def unaryExpr (expr : Parser Expr) : Parser Expr :=
  fix (fun self _ => unaryExprOf expr (self ())) ()

/-- A binary operator that binds at least as tightly as `least`, behind trivia. -/
def operatorFrom (least : Nat) : Parser BinaryOperator := do
  trivia
  match binaryOperator? (← ahead) with
  | some (op, n) =>
    if op.precedence < least then fail
    else
      let _ ← take n
      return op
  | none => fail

/-- The expression that an operator and a right operand make of a left one. -/
def Expr.combine (left : Expr) : BinaryOperator × Expr → Expr
  | (op, right) => .binary op left right ⟨left.span.start, right.span.stop⟩

/-- An operator that binds at least as tightly as `least` and its right operand. -/
def operation? (self : Nat → Parser Expr) (least : Nat) :
    Parser (Option (BinaryOperator × Expr)) := do
  match ← attempt (operatorFrom least) with
  | some op => return some (op, ← self (op.precedence + 1))
  | none => return none

/-- An expression whose operators outside brackets bind at least as tightly as `least`, where
`self` reads one for a given bound. -/
def binaryExprOf (self : Nat → Parser Expr) (least : Nat) : Parser Expr := do
  let first ← unaryExpr (self 0)
  let others ← many (operation? self least)
  return others.foldl Expr.combine first

/-- An expression whose operators outside brackets bind at least as tightly as `least`. -/
def binaryExpr (least : Nat) : Parser Expr := fix binaryExprOf least

def constantExpr : Parser Expr := binaryExpr 0

/-- A constant expression that `,` or a closing brace follows. -/
def closedExpr : Parser Expr := do
  let e ← constantExpr
  match ← lookahead (do trivia; ahead) with
  | some (',' :: _) | some ('}' :: _) => return e
  | _ => fail

/-- The initializer of an enum member, up to the next `,` or closing brace. One outside the
grammar of constant expressions is kept as text. -/
def initializerExpr : Parser Expr := do
  match ← attempt closedExpr with
  | some e => return e
  | none =>
    trivia
    let start ← offset
    let text := trimEnd (← label "enum member value" (takeUntil fun c => c == ',' || c == '}'))
    if text.isEmpty then failAt start "enum member value"
    else return .unsupported (String.ofList text) ⟨start, start + size text⟩

end DeclGen.Grammar
