import DeclGen.Syntax.TypeExpr

/-!
# Constant expressions

The integer expressions that may give an enum member its value. Anything outside their grammar is
kept as its text.

## Main definitions

* `Expr`: an expression with the span of each part
* `BinaryOperator.precedence`: how tightly an operator binds
* `Expr.text`: the expression written out
-/

namespace DeclGen

inductive UnaryOperator where
  | plus | minus | complement
deriving DecidableEq, Repr, Inhabited

def UnaryOperator.symbol : UnaryOperator → String
  | plus => "+"
  | minus => "-"
  | complement => "~"

inductive BinaryOperator where
  | multiply | divide | remainder | add | subtract
  | shiftLeft | shiftRight | unsignedShiftRight
  | bitAnd | bitXor | bitOr
deriving DecidableEq, Repr, Inhabited

namespace BinaryOperator

def symbol : BinaryOperator → String
  | multiply => "*"
  | divide => "/"
  | remainder => "%"
  | add => "+"
  | subtract => "-"
  | shiftLeft => "<<"
  | shiftRight => ">>"
  | unsignedShiftRight => ">>>"
  | bitAnd => "&"
  | bitXor => "^"
  | bitOr => "|"

/-- How tightly the operator binds; more is tighter. -/
def precedence : BinaryOperator → Nat
  | multiply | divide | remainder => 6
  | add | subtract => 5
  | shiftLeft | shiftRight | unsignedShiftRight => 4
  | bitAnd => 3
  | bitXor => 2
  | bitOr => 1

end BinaryOperator

/-- Whether the character belongs to the suffix of an integer literal. -/
def isIntegerSuffix (c : Char) : Bool := c == 'u' || c == 'U' || c == 'l' || c == 'L'

inductive Expr where
  | integer (text : String) (span : Span)
  | character (value : Char) (span : Span)
  | name (segments : List Identifier) (span : Span)
  | unary (operator : UnaryOperator) (operand : Expr) (span : Span)
  | binary (operator : BinaryOperator) (left right : Expr) (span : Span)
  | parenthesized (inner : Expr) (span : Span)
  | cast (type : TypeExpr) (operand : Expr) (span : Span)
  | overflowContext (isChecked : Bool) (inner : Expr) (span : Span)
  | unsupported (text : String) (span : Span)
deriving Inhabited

namespace Expr

def span : Expr → Span
  | integer _ s | character _ s | name _ s | unary _ _ s | binary _ _ _ s | parenthesized _ s
  | cast _ _ s | overflowContext _ _ s | unsupported _ s => s

def hexDigits (n : Nat) : String := String.ofList (Nat.toDigits 16 n)

/-- A character as written inside quotes: printable ASCII as it is, the rest escaped. -/
def escapeChar (c : Char) : String :=
  if c == '\t' then "\\t"
  else if c == '\r' then "\\r"
  else if c == '\n' then "\\n"
  else if c == '\'' then "\\'"
  else if c == '"' then "\\\""
  else if c == '\\' then "\\\\"
  else if 0x20 ≤ c.toNat && c.toNat ≤ 0x7E then String.singleton c
  else "\\u\x7b" ++ hexDigits c.toNat ++ "\x7d"

/-- The expression written out, with blanks around binary operators only. -/
def text : Expr → String
  | integer t _ => t
  | character c _ => "'" ++ escapeChar c ++ "'"
  | name segments _ => ".".intercalate (segments.map (·.text))
  | unary op operand _ => op.symbol ++ operand.text
  | binary op left right _ => left.text ++ " " ++ op.symbol ++ " " ++ right.text
  | parenthesized inner _ => "(" ++ inner.text ++ ")"
  | cast type operand _ => "(" ++ type.text ++ ")" ++ operand.text
  | overflowContext isChecked inner _ =>
    (if isChecked then "checked" else "unchecked") ++ "(" ++ inner.text ++ ")"
  | unsupported t _ => t

end Expr

end DeclGen
