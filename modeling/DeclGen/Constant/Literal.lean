import DeclGen.Constant.Failure
import DeclGen.Constant.Word
import DeclGen.Syntax.Expr
import DeclGen.Text.Blank
import DeclGen.Text.Digit

/-!
# The values of integer literals

Digits in base ten, sixteen behind `0x` or two behind `0b`, with `_` anywhere and a suffix that
does not count. A value takes at most 64 bits.
-/

namespace DeclGen.Constant

/-- The value of further digits behind a number read so far. The first digit that is none of the
base, or that makes the number too large, decides the error. -/
def accumulate (base : Nat) (invalid : FoldError) : Nat → List Char → Except FoldError Nat
  | n, [] => .ok n
  | n, c :: s =>
    match Text.digitValue? base c with
    | none => .error invalid
    | some d =>
      if n * base + d < wordCount 64 then accumulate base invalid (n * base + d) s
      else .error .overflow

/-- The value of one or more digits, which may have a `+` in front. -/
def digitsValue (base : Nat) (invalid : FoldError) : List Char → Except FoldError Nat
  | [] => .error invalid
  | ['+'] => .error invalid
  | '+' :: s => accumulate base invalid 0 s
  | s => accumulate base invalid 0 s

def literalValue (text : String) : Except FoldError Int :=
  let digits := (Text.dropTrailing isIntegerSuffix text.toList).filter (· != '_')
  let value := match digits with
    | '0' :: 'x' :: s | '0' :: 'X' :: s => digitsValue 16 (.invalidLiteral text) s
    | '0' :: 'b' :: s | '0' :: 'B' :: s => digitsValue 2 (.invalidLiteral text) s
    | s => digitsValue 10 (.invalidLiteral text) s
  value.map Int.ofNat

end DeclGen.Constant
