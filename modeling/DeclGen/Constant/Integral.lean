import DeclGen.Constant.Word
import DeclGen.Syntax.Expr
import DeclGen.Text.Blank

/-!
# Integral types

The integral types of constants: their ranges, the promotion of operands, the type of a literal and
the truncation of a value to a type.

## Main definitions

* `Integral`: the types, with `bits`, `isSigned`, `least` and `greatest`
* `Integral.promoted`, `Integral.common`: the types of operands and results
* `Integral.ofLiteral`: the type of an integer literal
* `Integral.wrap`: truncation in two's complement
-/

namespace DeclGen

open DeclGen.Constant

inductive Integral where
  | sbyte | byte | short | ushort | int | uint | long | ulong | char
deriving DecidableEq, Repr, Inhabited

namespace Integral

/-- The type with a built-in name or the name of its library type. -/
def ofName? : String → Option Integral
  | "sbyte" | "SByte" => some sbyte
  | "byte" | "Byte" => some byte
  | "short" | "Int16" => some short
  | "ushort" | "UInt16" => some ushort
  | "int" | "Int32" => some int
  | "uint" | "UInt32" => some uint
  | "long" | "Int64" => some long
  | "ulong" | "UInt64" => some ulong
  | "char" | "Char" => some char
  | _ => none

/-- The type that a type expression denotes by its simple name. -/
def ofType? : TypeExpr → Option Integral
  | .predefined name _ => ofName? name
  | .named qualifier segments span =>
    (TypeExpr.named qualifier segments span).simpleName?.bind ofName?
  | _ => none

def bits : Integral → Nat
  | sbyte | byte => 8
  | short | ushort | char => 16
  | int | uint => 32
  | long | ulong => 64

def isSigned : Integral → Bool
  | sbyte | short | int | long => true
  | _ => false

def least (t : Integral) : Int := if t.isSigned then -(wordCount (t.bits - 1) : Int) else 0

def greatest (t : Integral) : Int :=
  if t.isSigned then (wordCount (t.bits - 1) : Int) - 1 else (wordCount t.bits : Int) - 1

/-- The type an operand takes in arithmetic: a narrow one becomes `int`. -/
def promoted : Integral → Integral
  | sbyte | byte | short | ushort | char => int
  | t => t

def common (a b : Integral) : Integral :=
  match a.promoted, b.promoted with
  | ulong, _ | _, ulong => ulong
  | long, _ | _, long => long
  | uint, int | int, uint => long
  | uint, uint => uint
  | _, _ => int

/-- The number of different shifts of the type; a shift count is taken modulo it. -/
def shiftWidth (t : Integral) : Nat := if t.bits > 32 then 64 else 32

/-- The type of an integer literal: the first one that holds the value, of those that the suffix
allows. -/
def ofLiteral (text : String) (value : Int) : Integral :=
  let suffix := text.toList.reverse.takeWhile isIntegerSuffix
  let isUnsigned := suffix.any fun c => c == 'u' || c == 'U'
  let isLong := suffix.any fun c => c == 'l' || c == 'L'
  let candidates : List Integral :=
    match isUnsigned, isLong with
    | false, false => [int, uint, long, ulong]
    | true, false => [uint, ulong]
    | false, true => [long, ulong]
    | true, true => [ulong]
  (candidates.find? fun t => value ≤ t.greatest).getD ulong

/-- The value of the type that has the same lowest bits. -/
def wrap (t : Integral) (v : Int) : Int :=
  if t.isSigned then Int.bmod v (wordCount t.bits) else v % wordCount t.bits

end Integral

end DeclGen
