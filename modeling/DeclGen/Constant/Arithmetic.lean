import DeclGen.Constant.Failure
import DeclGen.Constant.Integral
import DeclGen.Constant.Word

/-!
# Typed arithmetic

A constant is a value with its integral type. Operations compute on words and give the result the
type that promotion asks for; complement and shifts also truncate it to that type.
-/

namespace DeclGen

structure Constant where
  value : Int
  type : Integral
deriving DecidableEq, Repr, Inhabited

namespace Constant

def checked (v : Int) : Except FoldError Int := if fits v then .ok v else .error .overflow

def applyUnary (op : UnaryOperator) (c : Constant) : Except FoldError Constant :=
  let type := c.type.promoted
  match op with
  | .plus => .ok ⟨c.value, type⟩
  | .minus => return ⟨← checked (-c.value), if type = .uint then .long else type⟩
  | .complement => .ok ⟨type.wrap (-c.value - 1), type⟩

/-- A shift of a value of a type by a number of bits. -/
def shiftBy (op : BinaryOperator) (type : Integral) (v : Int) (count : Nat) : Int :=
  match op with
  | .shiftLeft => type.wrap (v * wordCount count)
  | .unsignedShiftRight => type.wrap (v % wordCount type.bits / wordCount count)
  | _ => v / wordCount count

/-- The result of a shift. It has the promoted type of the left operand, and the count has to
be an `int`. -/
def shift (op : BinaryOperator) (left right : Constant) : Except FoldError Constant :=
  if right.type.promoted = .int then
    let type := left.type.promoted
    let count := (right.value % type.shiftWidth).toNat
    .ok ⟨shiftBy op type (type.wrap left.value) count, type⟩
  else .error (.invalidShift right.value)

/-- The result of a division by a number that is not zero. -/
def quotient (op : Int → Int → Int) (l r : Int) : Except FoldError Int :=
  if r = 0 then .error .divisionByZero
  else if fits (Int.tdiv l r) then .ok (op l r)
  else .error .overflow

def applyBinary (op : BinaryOperator) (left right : Constant) : Except FoldError Constant :=
  let typed (v : Except FoldError Int) : Except FoldError Constant :=
    v.map (⟨·, left.type.common right.type⟩)
  let (l, r) := (left.value, right.value)
  match op with
  | .shiftLeft | .shiftRight | .unsignedShiftRight => shift op left right
  | .multiply => typed (checked (l * r))
  | .divide => typed (quotient Int.tdiv l r)
  | .remainder => typed (quotient Int.tmod l r)
  | .add => typed (checked (l + r))
  | .subtract => typed (checked (l - r))
  | .bitAnd => typed (.ok (bitAnd l r))
  | .bitXor => typed (.ok (bitXor l r))
  | .bitOr => typed (.ok (bitOr l r))

end Constant

end DeclGen
