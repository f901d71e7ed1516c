/-!
# Words

Values are computed as signed words of 128 bits, which hold every value of every integral type. An
operation whose result does not fit has none.
-/

namespace DeclGen.Constant

/-- The number of different words of a width: two to the power of it. -/
def wordCount (width : Nat) : Nat := 1 <<< width

def fits (v : Int) : Bool := -(wordCount 127 : Int) ≤ v && v < wordCount 127

def bitAnd (a b : Int) : Int := (BitVec.ofInt 128 a &&& BitVec.ofInt 128 b).toInt

def bitOr (a b : Int) : Int := (BitVec.ofInt 128 a ||| BitVec.ofInt 128 b).toInt

def bitXor (a b : Int) : Int := (BitVec.ofInt 128 a ^^^ BitVec.ofInt 128 b).toInt

end DeclGen.Constant
