/-!
# Why an initializer has no value
-/

namespace DeclGen

/-- Why an expression has no constant value. -/
inductive FoldError where
  | notConstant (text : String)
  | unknownName (name : String)
  | circular (name : String)
  | overflow
  | divisionByZero
  | invalidShift (count : Int)
  | invalidLiteral (text : String)
deriving DecidableEq, Repr, Inhabited

def FoldError.message : FoldError → String
  | notConstant text => "'" ++ text ++ "' is not a constant integer expression"
  | unknownName name => "unknown name '" ++ name ++ "'"
  | circular name => "the value of '" ++ name ++ "' depends on itself"
  | overflow => "arithmetic overflow"
  | divisionByZero => "division by zero"
  | invalidShift count => "shift count " ++ toString count ++ " is not an int"
  | invalidLiteral text => "invalid integer literal '" ++ text ++ "'"

end DeclGen
