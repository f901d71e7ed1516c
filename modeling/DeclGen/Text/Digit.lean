/-!
# Digits and numbers in texts

## Main definitions

* `digitValue?`: the value of a digit in a base
* `readNat?`, `readInt?`: decimal numbers
-/

namespace DeclGen.Text

def isHexDigit (c : Char) : Bool :=
  c.isDigit || ('a' ≤ c && c ≤ 'f') || ('A' ≤ c && c ≤ 'F')

def hexValue (c : Char) : Nat :=
  if c.isDigit then c.toNat - '0'.toNat
  else if c.toNat < 'a'.toNat then c.toNat - 'A'.toNat + 10
  else c.toNat - 'a'.toNat + 10

/-- The value of a digit in a base of at most sixteen. -/
def digitValue? (base : Nat) (c : Char) : Option Nat :=
  if isHexDigit c && hexValue c < base then some (hexValue c) else none

def ofDigits (base : Nat) (s : List Char) : Nat := s.foldl (fun n c => base * n + hexValue c) 0

def charOfCode? (n : Nat) : Option Char := if n.isValidChar then some (Char.ofNat n) else none

def readNat? (s : List Char) : Option Nat :=
  if !s.isEmpty && s.all Char.isDigit then some (ofDigits 10 s) else none

/-- The number that decimal digits behind an optional sign stand for. -/
def readInt? : List Char → Option Int
  | '-' :: s => (readNat? s).map fun n => -n
  | '+' :: s => (readNat? s).map fun n => n
  | s => (readNat? s).map fun n => n

end DeclGen.Text
