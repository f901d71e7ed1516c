import DeclGen.Text.Digit
import DeclGen.Text.Split

/-!
# TOML numbers and dates

Which words are numbers, dates and times. A word is a stretch of letters, digits and signs.

## Main definitions

* `isNumber`: integers of 64 bits and floats
* `isDateTime`: dates, times and both together
* `wordLength`: how far a word extends
-/

namespace DeclGen.Toml

open Text

def isScalarChar (c : Char) : Bool :=
  c.isAlphanum || c == '_' || c == '+' || c == '-' || c == '.' || c == ':'

/-- Whether there are only digits, with single underscores between them. -/
def isDigits (p : Char → Bool) (s : List Char) : Bool :=
  (splitAt '_' s).all fun part => !part.isEmpty && part.all p

def digitsValue (base : Nat) (s : List Char) : Nat := ofDigits base (s.filter (· != '_'))

def unsigned : List Char → List Char
  | '+' :: s => s
  | '-' :: s => s
  | s => s

/-- Whether the text is a decimal number without sign. No zero stands before other digits. -/
def isDecimal (s : List Char) : Bool :=
  isDigits Char.isDigit s && (s.length == 1 || s.head? != some '0')

/-- The first number that takes more than 63 bits. -/
def integerLimit : Nat := 0x8000000000000000

/-- Whether the text is an integer that takes at most 64 bits with its sign. -/
def isInteger : List Char → Bool
  | '0' :: 'x' :: s => isDigits isHexDigit s && digitsValue 16 s < integerLimit
  | '0' :: 'o' :: s => isDigits (fun c => '0' ≤ c && c ≤ '7') s && digitsValue 8 s < integerLimit
  | '0' :: 'b' :: s => isDigits (fun c => c == '0' || c == '1') s && digitsValue 2 s < integerLimit
  | '-' :: s => isDecimal s && digitsValue 10 s ≤ integerLimit
  | s => isDecimal (unsigned s) && digitsValue 10 (unsigned s) < integerLimit

/-- The first number beyond all floats: half a step above the greatest one. -/
def floatLimit : Nat := (1 <<< 1024) - (1 <<< 970)

/-- Whether `m` times the power of ten of `e` is beyond all floats. Where the number of digits
decides, nothing is multiplied. -/
def isBeyondFloats (m : Nat) (e : Int) : Bool :=
  let digits : Int := (toString m).length
  if m == 0 || digits + e < 300 then false
  else if 310 < digits + e then true
  else floatLimit * Nat.pow 10 (-e).toNat ≤ m * Nat.pow 10 e.toNat

def cutAt (p : Char → Bool) (s : List Char) : List Char × Option (List Char) :=
  match s.dropWhile (!p ·) with
  | [] => (s, none)
  | _ :: rest => (s.takeWhile (!p ·), some rest)

/-- Whether the text is a float with a fraction, an exponent or both. Only on the positive side can
it be too large. -/
def isDecimalFloat (s : List Char) : Bool :=
  let (mantissa, exponent) := cutAt (fun c => c == 'e' || c == 'E') s
  let (whole, fraction) := cutAt (· == '.') mantissa
  let exponentDigits := unsigned (exponent.getD [])
  let fractionDigits := (fraction.getD []).filter (· != '_')
  let power : Int := digitsValue 10 exponentDigits
  let scale := if (exponent.getD []).head? == some '-' then -power else power
  let m := digitsValue 10 (unsigned whole ++ fractionDigits)
  isDecimal (unsigned whole)
    && (fraction.isSome || exponent.isSome)
    && fraction.all (isDigits Char.isDigit)
    && exponent.all (fun _ => isDigits Char.isDigit exponentDigits)
    && (s.head? == some '-' || !isBeyondFloats m (scale - fractionDigits.length))

def isFloat (s : List Char) : Bool :=
  unsigned s == "inf".toList || unsigned s == "nan".toList || isDecimalFloat s

def isNumber (s : List Char) : Bool := isInteger s || isFloat s

/-- Whether the text is a number of the given count of digits between two bounds. -/
def isNumberIn (count least greatest : Nat) (s : List Char) : Bool :=
  s.length == count && s.all Char.isDigit && least ≤ ofDigits 10 s && ofDigits 10 s ≤ greatest

def daysOf (year month : Nat) : Nat :=
  if month == 2 then
    if year % 4 == 0 && (year % 100 != 0 || year % 400 == 0) then 29 else 28
  else if month == 4 || month == 6 || month == 9 || month == 11 then 30
  else 31

def isDate (s : List Char) : Bool :=
  match splitAt '-' s with
  | [year, month, day] =>
    isNumberIn 4 0 9999 year && isNumberIn 2 1 12 month
      && isNumberIn 2 1 (daysOf (ofDigits 10 year) (ofDigits 10 month)) day
  | _ => false

/-- Whether the text is a time of day, perhaps with a fraction of a second. -/
def isTime (s : List Char) : Bool :=
  let (clock, fraction) := cutAt (· == '.') s
  match splitAt ':' clock with
  | [hour, minute, second] =>
    isNumberIn 2 0 23 hour && isNumberIn 2 0 59 minute && isNumberIn 2 0 60 second
      && fraction.all fun digits => !digits.isEmpty && digits.all Char.isDigit
  | _ => false

/-- Whether the text is a distance from universal time, without its sign. -/
def isDistance (s : List Char) : Bool :=
  match splitAt ':' s with
  | [hour, minute] => isNumberIn 2 0 23 hour && isNumberIn 2 0 59 minute
  | _ => false

/-- Whether the text is a time of day, perhaps with a time zone. -/
def isZonedTime (s : List Char) : Bool :=
  match cutAt (fun c => c == 'Z' || c == 'z' || c == '+' || c == '-') s with
  | (time, none) => isTime time
  | (time, some zone) =>
    isTime time
      && if (s.drop time.length).head? == some 'Z' || (s.drop time.length).head? == some 'z' then
        zone.isEmpty
      else isDistance zone

/-- Whether the text is a date, a time, or a date with a time behind `T` or a blank. -/
def isDateTime (s : List Char) : Bool :=
  match cutAt (fun c => c == 'T' || c == 't' || c == ' ') s with
  | (s, none) => isDate s || isTime s
  | (date, some time) => isDate date && isZonedTime time

/-- The number of characters of the word at the start of a text. A blank between a date and a time
belongs to it. -/
def wordLength (s : List Char) : Nat :=
  let word := s.takeWhile isScalarChar
  match s.drop word.length with
  | ' ' :: c :: rest =>
    if isDate word && c.isDigit then
      word.length + 1 + ((c :: rest).takeWhile isScalarChar).length
    else word.length
  | _ => word.length

end DeclGen.Toml
