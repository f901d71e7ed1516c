import DeclGen.Grammar.Token
import DeclGen.Text.Digit
import DeclGen.Toml.Scalar
import DeclGen.Toml.Value

/-!
# Reading TOML

A document is a list of statements, one a line: headers and key-value pairs, with blanks, comments
and empty lines between them. Arrays may extend over several lines.

## Main definitions

* `stringLiteral`, `keyPath`, `value`: the parts of statements
* `Statement`, `statements`: the statements of a document
-/

namespace DeclGen.Toml

open DeclGen.Grammar DeclGen.Grammar.Parser DeclGen.Text

/-! ### Blanks, comments and line ends -/

/-- Whether a character may stand in a string or a comment as it is. -/
def isPlain (c : Char) : Bool := c == '\t' || (0x20 ≤ c.toNat && c.toNat != 0x7F)

def blanks : Parser Unit := do
  let _ ← take ((← ahead).takeWhile fun c => c == ' ' || c == '\t').length

/-- The number of characters of the line end at the start of a text, zero if there is none. -/
def lineEndLength : List Char → Nat
  | '\n' :: _ => 1
  | '\r' :: '\n' :: _ => 2
  | _ => 0

def lineEnd : Parser Unit := do
  match lineEndLength (← ahead) with
  | 0 => fail
  | n + 1 =>
    let _ ← take (n + 1)

def lineEndOrEnd : Parser Unit := do
  match ← ahead with
  | [] => return ()
  | _ :: _ => lineEnd

def comment : Parser Unit := do
  if ← nextIs '#' then
    let _ ← take ((← ahead).takeWhile isPlain).length

def restOfLine : Parser Unit := do
  blanks
  comment
  lineEndOrEnd

def blankLines : Parser Unit := do
  let _ ← many do
    blanks
    if ← nextIs '#' then
      comment
      lineEnd
      return some ()
    else attempt lineEnd

/-! ### Strings -/

/-- The character that an escape sequence behind its backslash stands for, and the length of the
sequence. -/
def escapeSequence : List Char → Option (Char × Nat)
  | [] => none
  | c :: s =>
    let hex (count : Nat) : Option (Char × Nat) :=
      let digits := (s.take count).takeWhile isHexDigit
      if digits.length < count then none
      else (charOfCode? (ofDigits 16 digits)).map (·, count + 1)
    match c with
    | 'b' => some ('\x08', 1)
    | 't' => some ('\t', 1)
    | 'n' => some ('\n', 1)
    | 'f' => some ('\x0c', 1)
    | 'r' => some ('\r', 1)
    | '"' => some ('"', 1)
    | '\\' => some ('\\', 1)
    | 'u' => hex 4
    | 'U' => hex 8
    | _ => none

def escaped : Parser Char := do
  match escapeSequence ((← ahead).drop 1) with
  | some (c, n) =>
    let _ ← take (n + 1)
    return c
  | none => fail

/-- A character of a string in one line; none where the closing quote is next. -/
def stringChar (quote : Char) : Parser (Option Char) := do
  match ← ahead with
  | [] => fail
  | c :: _ =>
    if c == quote then return none
    else if c == '\\' && quote == '"' then return some (← escaped)
    else if isPlain c then
      let _ ← take 1
      return some c
    else fail

def lineString (quote : Char) : Parser (List Char) := do
  let _ ← take 1
  let s ← many (stringChar quote)
  let _ ← take 1
  return s

/-- Whether a backslash comes next with only blanks between it and the end of its line. -/
def isLineContinuation (s : List Char) : Bool :=
  lineEndLength ((s.drop 1).dropWhile fun c => c == ' ' || c == '\t') != 0

/-- The number of blanks and line ends at the start of a text. -/
def skippedLength (s : List Char) : Nat :=
  match s with
  | ' ' :: r | '\t' :: r | '\n' :: r => skippedLength r + 1
  | '\r' :: '\n' :: r => skippedLength r + 2
  | _ => 0

/-- A piece of a string over several lines; none where three quotes are next. -/
def blockPiece (quote : Char) : Parser (Option (List Char)) := do
  let s ← ahead
  match s with
  | [] => fail
  | c :: _ =>
    if c == quote then
      let n := (s.takeWhile (· == quote)).length
      if n < 3 then return some (← take n) else return none
    else if c == '\\' && quote == '"' then
      if isLineContinuation s then
        let _ ← take (skippedLength (s.drop 1) + 1)
        return some []
      else return some [← escaped]
    else if isPlain c then return some (← take 1)
    else
      lineEnd
      return some ['\n']

/-- A string over several lines. A line end right behind the opening quotes does not count, and up
to two quotes may stand before the closing ones. -/
def blockString (quote : Char) : Parser (List Char) := do
  let _ ← take 3
  let _ ← attempt lineEnd
  let pieces ← many (blockPiece quote)
  let n := min 5 ((← ahead).takeWhile (· == quote)).length
  let _ ← take n
  return pieces.flatten ++ List.replicate (n - 3) quote

def stringLiteral (quote : Char) : Parser String := do
  if ← startsWith (String.ofList [quote, quote, quote]) then
    return String.ofList (← blockString quote)
  else return String.ofList (← lineString quote)

/-! ### Keys -/

def isKeyChar (c : Char) : Bool := c.isAlphanum || c == '_' || c == '-'

def simpleKey : Parser String := do
  match ← ahead with
  | '"' :: _ => return String.ofList (← lineString '"')
  | '\'' :: _ => return String.ofList (← lineString '\'')
  | s =>
    match (s.takeWhile isKeyChar).length with
    | 0 => fail
    | n + 1 => return String.ofList (← take (n + 1))

def nestingLimit : Nat := 80

/-- A dotted key: all but its last part, and that part. -/
def keyPath : Parser (List String × String) := do
  let parts ← sepBy (do blanks; let part ← simpleKey; blanks; return part) (acceptHere ".")
  if parts.length < nestingLimit then
    match parts.getLast? with
    | some last => return (parts.dropLast, last)
    | none => fail
  else fail

/-! ### Values -/

def scalar : Parser Value := do
  match ← ahead with
  | '"' :: _ => return .string (← stringLiteral '"')
  | '\'' :: _ => return .string (← stringLiteral '\'')
  | s =>
    let word ← take (wordLength s)
    if word == "true".toList then return .boolean true
    else if word == "false".toList then return .boolean false
    else if isNumber word then return .number (String.ofList word)
    else if isDateTime word then return .dateTime (String.ofList word)
    else fail

/-- The items of an array and the bracket that closes it. A comma may follow the last item. -/
def arrayItems (item : Parser Value) : Parser (List Value) :=
  rounds do
    blankLines
    if ← acceptHere "]" then return .stop
    else
      let v ← item
      blankLines
      if ← acceptHere "," then return .more v
      else
        literal "]"
        return .last v

/-- A key and a value with `=` between them. -/
def keyValue (item : Parser Value) : Parser ((List String × String) × Value) := do
  let key ← keyPath
  literal "="
  blanks
  return (key, ← item)

/-- The entries of a table in braces behind its first brace. -/
def inlineEntries (item : Parser Value) : Parser (List ((List String × String) × Value)) := do
  blanks
  if ← acceptHere "\x7d" then return []
  else
    let entries ← sepBy (do let e ← keyValue item; blanks; return e) (acceptHere ",")
    literal "\x7d"
    return entries

def tableOf (entries : List ((List String × String) × Value)) : Option Table :=
  entries.foldlM (fun t ((path, key), v) => insertAt t path key v) []

/-- A value with at most `room` brackets and braces one in the other. -/
def valueWithin : (room : Nat) → Parser Value
  | 0 => scalar
  | room + 1 => do
    if ← acceptHere "[" then return .array (← arrayItems (valueWithin room))
    else if ← acceptHere "\x7b" then
      match tableOf (← inlineEntries (valueWithin room)) with
      | some t => return .table .inline t
      | none => fail
    else scalar

def value : Parser Value := valueWithin (nestingLimit - 1)

/-! ### Statements -/

inductive Statement where
  /-- A header in brackets. -/
  | header (path : List String) (key : String)
  /-- A header in double brackets. -/
  | nextHeader (path : List String) (key : String)
  | entry (path : List String) (key : String) (value : Value)

def statement : Parser Statement := do
  if ← acceptHere "[[" then
    let (path, key) ← keyPath
    literal "]]"
    restOfLine
    return .nextHeader path key
  else if ← acceptHere "[" then
    let (path, key) ← keyPath
    literal "]"
    restOfLine
    return .header path key
  else
    let ((path, key), v) ← keyValue value
    restOfLine
    return .entry path key v

def betweenStatements : Parser Unit := do
  let _ ← many do
    blanks
    match ← ahead with
    | [] => return none
    | '#' :: _ =>
      comment
      lineEndOrEnd
      return some ()
    | _ :: _ => attempt lineEnd

/-- The statements of a document. A byte order mark may stand before them. -/
def statements : Parser (List Statement) := do
  let _ ← acceptHere "\uFEFF"
  many do
    betweenStatements
    match ← ahead with
    | [] => return none
    | _ :: _ => return some (← statement)

end DeclGen.Toml
