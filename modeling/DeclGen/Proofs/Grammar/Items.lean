import DeclGen.Proofs.Grammar.Regions

/-!
# What skipped regions are made of

A skipped region is a sequence of items: runs of characters without a meaning for the search,
comments, literals and groups in brackets. Holes of interpolated strings hold items again.

## Main definitions

* `Item`, `Piece`: items, and the pieces of interpolated strings
* `Item.text`, `itemsText`, `regionText`: how they, sequences and regions of them are written
* `Item.Avoids`: a top-level item in which no stop character shows
-/

namespace DeclGen.Grammar

inductive Brackets where
  | round
  | square
  | curly

def Brackets.opening : Brackets → Char
  | .round => '('
  | .square => '['
  | .curly => '{'

def Brackets.closing : Brackets → Char
  | .round => ')'
  | .square => ']'
  | .curly => '}'

/-- A piece of a string that is neither raw nor verbatim nor interpolated. -/
inductive StringPiece where
  | char (c : Char) (h : c ≠ '"' ∧ c ≠ '\\' ∧ c ≠ '\n')
  | escape (c : Char)

def StringPiece.text : StringPiece → List Char
  | .char c _ => [c]
  | .escape c => ['\\', c]

inductive CharacterText where
  | char (c : Char) (h : c ≠ '\'' ∧ c ≠ '\\' ∧ c ≠ '\n')
  | escape (c : Char) (digits : List Char) (h : ∀ d ∈ digits, d ≠ '\'' ∧ d ≠ '\n')

def CharacterText.text : CharacterText → List Char
  | .char c _ => [c]
  | .escape c digits _ => '\\' :: c :: digits

/-- The content of a raw string between `quotes` quotes: it neither starts nor ends with a quote and
has no run of as many quotes. -/
structure RawText (quotes : Nat) (x : List Char) : Prop where
  three_le : 3 ≤ quotes
  head : x.head? ≠ some '"'
  last : x.getLast? ≠ some '"'
  no_run : ¬ List.replicate quotes '"' <:+: x

def rawString (quotes : Nat) (x : List Char) : List Char :=
  List.replicate quotes '"' ++ (x ++ List.replicate quotes '"')

mutual

/-- An item of a skipped region. -/
inductive Item where
  | run (x : List Char) (h : ∀ c ∈ x, isPlain c = true)
  | string (pieces : List StringPiece)
  | interpolated (pieces : List Piece)
  | raw (quotes : Nat) (x : List Char) (h : RawText quotes x) (hx : x ≠ [])
  | character (x : CharacterText)
  | blockComment (x : List Char) (h : ¬ ['*', '/'] <:+: x)
  | lineComment (x : List Char) (h : '\n' ∉ x)
  | group (brackets : Brackets) (before behind : Nat) (items : List Item)

/-- A piece of an interpolated string. -/
inductive Piece where
  | char (c : Char) (h : c ≠ '"' ∧ c ≠ '\\' ∧ c ≠ '\n' ∧ c ≠ '{' ∧ c ≠ '}')
  | escape (c : Char)
  | openingBraces
  | closingBraces
  | hole (items : List Item)

end

mutual

/-- How an item is written; a group may have blanks behind its opening and before its closing
bracket. -/
def Item.text : Item → List Char
  | .run x _ => x
  | .string pieces => '"' :: (pieces.flatMap StringPiece.text ++ ['"'])
  | .interpolated pieces => '$' :: '"' :: (piecesText pieces ++ ['"'])
  | .raw quotes x _ _ => rawString quotes x
  | .character x => '\'' :: (x.text ++ ['\''])
  | .blockComment x _ => '/' :: '*' :: (x ++ ['*', '/'])
  | .lineComment x _ => '/' :: '/' :: (x ++ ['\n'])
  | .group brackets before behind items =>
    brackets.opening ::
      (List.replicate before ' ' ++ (itemsText items ++ List.replicate behind ' ') ++
        [brackets.closing])

def itemsText : List Item → List Char
  | [] => []
  | [i] => i.text
  | i :: j :: items => i.text ++ ' ' :: itemsText (j :: items)

/-- How a piece is written; a hole has a blank on either side of its items. -/
def Piece.text : Piece → List Char
  | .char c _ => [c]
  | .escape c => ['\\', c]
  | .openingBraces => ['{', '{']
  | .closingBraces => ['}', '}']
  | .hole items => '{' :: (' ' :: (itemsText items ++ [' ']) ++ ['}'])

def piecesText : List Piece → List Char
  | [] => []
  | p :: pieces => p.text ++ piecesText pieces

end

def regionText (b : Brackets) (items : List Item) : List Char :=
  b.opening :: ' ' :: (itemsText items ++ [' ', b.closing])

def Item.Avoids (stop : Char → Bool) : Item → Prop
  | .run x _ => ∀ c ∈ x, stop c = false
  | _ => True

end DeclGen.Grammar
