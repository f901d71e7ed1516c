import DeclGen.Grammar.SyntaxError
import DeclGen.Text.Size

/-!
# Parsers

A parser reads characters from a cursor and gives a value and the cursor behind them, or a syntax
error. It moves the cursor only by `take`, so what is left is always an end part of the text and
the offset always counts the bytes before it. Repetition and recursion go through `rounds` and
`fix`, which refuse to go on where nothing was read; this is why every parser ends.

## Main definitions

* `Cursor`: a place in a text
* `Parser`: the parsers, with `take`, `attempt`, `orElse` and `label`
* `rounds`, `many`, `sepBy`: repetition
* `fix`: recursion
-/

namespace DeclGen.Grammar

/-- A place in a text: the number of bytes before it and the characters after it. -/
structure Cursor where
  offset : Nat
  rest : List Char
deriving DecidableEq, Repr, Inhabited

namespace Cursor

def ofString (s : String) : Cursor := ⟨0, s.toList⟩

/-- The place `n` characters further on, or the end of the text. -/
def skip (n : Nat) (c : Cursor) : Cursor := ⟨c.offset + Text.size (c.rest.take n), c.rest.drop n⟩

@[simp] theorem skip_zero (c : Cursor) : c.skip 0 = c := by simp [skip]

@[simp] theorem skip_append (o : Nat) (s t : List Char) :
    skip s.length ⟨o, s ++ t⟩ = ⟨o + Text.size s, t⟩ := by
  simp [skip]

end Cursor

/-- A parser of values of type `α`. -/
def Parser (α : Type) : Type := Cursor → Except SyntaxError (α × Cursor)

/-- How a repetition goes on after one round. -/
inductive Round (α : Type) where
  /-- There is no further element. -/
  | stop
  /-- This element is the last one. -/
  | last (a : α)
  /-- Another round follows this element. -/
  | more (a : α)

namespace Parser

variable {α β ι : Type}

instance : Inhabited (Parser α) := ⟨fun c => .error ⟨c.offset, []⟩⟩

instance : Monad Parser where
  pure a := fun c => .ok (a, c)
  bind p f := fun c =>
    match p c with
    | .ok (a, c') => f a c'
    | .error e => .error e

theorem bind_apply (p : Parser α) (f : α → Parser β) (c : Cursor) :
    (p >>= f) c = match p c with
      | .ok (a, c') => f a c'
      | .error e => .error e := rfl

def place : Parser Cursor := fun c => .ok (c, c)

/-- The characters ahead, without reading them. -/
def ahead : Parser (List Char) := fun c => .ok (c.rest, c)

def offset : Parser Nat := fun c => .ok (c.offset, c)

def take (n : Nat) : Parser (List Char) := fun c => .ok (c.rest.take n, c.skip n)

def fail : Parser α := fun c => .error ⟨c.offset, []⟩

/-- Fails at an offset, saying what was looked for there. -/
def failAt (offset : Nat) (what : String) : Parser α := fun _ => .error ⟨offset, [what]⟩

def label (what : String) (p : Parser α) : Parser α := fun c =>
  match p c with
  | .ok r => .ok r
  | .error e => .error (e.within what)

/-- What `p` reads; if it fails, nothing is read. -/
def attempt (p : Parser α) : Parser (Option α) := fun c =>
  match p c with
  | .ok (a, c') => .ok (some a, c')
  | .error _ => .ok (none, c)

/-- What `p` would read; in any case nothing is read. -/
def lookahead (p : Parser α) : Parser (Option α) := fun c =>
  match p c with
  | .ok (a, _) => .ok (some a, c)
  | .error _ => .ok (none, c)

/-- What `p` reads, else what `q` reads from the same place. -/
def orElse (p q : Parser α) : Parser α := fun c =>
  match p c with
  | .ok r => .ok r
  | .error e =>
    match q c with
    | .ok r => .ok r
    | .error e' => .error (e.or e')

/-- What `p` reads, with the characters it read. -/
def withText (p : Parser α) : Parser (α × List Char) := fun c =>
  match p c with
  | .ok (a, c') => .ok ((a, c.rest.take (c.rest.length - c'.rest.length)), c')
  | .error e => .error e

/-- Repeats `p` until a round stops the repetition. A round after which another is to follow has
to read something. -/
def rounds (p : Parser (Round α)) : Parser (List α) := fun c =>
  match p c with
  | .error e => .error e
  | .ok (.stop, c') => .ok ([], c')
  | .ok (.last a, c') => .ok ([a], c')
  | .ok (.more a, c') =>
    if c'.rest.length < c.rest.length then
      match rounds p c' with
      | .ok (as, c'') => .ok (a :: as, c'')
      | .error e => .error e
    else .error ⟨c'.offset, []⟩
termination_by c => c.rest.length

/-- A round that is followed by another if `p` gives an element. -/
def manyRound (p : Parser (Option α)) : Parser (Round α) := do
  match ← p with
  | some a => return .more a
  | none => return .stop

def many (p : Parser (Option α)) : Parser (List α) := rounds (manyRound p)

/-- A round that is followed by another if `sep` reads a separator behind the element. -/
def sepByRound (p : Parser α) (sep : Parser Bool) : Parser (Round α) := do
  let a ← p
  if ← sep then return .more a else return .last a

/-- One or more elements, as long as `sep` reads a separator behind one. -/
def sepBy (p : Parser α) (sep : Parser Bool) : Parser (List α) := rounds (sepByRound p sep)

/-- The parser that `step` defines from itself. It may call itself only where something was
read. -/
def fix (step : (ι → Parser α) → ι → Parser α) (i : ι) : Parser α := fun c =>
  step (fun j c' =>
    if c'.rest.length < c.rest.length then fix step j c' else .error ⟨c'.offset, []⟩) i c
termination_by c => c.rest.length

end Parser

end DeclGen.Grammar
