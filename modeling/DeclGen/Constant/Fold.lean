import DeclGen.Constant.Arithmetic
import DeclGen.Constant.Literal
import DeclGen.Syntax.Member

/-!
# Folding enum initializers

A name in an initializer is a member of the same enum, or the least or greatest value of an
integral type. The value of a member is that of its initializer; a member without one counts on
from the nearest member before it that has one, or from zero. Values of members are truncated to
the underlying type of the enum.

Every member's value is computed once and remembered. A member whose initializer is being computed
may not be asked for again.

## Main definitions

* `Fold.resolve`: what a name in an initializer means
* `Fold.evaluate`: the value of an expression, given those of the members
* `Fold.memberValue`: the value of a member
* `EnumDecl.constant`, `EnumDecl.constantText`: the value of an initializer
-/

namespace DeclGen

def EnumDecl.underlying (d : EnumDecl) : Integral := (d.base.bind Integral.ofType?).getD .int

/-- Computes the text of the value of an initializer of an enum. -/
abbrev Evaluator : Type := EnumDecl → Expr → Except FoldError String

namespace Fold

abbrev Memo : Type := List (Nat × Int)

abbrev FoldM : Type → Type := StateT Memo (Except FoldError)

/-- What a name in an initializer means. -/
inductive Meaning where
  /-- The least or greatest value of an integral type. -/
  | bound (value : Constant)
  /-- The member at an index. -/
  | member (index : Nat)
  /-- Nothing that is known. -/
  | unknown
deriving DecidableEq, Repr

/-- The least or greatest value of an integral type, if the last two names ask for it. -/
def bound? : (reversedNames : List String) → Option Constant
  | member :: type :: _ =>
    (Integral.ofName? type).bind fun t =>
      if member = "MaxValue" then some ⟨t.greatest, t⟩
      else if member = "MinValue" then some ⟨t.least, t⟩
      else none
  | _ => none

def memberIndex? (d : EnumDecl) (name : String) : Option Nat :=
  d.members.findIdx? (·.identifier.name == name)

/-- The index of the member that a name means: a name alone, or one behind the name of the
enum. -/
def siblingIndex? (d : EnumDecl) : (reversedNames : List String) → Option Nat
  | [] => none
  | [name] => memberIndex? d name
  | name :: qualifier :: _ => if qualifier = d.identifier.name then memberIndex? d name else none

def resolve (d : EnumDecl) (segments : List Identifier) : Meaning :=
  let names := (segments.map (·.name)).reverse
  match bound? names with
  | some c => .bound c
  | none =>
    match siblingIndex? d names with
    | some i => .member i
    | none => .unknown

/-- The value of an expression, where `member` gives the values of the members. -/
def evaluate (d : EnumDecl) (member : Nat → FoldM Int) : Expr → FoldM Constant
  | .integer text _ => do
    let value ← (Constant.literalValue text : Except FoldError Int)
    return ⟨value, Integral.ofLiteral text value⟩
  | .character c _ => return ⟨c.toNat, .char⟩
  | .name segments _ =>
    match resolve d segments with
    | .bound c => return c
    | .member i => return ⟨← member i, d.underlying⟩
    | .unknown => throw (.unknownName (".".intercalate (segments.map (·.name))))
  | .unary op operand _ => do
    let c ← evaluate d member operand
    (Constant.applyUnary op c : Except FoldError Constant)
  | .binary op left right _ => do
    let l ← evaluate d member left
    let r ← evaluate d member right
    (Constant.applyBinary op l r : Except FoldError Constant)
  | .parenthesized inner _ => evaluate d member inner
  | .cast type operand _ => do
    let c ← evaluate d member operand
    match Integral.ofType? type with
    | some target => return ⟨target.wrap c.value, target⟩
    | none => return ⟨c.value, d.underlying⟩
  | .overflowContext _ inner _ => evaluate d member inner
  | .unsupported text _ => throw (.notConstant text)

/-- The nearest member at or before an index that has an initializer, and the initializer. -/
def anchor? (members : List EnumMember) : Nat → Option (Nat × Expr)
  | 0 => (members[0]?.bind (·.initializer)).map (0, ·)
  | i + 1 =>
    match members[i + 1]?.bind (·.initializer) with
    | some e => some (i + 1, e)
    | none => anchor? members i

def memberName (d : EnumDecl) (i : Nat) : String := (d.members[i]?.map (·.identifier.name)).getD ""

def remember (i : Nat) (v : Int) : FoldM Int := do
  modify ((i, v) :: ·)
  return v

/-- The value of the member at an index. The initializers at `idle` indices are not being
computed. -/
def memberValue (d : EnumDecl) (idle : List Nat) (i : Nat) : FoldM Int := do
  match (← get).lookup i with
  | some v => return v
  | none =>
    match anchor? d.members i with
    | none => remember i (d.underlying.wrap i)
    | some (a, initializer) =>
      let base ← match (← get).lookup a with
        | some v => pure v
        | none =>
          if a ∈ idle then do
            let c ← evaluate d (memberValue d (idle.erase a)) initializer
            remember a (d.underlying.wrap c.value)
          else throw (.circular (memberName d a))
      let v ← (Constant.checked (base + (i - a : Nat)) : Except FoldError Int)
      remember i (d.underlying.wrap v)
termination_by idle.length
decreasing_by
  rename_i h
  rw [List.length_erase_of_mem h]
  have := List.length_pos_of_mem h
  omega

def evaluateIn (d : EnumDecl) (e : Expr) : Except FoldError Constant :=
  (evaluate d (memberValue d (List.range d.members.length)) e).run' []

end Fold

namespace EnumDecl

/-- The value of an initializer of the enum, truncated to the underlying type. -/
def constant (d : EnumDecl) (initializer : Expr) : Except FoldError Int :=
  (Fold.evaluateIn d initializer).map fun c => d.underlying.wrap c.value

def constantText : Evaluator := fun d initializer =>
  (d.constant initializer).map fun v => toString v

end EnumDecl

end DeclGen
