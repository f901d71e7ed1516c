import DeclGen.Constant.Fold
import DeclGen.Text.Digit

/-!
# Ordinals

The value of every member of an enum, in order. A member with an initializer has the value that an
evaluator gives for it; another one counts on from the member before it, the first from zero.

## Main definitions

* `OrdinalError`: why a member has no value
* `Numbering`, `EnumDecl.numbering`: the values up to the first member without one
* `EnumDecl.ordinals`: the values of all members
* `Ordinal.distinct`: the members that are the first of their value
-/

namespace DeclGen

/-- Why a member has no value. -/
inductive OrdinalError where
  | evaluation (error : FoldError)
  | notAnInteger (text : String)
  | implicitOverflow
deriving DecidableEq, Repr, Inhabited

def OrdinalError.message : OrdinalError → String
  | evaluation error => error.message
  | notAnInteger text => "constant value '" ++ text ++ "' is not an integer"
  | implicitOverflow => "the implicit value after the previous member overflows"

/-- A member with its value. -/
structure Ordinal where
  member : EnumMember
  value : Int
deriving Inhabited

/-- A member without a value. -/
structure OrdinalFailure where
  member : EnumMember
  error : OrdinalError
deriving Inhabited

/-- The values of members in order, and the first member without a value, where they end. -/
structure Numbering where
  ordinals : List Ordinal
  failure : Option OrdinalFailure
deriving Inhabited

namespace Ordinal

/-- The number that a text stands for, blanks around it aside. -/
def ofText? (text : String) : Option Int :=
  (Text.readInt? (Text.trim text.toList)).filter Constant.fits

/-- The value of a member, where `previous` is that of the member before it. -/
def value? (evaluate : Expr → Except FoldError String) (previous : Option Int) (m : EnumMember) :
    Except OrdinalError Int :=
  match m.initializer, previous with
  | some e, _ =>
    match evaluate e with
    | .ok text =>
      match ofText? text with
      | some v => .ok v
      | none => .error (.notAnInteger text)
    | .error error => .error (.evaluation error)
  | none, some v => if Constant.fits (v + 1) then .ok (v + 1) else .error .implicitOverflow
  | none, none => .ok 0

/-- The members that are the first of their value, where the values in `seen` have occurred. -/
def distinctFrom (seen : List Int) : List Ordinal → List Ordinal
  | [] => []
  | o :: os =>
    if seen.contains o.value then distinctFrom seen os
    else o :: distinctFrom (o.value :: seen) os

/-- The members that are the first of their value. -/
def distinct (os : List Ordinal) : List Ordinal := distinctFrom [] os

end Ordinal

/-- The values of members, where `previous` is that of the member before them. -/
def Numbering.ofMembers (evaluate : Expr → Except FoldError String) (previous : Option Int) :
    List EnumMember → Numbering
  | [] => ⟨[], none⟩
  | m :: ms =>
    match Ordinal.value? evaluate previous m with
    | .error error => ⟨[], some ⟨m, error⟩⟩
    | .ok v =>
      let rest := ofMembers evaluate (some v) ms
      ⟨⟨m, v⟩ :: rest.ordinals, rest.failure⟩

namespace EnumDecl

def numbering (d : EnumDecl) (evaluator : Evaluator) : Numbering :=
  .ofMembers (evaluator d) none d.members

/-- The values of all members of an enum, or the first member without a value. -/
def ordinals (d : EnumDecl) (evaluator : Evaluator) : Except OrdinalFailure (List Ordinal) :=
  match (d.numbering evaluator).failure with
  | some failure => .error failure
  | none => .ok (d.numbering evaluator).ordinals

end EnumDecl

end DeclGen
