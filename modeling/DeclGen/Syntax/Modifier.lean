import DeclGen.Syntax.Span

/-!
# Modifiers

The words that may stand before a declaration, and those among them that set its accessibility.
-/

namespace DeclGen

/-- A word that modifies a declaration. -/
inductive ModifierKind where
  | publicMod | internalMod | protectedMod | privateMod | fileMod
  | staticMod | partialMod | abstractMod | sealedMod | virtualMod | overrideMod | readonlyMod
  | constMod | newMod | unsafeMod | externMod | volatileMod | asyncMod | requiredMod | refMod
  | fixedMod
deriving DecidableEq, Repr, Inhabited

namespace ModifierKind

def text : ModifierKind → String
  | publicMod => "public"
  | internalMod => "internal"
  | protectedMod => "protected"
  | privateMod => "private"
  | fileMod => "file"
  | staticMod => "static"
  | partialMod => "partial"
  | abstractMod => "abstract"
  | sealedMod => "sealed"
  | virtualMod => "virtual"
  | overrideMod => "override"
  | readonlyMod => "readonly"
  | constMod => "const"
  | newMod => "new"
  | unsafeMod => "unsafe"
  | externMod => "extern"
  | volatileMod => "volatile"
  | asyncMod => "async"
  | requiredMod => "required"
  | refMod => "ref"
  | fixedMod => "fixed"

def all : List ModifierKind :=
  [publicMod, internalMod, protectedMod, privateMod, fileMod, staticMod, partialMod, abstractMod,
    sealedMod, virtualMod, overrideMod, readonlyMod, constMod, newMod, unsafeMod, externMod,
    volatileMod, asyncMod, requiredMod, refMod, fixedMod]

def ofText? (word : String) : Option ModifierKind := all.find? (·.text == word)

/-- Whether the modifier sets accessibility; `file` does, it confines a type to its file. -/
def isAccess : ModifierKind → Bool
  | publicMod | internalMod | protectedMod | privateMod | fileMod => true
  | _ => false

/-- Whether the modifier is an ordinary identifier unless another word follows it. -/
def isContextual : ModifierKind → Bool
  | partialMod | fileMod | requiredMod | asyncMod => true
  | _ => false

theorem mem_all (k : ModifierKind) : k ∈ all := by cases k <;> decide

theorem text_ofText? {word : String} {k : ModifierKind} (h : ofText? word = some k) :
    k.text = word := by
  simpa using List.find?_some h

@[simp] theorem ofText?_text (k : ModifierKind) : ofText? k.text = some k := by
  cases k <;> decide

end ModifierKind

/-- A modifier where it is written. -/
structure Modifier where
  kind : ModifierKind
  span : Span
deriving DecidableEq, Repr, Inhabited

namespace Modifier

def has (ms : List Modifier) (k : ModifierKind) : Bool := ms.any (·.kind == k)

def access (ms : List Modifier) : List Modifier := ms.filter (·.kind.isAccess)

end Modifier

end DeclGen
