/-!
# Syntax errors

A syntax error says where reading got stuck and what was being looked for, innermost first.
-/

namespace DeclGen.Grammar

/-- Reading got stuck at a byte offset while looking for some things, the innermost first. -/
structure SyntaxError where
  offset : Nat
  contexts : List String
deriving DecidableEq, Repr, Inhabited

namespace SyntaxError

def expected (e : SyntaxError) : String := e.contexts.headD "a declaration"

/-- The error inside one more thing that was being looked for. -/
def within (what : String) (e : SyntaxError) : SyntaxError :=
  { e with contexts := e.contexts ++ [what] }

/-- Of the errors of two alternatives the one further on; at one place the first, if it says what
was looked for. -/
def or (a b : SyntaxError) : SyntaxError :=
  if a.offset < b.offset || (a.offset == b.offset && a.contexts.isEmpty) then b else a

end SyntaxError

end DeclGen.Grammar
