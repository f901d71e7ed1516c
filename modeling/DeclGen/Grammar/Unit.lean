import DeclGen.Grammar.Member

/-!
# Reading files

A file is extern alias directives, using directives and declarations, and nothing else.

## Main definitions

* `compilationUnit`: reads a file
* `CompilationUnit.parse`: the tree of a text, or where and why it has none
-/

namespace DeclGen

namespace Grammar

open DeclGen.Grammar.Parser

def externAliasOpening : Parser Unit := do
  keyword "extern"
  keyword "alias"

def externAlias? : Parser (Option Unit) := do
  match ← attempt externAliasOpening with
  | none => return none
  | some () =>
    trivia
    let _ ← word
    label "';' after extern alias" (symbol ";")
    return some ()

def externAliases : Parser Unit := do
  let _ ← many externAlias?

def compilationUnit : Parser CompilationUnit := do
  let start ← offset
  externAliases
  let usings ← usingDirectives
  let members ← membersIn none
  label "a declaration" endOfText
  return ⟨usings, members, ← spanFrom start⟩

end Grammar

/-- The tree of a text, or the error that stops it from being read. -/
def CompilationUnit.parse (text : String) : Except Grammar.SyntaxError CompilationUnit :=
  (Grammar.compilationUnit (.ofString text)).map (·.1)

theorem CompilationUnit.exists_of_parse {text : String} {u : CompilationUnit}
    (h : parse text = .ok u) : ∃ c, Grammar.compilationUnit (.ofString text) = .ok (u, c) := by
  rw [parse] at h
  cases hread : Grammar.compilationUnit (.ofString text) with
  | error e =>
    rw [hread] at h
    cases h
  | ok r =>
    rw [hread] at h
    cases h
    exact ⟨r.2, rfl⟩

end DeclGen
