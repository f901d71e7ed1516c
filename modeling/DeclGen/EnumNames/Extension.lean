import DeclGen.Code
import DeclGen.EnumNames.Access
import DeclGen.EnumNames.CanonicalPath
import DeclGen.Settings.Basic

/-!
# The extension class

One class holds a method for each enum. A method is a switch with an arm for each value, which
gives the name of the member that has it, and throws for any other value.

## Main definitions

* `EnumExtension`: what is needed to write a method
* `EnumExtension.render`: the text of the class with all methods
-/

namespace DeclGen

/-- A method for an enum; no two members have the same value. -/
structure EnumExtension where
  visibility : Visibility
  path : CanonicalPath
  members : List String
deriving DecidableEq, Repr, Inhabited

namespace EnumExtension

def constant (x : EnumExtension) (member : String) : String := x.path.qualified ++ "." ++ member

def arm (x : EnumExtension) (member : String) : CodeStep :=
  .line (x.constant member ++ " => nameof(" ++ x.constant member ++ "),")

def signature (methodName : String) (x : EnumExtension) : String :=
  x.visibility.keyword ++ " static string " ++ methodName ++ x.path.genericSuffix ++ "(this "
    ++ x.path.qualified ++ " @enum)"

def method (methodName : String) (x : EnumExtension) : List CodeStep :=
  CodeStep.block (x.signature methodName) <|
    [.line "return @enum switch", .line "\x7b", .indent]
      ++ x.members.map x.arm
      ++ [.line "_ => throw new System.ArgumentOutOfRangeException(nameof(@enum), @enum, null)",
        .closeBlock ";"]

def methods (methodName : String) : List EnumExtension → List CodeStep
  | [] => []
  | [x] => x.method methodName
  | x :: y :: xs => x.method methodName ++ .blank :: methods methodName (y :: xs)

def steps (settings : EnumSettings) (xs : List EnumExtension) : List CodeStep :=
  .line generatedHeader ::
    CodeStep.block ("namespace " ++ settings.namespaceName)
      (CodeStep.block ("public static class " ++ settings.className)
        (methods settings.methodName xs))

def render (settings : EnumSettings) (xs : List EnumExtension) : String :=
  CodeStep.render (steps settings xs)

end EnumExtension

end DeclGen
