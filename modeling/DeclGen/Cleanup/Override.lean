import DeclGen.Cleanup.Holder
import DeclGen.Code

/-!
# The override of a holder

Another part of the class overrides the hook: it releases every handle in order and then calls the
hook of the base class. The unit is named after the class.

## Main definitions

* `Holder.hint`: the name of the unit
* `Holder.render`: its text
-/

namespace DeclGen

/-- The name of a type with the number of its type parameters, if it has any. -/
def TypeHead.metadataName (h : TypeHead) : String :=
  match h.typeParameters with
  | some ps => h.identifier.name ++ "\x60" ++ toString ps.parameters.length
  | none => h.identifier.name

namespace Holder

/-- The name of the unit: namespace, types around the class and class. -/
def hint (h : Holder) : String :=
  ".".intercalate (h.namespaceName?.toList ++ h.containers.map (·.metadataName)
    ++ [h.site.head.metadataName]) ++ ".AutoDispose.g.cs"

def partHeader (container : TypeHead) : String :=
  "partial " ++ container.kind.keyword ++ " " ++ container.displayName

/-- The head of another part of the class, with the accessibility modifiers that it has. -/
def classHeader (head : TypeHead) : String :=
  " ".intercalate ((Modifier.access head.modifiers).map (·.kind.text)
    ++ ["partial class " ++ head.displayName])

def override (settings : CleanupSettings) (h : Holder) : List CodeStep :=
  CodeStep.block ("protected override void " ++ settings.hook ++ "()") <|
    h.handles.map (fun i => .line (i.text ++ "." ++ settings.releaseMethod ++ "();"))
      ++ [.line ("base." ++ settings.hook ++ "();")]

/-- The heads of the blocks around the override, the outermost first. -/
def headers (h : Holder) : List String :=
  (h.namespaceName?.toList.map ("namespace " ++ ·)) ++ h.containers.map partHeader
    ++ [classHeader h.site.head]

def steps (settings : CleanupSettings) (h : Holder) : List CodeStep :=
  .line generatedHeader :: h.headers.foldr CodeStep.block (h.override settings)

def render (settings : CleanupSettings) (h : Holder) : String := CodeStep.render (h.steps settings)

end Holder

end DeclGen
