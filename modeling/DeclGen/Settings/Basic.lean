import DeclGen.Grammar.Keyword
import DeclGen.Text.Split
import DeclGen.Text.Word

/-!
# Settings

What can be chosen about the generated code: the names in it, the types it is generated for, and
which generators take part. Names that would make the code invalid are rejected.

## Main definitions

* `EnumSettings`, `CleanupSettings`, `Settings`
* `isName`, `isDottedName`: the names that are accepted
* `Settings.fault?`: the first thing wrong with the settings
-/

namespace DeclGen

/-- What happens where two enums have one path; the first is kept in any case. -/
inductive DuplicatePolicy where
  | warn | silent
deriving DecidableEq, Repr, Inhabited

/-- How enum names are generated. -/
structure EnumSettings where
  isEnabled : Bool := true
  /-- The namespace of the generated class. -/
  namespaceName : String := "SourceGenerated"
  className : String := "EnumExtensions"
  methodName : String := "ToFastString"
  duplicatePaths : DuplicatePolicy := .warn
deriving DecidableEq, Repr, Inhabited

/-- How cleanup overrides are generated. -/
structure CleanupSettings where
  isEnabled : Bool := true
  /-- The base class that marks a holder. -/
  baseType : String := "SystemBase"
  /-- The simple names of the types whose values are released. -/
  handleTypes : List String := ["NativeArray", "NativeList"]
  /-- The method that is overridden. -/
  hook : String := "OnDestroy"
  /-- The method that releases a handle. -/
  releaseMethod : String := "Dispose"
deriving DecidableEq, Repr, Inhabited

structure Settings where
  enums : EnumSettings := {}
  cleanup : CleanupSettings := {}
deriving DecidableEq, Repr, Inhabited

/-- Something wrong with a setting. -/
inductive SettingsFault where
  | notAName (key value : String)
  | notADottedName (key value : String)
  | noHandleTypes
deriving DecidableEq, Repr, Inhabited

def SettingsFault.message : SettingsFault → String
  | notAName key value => "'" ++ key ++ "' must be a C# identifier, got '" ++ value ++ "'"
  | notADottedName key value => "'" ++ key ++ "' must be a dotted C# name, got '" ++ value ++ "'"
  | noHandleTypes => "'auto-dispose.handle-types' must name at least one type"

namespace Settings

/-- Whether a text is a word that is not reserved. -/
def isName (s : List Char) : Bool :=
  match s with
  | [] => false
  | c :: cs =>
    Text.isWordStart c && cs.all Text.isWordPart && !Grammar.isKeyword (String.ofList s)

/-- Whether a text is one or more names with dots between them. -/
def isDottedName (s : List Char) : Bool := (Text.splitAt '.' s).all isName

/-- The fault of a setting that has to be a name. -/
def nameFault? (key value : String) : Option SettingsFault :=
  if isName value.toList then none else some (.notAName key value)

/-- The fault of the namespace, which has to be a dotted name. -/
def namespaceFault? (e : EnumSettings) : Option SettingsFault :=
  if isDottedName e.namespaceName.toList then none
  else some (.notADottedName "enum-strings.namespace" e.namespaceName)

/-- The fault of the handle types: there has to be one, and each has to be a name. -/
def handlesFault? (c : CleanupSettings) : Option SettingsFault :=
  if c.handleTypes.isEmpty then some .noHandleTypes
  else c.handleTypes.findSome? (nameFault? "auto-dispose.handle-types")

def fault? (s : Settings) : Option SettingsFault :=
  namespaceFault? s.enums
    <|> nameFault? "enum-strings.class-name" s.enums.className
    <|> nameFault? "enum-strings.method-name" s.enums.methodName
    <|> nameFault? "auto-dispose.base-type" s.cleanup.baseType
    <|> nameFault? "auto-dispose.cleanup-hook" s.cleanup.hook
    <|> nameFault? "auto-dispose.release-method" s.cleanup.releaseMethod
    <|> handlesFault? s.cleanup

/-- The default settings are in order. -/
example : fault? {} = none := by decide +kernel

end Settings

end DeclGen
