import DeclGen.Settings.Basic
import DeclGen.Toml.Document

/-!
# Settings from a document

A document may hold the section `enum-strings` and the section `auto-dispose`; what it leaves out
keeps its default, and nothing else may be in it. A section is a table, or an array of its values
in a fixed order.

## Main definitions

* `Settings.ofTable?`: the settings in a table
* `Settings.parse`: the settings in a text, or why they are rejected
-/

namespace DeclGen

/-- Why a text gives no settings. -/
inductive SettingsError where
  /-- It is no document, or a key or the kind of a value is wrong. -/
  | unreadable
  | invalid (fault : SettingsFault)
deriving DecidableEq, Repr, Inhabited

/-- Whether a value is an array or a table without content. -/
def Toml.Value.isHollow : Toml.Value → Bool
  | .array [] | .table _ [] => true
  | _ => false

def DuplicatePolicy.ofText? : String → Option DuplicatePolicy
  | "warn" => some warn
  | "silent" => some silent
  | _ => none

/-- The policy that a value names: as a text, or as the only key of a table, without content. -/
def DuplicatePolicy.ofValue? : Toml.Value → Option DuplicatePolicy
  | .string s => ofText? s
  | .table _ [(key, content)] => if content.isHollow then ofText? key else none
  | _ => none

def Toml.Value.texts? : Toml.Value → Option (List String)
  | .array items => items.mapM fun
    | .string s => some s
    | _ => none
  | _ => none

/-- The entries of a section; the values of an array belong to the keys in order, and those beyond
the last key to none. -/
def Toml.Value.section? (keys : List String) : Toml.Value → Option Toml.Table
  | .table _ entries => some entries
  | .array items => some (keys.zip items)
  | _ => none

namespace EnumSettings

def keys : List String := ["enabled", "namespace", "class-name", "method-name", "duplicate-paths"]

def set (s : EnumSettings) : String × Toml.Value → Option EnumSettings
  | ("enabled", .boolean b) => some { s with isEnabled := b }
  | ("namespace", .string t) => some { s with namespaceName := t }
  | ("class-name", .string t) => some { s with className := t }
  | ("method-name", .string t) => some { s with methodName := t }
  | ("duplicate-paths", v) =>
    (DuplicatePolicy.ofValue? v).map fun p => { s with duplicatePaths := p }
  | _ => none

def ofValue? (v : Toml.Value) : Option EnumSettings :=
  (v.section? keys).bind fun entries => entries.foldlM set {}

end EnumSettings

namespace CleanupSettings

def keys : List String := ["enabled", "base-type", "handle-types", "cleanup-hook", "release-method"]

def set (s : CleanupSettings) : String × Toml.Value → Option CleanupSettings
  | ("enabled", .boolean b) => some { s with isEnabled := b }
  | ("base-type", .string t) => some { s with baseType := t }
  | ("handle-types", v) => v.texts?.map fun ts => { s with handleTypes := ts }
  | ("cleanup-hook", .string t) => some { s with hook := t }
  | ("release-method", .string t) => some { s with releaseMethod := t }
  | _ => none

def ofValue? (v : Toml.Value) : Option CleanupSettings :=
  (v.section? keys).bind fun entries => entries.foldlM set {}

end CleanupSettings

namespace Settings

def set (s : Settings) : String × Toml.Value → Option Settings
  | ("enum-strings", v) => (EnumSettings.ofValue? v).map fun e => { s with enums := e }
  | ("auto-dispose", v) => (CleanupSettings.ofValue? v).map fun c => { s with cleanup := c }
  | _ => none

def ofTable? (t : Toml.Table) : Option Settings := t.foldlM set {}

def parse (text : String) : Except SettingsError Settings :=
  match (Toml.parse? text).bind ofTable? with
  | none => .error .unreadable
  | some s =>
    match s.fault? with
    | some fault => .error (.invalid fault)
    | none => .ok s

end Settings

end DeclGen
