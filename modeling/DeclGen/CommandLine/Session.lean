import DeclGen.CommandLine.Arguments
import DeclGen.CommandLine.FileStore
import DeclGen.Diagnostic.Layout
import DeclGen.Generator
import DeclGen.Settings.Document

/-!
# Sessions

A session carries out a command: it loads the settings, finds and reads the sources, runs the
generators, reports, and writes or prints the units. It ends early where a file cannot be accessed
or the settings are rejected.

## Main definitions

* `Failure`: why a session ends early
* `Report`: what the generators have found, and how it is shown
* `Session.run`: a session, with what it prints and its exit code
-/

namespace DeclGen.CommandLine

/-- Why a session ends early. -/
inductive Failure where
  | settingsFile (path : String) (fault : FileFault)
  | settings (error : SettingsError)
  | missingInput (path : String)
  | source (path : String) (fault : FileFault)
  | directory (path : String) (fault : FileFault)
  | unit (path : String) (fault : FileFault)
deriving DecidableEq, Repr, Inhabited

def Failure.message : Failure → String
  | settingsFile path fault => "failed to read " ++ path ++ ": " ++ fault.message
  | settings .unreadable => "invalid configuration:"
  | settings (.invalid fault) => fault.message
  | missingInput path => "File not found: " ++ path
  | source path fault => "Failed to read " ++ path ++ ": " ++ fault.message
  | directory path fault => "Failed to create " ++ path ++ ": " ++ fault.message
  | unit path fault => "Failed to write " ++ path ++ ": " ++ fault.message

/-- What a session has printed. -/
structure Transcript where
  output : String := ""
  errors : String := ""
deriving DecidableEq, Repr, Inhabited

structure Outcome where
  exitCode : Nat
  transcript : Transcript
deriving DecidableEq, Repr, Inhabited

abbrev Session (m : Type → Type) : Type → Type := ExceptT Failure (StateT Transcript m)

/-- What the generators have found in the sources. -/
structure Report where
  sources : SourceSet
  publication : Publication
  /-- The diagnostics of reading and of the generators. -/
  diagnostics : List Diagnostic
deriving Inhabited

namespace Report

def ofFiles (settings : Settings) (files : List (String × String)) : Report :=
  let (sources, faults) := SourceSet.ofFiles files
  let publication := Generator.run (Generator.ofSettings settings) sources EnumDecl.constantText
  ⟨sources, publication, faults ++ publication.diagnostics⟩

def isClean (r : Report) : Bool := !Diagnostic.hasErrors r.diagnostics

def shown (r : Report) (inColor : Bool) : String :=
  Diagnostic.renderAll inColor r.diagnostics r.sources.registry

def unitsText (r : Report) : String :=
  String.join (r.publication.units.map fun u => "// " ++ u.hint ++ "\n" ++ u.text)

/-- The names of the units and the counts of files, errors and warnings. -/
def summary (r : Report) : String :=
  String.join (r.publication.units.map fun u => "would generate " ++ u.hint ++ "\n")
    ++ toString r.sources.registry.files.length ++ " file(s) parsed, "
    ++ toString (r.diagnostics.countP (·.isError)) ++ " error(s), "
    ++ toString (r.diagnostics.countP (·.isWarning)) ++ " warning(s)\n"

end Report

/-- The name of the file that settings are read from if none is given. -/
def defaultSettingsPath : String := "sourcegen.toml"

/-- The settings with only one generator enabled, if only one is asked for. -/
def restrict (only : Option Pipeline) (s : Settings) : Settings :=
  match only with
  | none => s
  | some .enumNames => { s with cleanup := { s.cleanup with isEnabled := false } }
  | some .cleanup => { s with enums := { s.enums with isEnabled := false } }

namespace Session

variable {m : Type → Type} [Monad m] [FileStore m]

def ofAccess {α : Type} (access : m α) : Session m α := ExceptT.lift (StateT.lift access)

def print (text : String) : Session m Unit :=
  modify fun t => { t with output := t.output ++ text }

def complain (text : String) : Session m Unit :=
  modify fun t => { t with errors := t.errors ++ text }

/-- Shows an event if it is important enough; without a limit nothing is shown. -/
def log (limit : Option LogLevel) (e : LogEvent) : Session m Unit :=
  if limit.any e.isShown then complain (e.line ++ "\n") else pure ()

def note (limit : Option LogLevel) (message : String) : Session m Unit :=
  log limit ⟨.info, "sourcegen", message⟩

def orFail {α : Type} (failure : FileFault → Failure) (access : m (Except FileFault α)) :
    Session m α := do
  match ← ofAccess access with
  | .ok a => return a
  | .error fault => throw (failure fault)

def readText (failure : FileFault → Failure) (path : String) : Session m String := do
  let content ← orFail failure (FileStore.read path)
  match String.fromUTF8? content with
  | some text => return text
  | none => throw (failure .notText)

def tree? (path : String) : Session m (Option (FileTree Unit)) :=
  ofAccess (FileStore.tree? path)

def settingsIn (limit : Option LogLevel) (path : String) : Session m Settings := do
  let text ← readText (.settingsFile path) path
  log limit ⟨.debug, "generator::config", "loading configuration from " ++ path⟩
  match Settings.parse text with
  | .ok s => return s
  | .error e => throw (.settings e)

/-- The settings of a run: those in the given file, else in the default one, else the defaults. -/
def loadSettings (limit : Option LogLevel) (command : Command) : Session m Settings := do
  match command.config with
  | some path => return restrict command.only (← settingsIn limit path)
  | none =>
    match ← tree? defaultSettingsPath with
    | some (.file _) => return restrict command.only (← settingsIn limit defaultSettingsPath)
    | _ => return restrict command.only {}

/-- The source files that inputs stand for. A file stands for itself, whatever its name. -/
def collect : (inputs : List String) → Session m (List String)
  | [] => return []
  | path :: paths => do
    match ← tree? path with
    | none => throw (.missingInput path)
    | some (.file _) => return path :: (← collect paths)
    | some (.directory entries) =>
      return (FileTree.directory entries).sources path ++ (← collect paths)

def readAll : (paths : List String) → Session m (List (String × String))
  | [] => return []
  | path :: paths => do
    let text ← readText (.source path) path
    return (path, text) :: (← readAll paths)

def generate (limit : Option LogLevel) (inColor : Bool) (command : Command) : Session m Report := do
  let settings ← loadSettings limit command
  let paths ← collect command.inputs
  note limit (toString paths.length ++ " source file(s)")
  let files ← readAll paths
  note limit ("running " ++ ", ".intercalate ((Generator.ofSettings settings).map (·.name)))
  let report := Report.ofFiles settings files
  report.publication.events.forM (log limit)
  complain (report.shown inColor)
  return report

def writeAll (limit : Option LogLevel) (directory : String) : List PublishedUnit → Session m Unit
  | [] => pure ()
  | u :: us => do
    let path := joinPath directory u.hint
    orFail (.unit path) (FileStore.write path u.text)
    note limit ("wrote " ++ path)
    writeAll limit directory us

def deliver (limit : Option LogLevel) (r : Report) : Action → Session m Unit
  | .check => print r.summary
  | .print => print r.unitsText
  | .write directory =>
    if r.publication.units.isEmpty then print "Nothing to generate\n"
    else do
      orFail (.directory directory) (FileStore.createDirectories directory)
      writeAll limit directory r.publication.units
      print ("Generated " ++ toString r.publication.units.length ++ " file(s) in " ++ directory
        ++ "\n")

/-- Carries out a command. Gives whether there was no error in the sources. -/
def perform (command : Command) (inColor : Bool) : Session m Bool := do
  let limit := LogLevel.ofVerbosity? command.verbosity
  let report ← generate limit (inColor && !command.noColor) command
  deliver limit report command.action
  return report.isClean

def run (command : Command) (inColor : Bool) : m Outcome := do
  match ← StateT.run (ExceptT.run (perform command inColor)) {} with
  | (.ok isClean, t) => return ⟨if isClean then 0 else 1, t⟩
  | (.error failure, t) =>
    return ⟨1, { t with errors := t.errors ++ "Error: " ++ failure.message ++ "\n" }⟩

end Session

def versionLine : String := "sourcegen 0.1.0\n"

def usage : String :=
  "Usage: sourcegen [-v]... [--no-color] <generate|check> [OPTIONS] <INPUTS>...\n"

def respond {m : Type → Type} [Monad m] [FileStore m] (arguments : List String) (inColor : Bool) :
    m Outcome :=
  match Request.ofArguments arguments with
  | .run command => Session.run command inColor
  | .version => pure ⟨0, { output := versionLine }⟩
  | .help => pure ⟨0, { output := usage }⟩
  | .invalid => pure ⟨2, { errors := usage }⟩

end DeclGen.CommandLine
