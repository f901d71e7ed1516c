import DeclGen.CommandLine.Session

/-!
# The program

Runs a session on the files of the system.
-/

namespace DeclGen.CommandLine

def FileFault.ofError : IO.Error → FileFault
  | .noFileOrDirectory .. => .notFound
  | .alreadyExists .. => .alreadyExists
  | .inappropriateType _ code _ => if code == 21 then .isADirectory else .notADirectory
  | error => .other (toString error)

def tryAccess {α : Type} (action : IO α) : IO (Except FileFault α) := do
  try
    return .ok (← action)
  catch error => return .error (.ofError error)

/-- The trees of the entries of a directory. Only files and directories count. -/
partial def treesOf : List IO.FS.DirEntry → IO (List (String × FileTree Unit))
  | [] => return []
  | entry :: entries => do
    let others ← treesOf entries
    match (← entry.path.symlinkMetadata).type with
    | .dir =>
      let inside ← treesOf (← entry.path.readDir).toList
      return (entry.fileName, .directory inside) :: others
    | .file => return (entry.fileName, .file ()) :: others
    | _ => return others

def treeAt (path : String) : IO (Option (FileTree Unit)) := do
  try
    let place ← IO.FS.realPath path
    match (← place.metadata).type with
    | .dir => return some (.directory (← treesOf (← place.readDir).toList))
    | .file => return some (.file ())
    | _ => return none
  catch _ => return none

instance : FileStore IO where
  tree? := treeAt
  read path := tryAccess (IO.FS.readBinFile path)
  createDirectories path := tryAccess (IO.FS.createDirAll path)
  write path text := tryAccess (IO.FS.writeFile path text)

end DeclGen.CommandLine

def main (arguments : List String) : IO UInt32 := do
  let errors ← IO.getStderr
  let outcome ← DeclGen.CommandLine.respond arguments (← errors.isTty)
  errors.putStr outcome.transcript.errors
  (← IO.getStdout).putStr outcome.transcript.output
  return outcome.exitCode.toUInt32
