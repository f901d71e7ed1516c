import DeclGen.Text.Split

/-!
# Trees of files

A directory holds files and directories under different names. Where only their names matter, the
contents of the files are of type `Unit`.

## Main definitions

* `FileTree`: a file or directory
* `FileTree.sources`: the source files below a directory, in the order in which they are read
* `FileTree.lookup?`, `FileTree.put`: the file or directory at a path
-/

namespace DeclGen.CommandLine

/-- A file with its content, or a directory with what is in it. -/
inductive FileTree (α : Type) where
  | file (content : α)
  | directory (entries : List (String × FileTree α))
deriving Inhabited

/-- Whether a file in a directory is a source: a `.cs` file that was not generated. -/
def isSourceName (name : String) : Bool :=
  ".cs".toList.isSuffixOf name.toList && !".g.cs".toList.isSuffixOf name.toList

def joinPath (path name : String) : String :=
  if path.toList.getLast? == some '/' then path ++ name else path ++ "/" ++ name

namespace FileTree

variable {α : Type}

mutual

/-- The paths of the source files below something at a path, those of each directory sorted by
name. -/
def sources (path : String) : FileTree α → List String
  | file _ => []
  | directory entries =>
    ((sourcesByName path entries).mergeSort fun a b => !decide (b.1 < a.1)).flatMap (·.2)

/-- The name of each entry of the directory at a path, with the source files that it is or
contains. -/
def sourcesByName (path : String) : List (String × FileTree α) → List (String × List String)
  | [] => []
  | (name, file _) :: es =>
    (name, if isSourceName name then [joinPath path name] else []) :: sourcesByName path es
  | (name, directory entries) :: es =>
    (name, (directory entries).sources (joinPath path name)) :: sourcesByName path es

end

mutual

def shape : FileTree α → FileTree Unit
  | file _ => file ()
  | directory entries => directory (shapes entries)

def shapes : List (String × FileTree α) → List (String × FileTree Unit)
  | [] => []
  | (name, t) :: es => (name, t.shape) :: shapes es

end

def isDirectory : FileTree α → Bool
  | file _ => false
  | directory _ => true

def lookup? : (names : List String) → FileTree α → Option (FileTree α)
  | [], t => some t
  | name :: names, directory entries => (entries.lookup name).bind (lookup? names)
  | _ :: _, file _ => none

/-- The tree with something at a path of names; directories on the way are created. -/
def put (t : FileTree α) (names : List String) (new : FileTree α) : FileTree α :=
  match names, t with
  | [], _ => new
  | name :: names, directory entries =>
    match entries.lookup name with
    | some t' =>
      directory (entries.map fun e => if e.1 == name then (name, put t' names new) else e)
    | none => directory (entries ++ [(name, put (directory []) names new)])
  | _ :: _, file content => file content

end FileTree

end DeclGen.CommandLine
