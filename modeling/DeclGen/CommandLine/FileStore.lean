import DeclGen.CommandLine.FileTree

/-!
# Access to files

What a run can do with files, and the same on a tree of files in memory. A path is resolved part by
part; `.` and `..` stand for the directory reached so far and the one around it.

## Main definitions

* `FileFault`: why an access fails
* `FileStore`: the operations
* `FileTree.resolve`: what a path leads to
* an instance of `FileStore` for computations on a `FileTree`
-/

namespace DeclGen.CommandLine

/-- Why a file or directory cannot be accessed. -/
inductive FileFault where
  | notFound | alreadyExists | notADirectory | isADirectory
  /-- The content is no text in UTF-8. -/
  | notText
  | other (message : String)
deriving DecidableEq, Repr, Inhabited

def FileFault.message : FileFault → String
  | notFound => "No such file or directory (os error 2)"
  | alreadyExists => "File exists (os error 17)"
  | notADirectory => "Not a directory (os error 20)"
  | isADirectory => "Is a directory (os error 21)"
  | notText => "stream did not contain valid UTF-8"
  | other message => message

/-- Access to files. -/
class FileStore (m : Type → Type) where
  /-- What is at a path. -/
  tree? : String → m (Option (FileTree Unit))
  /-- The content of a file. -/
  read : String → m (Except FileFault ByteArray)
  /-- Creates a directory and those around it, unless they exist. -/
  createDirectories : String → m (Except FileFault Unit)
  /-- Creates or overwrites a file. -/
  write : (path text : String) → m (Except FileFault Unit)

def pathParts (path : String) : List String :=
  ((Text.splitAt '/' path.toList).filter (!·.isEmpty)).map String.ofList

/-- The parts of a path that leads to a directory if it ends with a slash. -/
def pathSteps (path : String) : List String :=
  pathParts path ++ if path.toList.getLast? == some '/' then ["."] else []

namespace FileTree

variable {α : Type}

/-- The names that lead to the same place as `steps` from the place at `here`. Nothing outside the
tree can be reached. -/
def resolve (root : FileTree α) (here : List String) :
    (steps : List String) → Except FileFault (List String)
  | [] => .ok here
  | step :: steps =>
    match root.lookup? here with
    | some (directory entries) =>
      if step = "." then resolve root here steps
      else if step = ".." then
        if here.isEmpty then .error .notFound else resolve root here.dropLast steps
      else if (entries.lookup step).isSome then resolve root (here ++ [step]) steps
      else .error .notFound
    | some (file _) => .error .notADirectory
    | none => .error .notFound

def find? (root : FileTree α) (path : String) : Option (FileTree α) :=
  if path.toList.head? == some '/' then none
  else
    match root.resolve [] (pathSteps path) with
    | .ok names => root.lookup? names
    | .error _ => none

def makeDirectory (root : FileTree α) (steps : List String) : Except FileFault (FileTree α) :=
  match root.resolve [] steps with
  | .ok _ => .error .alreadyExists
  | .error _ =>
    match root.resolve [] steps.dropLast, steps.getLast? with
    | .ok names, some name =>
      if name = "." || name = ".." then .error .notFound
      else if (root.lookup? names).any (·.isDirectory) then
        .ok (root.put (names ++ [name]) (directory []))
      else .error .notADirectory
    | .error fault, _ => .error fault
    | .ok _, none => .error .notFound

def isDirectoryAt (root : FileTree α) (steps : List String) : Bool :=
  match root.resolve [] steps with
  | .ok names => (root.lookup? names).any (·.isDirectory)
  | .error _ => false

/-- The steps to the directory around the one that `steps` lead to; `.` at their end leads
nowhere. -/
def around (steps : List String) : List String :=
  (steps.reverse.dropWhile (· == ".")).tail.reverse

theorem length_around_lt {steps : List String} (h : steps ≠ []) :
    (around steps).length < steps.length := by
  have hd := (List.dropWhile_suffix (l := steps.reverse) (· == ".")).length_le
  have := List.length_pos_iff.mpr h
  simp only [around, List.length_reverse, List.length_tail] at *
  omega

def makeDirectories (root : FileTree α) (steps : List String) : Except FileFault (FileTree α) :=
  if _ : steps = [] then .ok root
  else
    match root.makeDirectory steps with
    | .ok root' => .ok root'
    | .error .notFound =>
      match makeDirectories root (around steps) with
      | .error fault => .error fault
      | .ok root' =>
        match root'.makeDirectory steps with
        | .ok root'' => .ok root''
        | .error fault => if root'.isDirectoryAt steps then .ok root' else .error fault
    | .error fault => if root.isDirectoryAt steps then .ok root else .error fault
termination_by steps.length
decreasing_by exact length_around_lt (by assumption)

def read (root : FileTree α) (path : String) : Except FileFault α :=
  if path.toList.head? == some '/' then .error .notFound
  else
    match root.resolve [] (pathSteps path) with
    | .error fault => .error fault
    | .ok names =>
      match root.lookup? names with
      | some (file content) => .ok content
      | some (directory _) => .error .isADirectory
      | none => .error .notFound

/-- The tree with a file created or overwritten, in a directory that exists. -/
def write (root : FileTree α) (path : String) (content : α) : Except FileFault (FileTree α) :=
  let steps := pathParts path
  match root.resolve [] steps.dropLast, steps.getLast? with
  | .error fault, _ => .error fault
  | .ok _, none => .error .isADirectory
  | .ok names, some name =>
    match root.lookup? names, root.lookup? (names ++ [name]) with
    | _, some (directory _) => .error .isADirectory
    | some (directory _), _ => .ok (root.put (names ++ [name]) (file content))
    | _, _ => .error .notADirectory

end FileTree

/-- Keeps the tree that a change gives; if it fails, the tree stays as it is. -/
def changing {α : Type} (change : FileTree α → Except FileFault (FileTree α)) :
    StateM (FileTree α) (Except FileFault Unit) := do
  match change (← get) with
  | .ok tree =>
    set tree
    return .ok ()
  | .error fault => return .error fault

/-- Access to the files of a tree; its root is the current directory. -/
instance : FileStore (StateM (FileTree ByteArray)) where
  tree? path := return ((← get).find? path).map (·.shape)
  read path := return (← get).read path
  createDirectories path := changing (·.makeDirectories (pathParts path))
  write path text := changing (·.write path text.toUTF8)

end DeclGen.CommandLine
