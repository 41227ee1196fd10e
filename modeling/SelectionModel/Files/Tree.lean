import SelectionModel.Entries
import SelectionModel.Files.Path

/-!
# File trees

Files and directories as a value. A path names an entry of a directory, or an
entry further down or further up; the entries of a directory are kept in the
order of their names.
-/

namespace SelectionModel

/-- A file with its bytes, or a directory with its named entries. -/
inductive FileTree where
  | file (bytes : List UInt8)
  | directory (entries : List (String × FileTree))
  deriving Inhabited

/-- Why a path does not name what is asked for. -/
inductive PathFault where
  | notFound
  | notADirectory
  | isADirectory
  | tooLong
  deriving DecidableEq, Repr

/-- A fault of a path as the system words it. -/
def PathFault.message : PathFault → String
  | .notFound => "No such file or directory (os error 2)"
  | .notADirectory => "Not a directory (os error 20)"
  | .isADirectory => "Is a directory (os error 21)"
  | .tooLong => "File name too long (os error 36)"

namespace FileTree

/-- The tree with an entry put at the end of some names; directories on the way
are made. None when a file is in the way. -/
def insertAt? (tree : FileTree) (entry : FileTree) : List String → Option FileTree
  | [] => some entry
  | name :: names =>
    match tree with
    | .file _ => none
    | .directory entries =>
      (insertAt? ((entries.lookup name).getD (.directory [])) entry names).map fun t =>
        .directory (Entries.insertSorted name t entries)

/-- The most bytes that a name may have. -/
def nameLimit : Nat := 255

/-- The most bytes that a path may have. -/
def pathLimit : Nat := 4095

/-- The entry of a directory that has a name. -/
def entry (entries : List (String × FileTree)) (name : String) : Except PathFault FileTree :=
  if nameLimit < name.utf8ByteSize then .error .tooLong
  else
    match entries.lookup name with
    | some tree => .ok tree
    | none => .error .notFound

/-- Walks a path down a tree. `above` holds the directories passed, innermost
first; there is nothing above the outermost one. -/
def walk (above : List FileTree) (tree : FileTree) : List String → Except PathFault FileTree
  | [] => .ok tree
  | step :: steps =>
    match tree with
    | .file _ => .error .notADirectory
    | .directory entries =>
      if step = "." then walk above tree steps
      else if step = ".." then
        match above with
        | parent :: above => walk above parent steps
        | [] => .error .notFound
      else
        match entry entries step with
        | .ok below => walk (tree :: above) below steps
        | .error fault => .error fault

/-- The entry that a relative path names. Only a directory has a path that ends
with a slash, and an absolute or empty path names nothing. -/
def find (root : FileTree) (path : String) : Except PathFault FileTree :=
  if pathLimit < path.utf8ByteSize then .error .tooLong
  else if path.isEmpty || path.startsWith "/" then .error .notFound
  else
    match walk [] root (Path.steps path) with
    | .ok (.file bytes) => if path.endsWith "/" then .error .notADirectory else .ok (.file bytes)
    | found => found

/-- The names on the way to a path, without steps that lead nowhere or back.
`passed` holds those before, innermost first. -/
def plainNames (passed : List String) : List String → List String
  | [] => passed.reverse
  | step :: steps =>
    if step = "." then plainNames passed steps
    else if step = ".." then plainNames passed.tail steps
    else plainNames (step :: passed) steps

/-- The tree with an entry put at a relative path; directories on the way are
made. None when a file is in the way. -/
def insert? (tree : FileTree) (path : String) (entry : FileTree) : Option FileTree :=
  tree.insertAt? entry (plainNames [] (Path.steps path))

/-- The tree with a directory made at a relative path, unless it is there. -/
def makeDirectory? (tree : FileTree) (path : String) : Option FileTree :=
  match tree.find path with
  | .ok (.directory _) => some tree
  | _ => tree.insert? path (.directory [])

/-- The tree with a file written at a relative path. Its directory has to exist,
and a path that has the form of a directory's names no file. Of the absolute
paths only that without steps is known to name something, a directory. -/
def write (root : FileTree) (path : String) (bytes : List UInt8) : Except PathFault FileTree :=
  let steps := Path.steps path
  if pathLimit < path.utf8ByteSize then .error .tooLong
  else if path.isEmpty then .error .notFound
  else if steps.isEmpty then .error .isADirectory
  else if path.startsWith "/" then .error .notFound
  else
    match walk [] root steps.dropLast with
    | .error fault => .error fault
    | .ok (.file _) => .error .notADirectory
    | .ok (.directory entries) =>
      let name := (steps.getLast?).getD "."
      if path.endsWith "/" || name = "." || name = ".." then .error .isADirectory
      else
        match entry entries name with
        | .error .tooLong => .error .tooLong
        | .ok (.directory _) => .error .isADirectory
        | _ =>
          match insert? root path (.file bytes) with
          | some tree => .ok tree
          | none => .error .notADirectory

mutual

/-- The paths and bytes of all files at or below a path, depth first. -/
def files (path : String) : FileTree → List (String × List UInt8)
  | .file bytes => [(path, bytes)]
  | .directory entries =>
    filesOf (if path.endsWith "/" then path else path ++ "/") entries

def filesOf (start : String) : List (String × FileTree) → List (String × List UInt8)
  | [] => []
  | (name, tree) :: rest => files (start ++ name) tree ++ filesOf start rest

end

end FileTree

end SelectionModel
