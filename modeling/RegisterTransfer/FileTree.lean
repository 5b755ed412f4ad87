/-!
# File trees

Where a path leads in a tree of directories and files. A path is a run of names with slashes between
them; an empty name and `.` stay where they are, and `..` goes up, though never above the root. Any
name at all, an empty one at the end included, asks for a directory to look it up in.
-/

namespace RegisterTransfer

/-- Why a path does not lead to a text. -/
inductive FileFault where
  | nulInPath
  | notFound
  | notDirectory
  | isDirectory
  | nameTooLong
  | notText
  deriving DecidableEq, Repr

/-- The wording of a file fault, with the number that the system has for it if there is one. -/
def FileFault.message : FileFault → String
  | nulInPath => "file name contained an unexpected NUL byte"
  | notFound => "No such file or directory (os error 2)"
  | notDirectory => "Not a directory (os error 20)"
  | isDirectory => "Is a directory (os error 21)"
  | nameTooLong => "File name too long (os error 36)"
  | notText => "stream did not contain valid UTF-8"

/-- A file, with its text unless it holds something else, or a directory. -/
inductive FileTree where
  | file (text : Option String)
  | directory (entries : List (String × FileTree))
  deriving Inhabited

namespace FileTree

/-- The number of bytes that one name may have. -/
def longestName : Nat := 255

/-- The number of bytes that a path has to stay below. -/
def pathLimit : Nat := 4096

/-- The text of a file. -/
def read : FileTree → Except FileFault String
  | file (some text) => .ok text
  | file none => .error .notText
  | directory _ => .error .isDirectory

end FileTree

/-- A place in a tree, with the directories around it, nearest first. -/
structure FilePosition where
  above : List FileTree
  here : FileTree

namespace FilePosition

/-- Goes where one name leads. -/
def enter (p : FilePosition) (name : String) : Except FileFault FilePosition :=
  match p.here with
  | .file _ => .error .notDirectory
  | .directory entries =>
    if name = "" ∨ name = "." then
      .ok p
    else if name = ".." then
      match p.above with
      | [] => .ok p
      | parent :: further => .ok ⟨further, parent⟩
    else if FileTree.longestName < name.utf8ByteSize then
      .error .nameTooLong
    else
      match entries.lookup name with
      | none => .error .notFound
      | some found => .ok ⟨p.here :: p.above, found⟩

/-- Goes where a run of names leads. A name matters only once all before it have been found. -/
def walk (p : FilePosition) (names : List String) : Except FileFault FilePosition :=
  names.foldlM enter p

end FilePosition

/-- A tree and the names that lead to the directory in it from which relative paths start. -/
structure FileSystem where
  root : FileTree
  working : List String

namespace FileSystem

/-- The names of a path, from the root on. -/
def names (s : FileSystem) (path : String) : List String :=
  if path.startsWith "/" then path.splitOn "/" else s.working ++ path.splitOn "/"

/-- The text of the file at a path. The path itself is checked before anything is looked up. -/
def read (s : FileSystem) (path : String) : Except FileFault String :=
  if path.contains '\x00' then
    .error .nulInPath
  else if path.isEmpty then
    .error .notFound
  else if FileTree.pathLimit ≤ path.utf8ByteSize then
    .error .nameTooLong
  else
    match FilePosition.walk ⟨[], s.root⟩ (s.names path) with
    | .ok found => found.here.read
    | .error fault => .error fault

end FileSystem

end RegisterTransfer
