/-!
# File trees

Files and directories below a working directory, as a value. A path is followed component by
component through directories that exist; it names a file only if its last component does.
-/

set_option autoImplicit false

namespace Assembler65

/-- The components that lead from the working directory to a file or a directory. -/
abbrev Location := List String

/-- Files with their contents, and directories that may be empty. -/
structure FileTree where
  files : List (Location × ByteArray) := []
  directories : List Location := []

namespace FileTree

/-- Whether a location leads to a directory: the working directory, one that is listed, or one
that something lies in. -/
def isDirectory (tree : FileTree) (location : Location) : Bool :=
  location.isEmpty || tree.directories.contains location ||
    (tree.directories ++ tree.files.map Prod.fst).any fun other =>
      location.isPrefixOf other && location.length < other.length

/-- Whether a component stays where it is. -/
def isVoid (component : String) : Bool := component == "" || component == "."

/-- Follow components from a directory to a file. All but the last lead through directories. -/
def follow (tree : FileTree) : Location → List String → Option Location
  | _, [] => none
  | location, [name] =>
    if name == ".." then none else some (location ++ [name])
  | location, name :: rest =>
    let next := if name == ".." then location.dropLast else location ++ [name]
    if (name == ".." && location.isEmpty) || !tree.isDirectory next then none
    else tree.follow next rest

/-- The stretches of a path between slashes. -/
def components (path : String) : List String := (path.toList.splitOn '/').map String.ofList

/-- The location that a path names, if it can be that of a file. Absolute paths lead out of the
tree, and a path that ends in a slash or `.` names no file. -/
def locate? (tree : FileTree) (path : String) : Option Location :=
  if path.toList.head? == some '/' || (components path).getLast?.all isVoid then none
  else tree.follow [] ((components path).filter fun c => !isVoid c)

/-- The contents of a file. -/
def read? (tree : FileTree) (path : String) : Option ByteArray :=
  (tree.locate? path).bind fun location => tree.files.lookup location

/-- The text of a file that is encoded in UTF-8. -/
def readText? (tree : FileTree) (path : String) : Option String :=
  (tree.read? path).bind String.fromUTF8?

/-- The tree after a file is written. A directory cannot be written. -/
def write? (tree : FileTree) (path : String) (contents : ByteArray) : Option FileTree :=
  (tree.locate? path).bind fun location =>
    if tree.isDirectory location then none
    else
      some { tree with
        files := (location, contents) :: tree.files.filter fun file => file.1 != location }

end FileTree

end Assembler65
