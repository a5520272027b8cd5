import Assembler65.Fault.Basic

/-!
# Path names

The parts of a slash-divided path: the directory in front of the last component, the stem of the
file name and its extension. Slashes and `/.` at the end of a path do not count as components. The
main definition is `outputPath`, the default place of the output.
-/

set_option autoImplicit false

namespace Assembler65.PathName

/-- A path in reverse without the slashes and `/.` at its end. -/
def trimmedReverse : List Char → List Char
  | '/' :: rest => trimmedReverse rest
  | '.' :: '/' :: rest => trimmedReverse rest
  | cs => cs

/-- The part up to the last slash, slash included, and the file name of a path. A path that ends
in `.` or `..`, or has no component, has no file name. -/
def split? (path : List Char) : Option (List Char × List Char) :=
  let reversed := trimmedReverse path.reverse
  let name := (reversed.takeWhile (· != '/')).reverse
  let directory := (reversed.dropWhile (· != '/')).reverse
  if name == [] || name == ['.'] || name == ['.', '.'] then none else some (directory, name)

/-- The stem and the extension of a file name. The extension follows the last point, unless that
point comes first. -/
def stemAndExtension (name : List Char) : List Char × Option (List Char) :=
  let reversed := name.reverse
  match reversed.dropWhile (· != '.') with
  | [] | ['.'] => (name, none)
  | _ :: stem => (stem.reverse, some (reversed.takeWhile (· != '.')).reverse)

/-- The extension of a path. -/
def extension? (path : List Char) : Option (List Char) :=
  (split? path).bind fun (_, name) => (stemAndExtension name).2

/-- A path with an extension behind the stem of its file name. A path without a file name stays as
it is. -/
def setExtension (extension : List Char) (path : List Char) : List Char :=
  match split? path with
  | none => path
  | some (directory, name) => directory ++ (stemAndExtension name).1 ++ '.' :: extension

/-- The extension of source files. -/
def sourceExtension : List Char := ['a', 's', 'm']

/-- The extension of images. -/
def imageExtension : List Char := ['b', 'i', 'n']

/-- The place of the output for an input: the same path with another extension. The old extension
is cut off the end of the path before the new one is set. -/
def outputPath (input : String) : Except Fault String :=
  let path := input.toList
  if extension? path == some sourceExtension then
    let cut := path.take (path.length - sourceExtension.length)
    .ok (String.ofList (setExtension imageExtension cut))
  else .error (.inArguments (.wrongExtension input))

end Assembler65.PathName
