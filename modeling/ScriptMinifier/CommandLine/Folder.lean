-- A folder with files in it, as the command sees it. Paths lead to places below the
-- folder only.

namespace ScriptMinifier.CommandLine

/-- The files of a folder and of the folders in it. A path has its parts from the outside in. -/
structure Folder where
  files : List (List String × ByteArray)

namespace Folder

/-! ## Paths -/

/-- The folder itself, and each part of the way to a file, is a folder. -/
def isFolder (folder : Folder) (path : List String) : Bool :=
  path.isEmpty || folder.files.any fun file => path.isPrefixOf file.1 && path != file.1

/-- How many bytes the name of a file or folder may have. -/
def nameLimit : Nat := 255

/-- How many bytes a path may have. -/
def pathLimit : Nat := 4095

/-- Whether a file can have the name. The empty name and the dots mean folders. -/
def isFileName (name : String) : Bool :=
  !(["", ".", ".."].contains name) && name.utf8ByteSize ≤ nameLimit

/-- The place that is reached from a folder by the parts of a path. The last part is a file and
all others are folders that are there. -/
def walk (folder : Folder) (place : List String) : List String → Option (List String)
  | [] => none
  | [name] => if isFileName name then some (place ++ [name]) else none
  | name :: rest =>
    if name == "" || name == "." then folder.walk place rest
    else if name == ".." then if place.isEmpty then none else folder.walk place.dropLast rest
    else if folder.isFolder (place ++ [name]) then folder.walk (place ++ [name]) rest
    else none

/-- The parts of a path, which slashes divide. -/
def parts (path : String) : List String := (path.toList.splitOn '/').map String.ofList

/-- The place that a path from the folder leads to. The folder is all there is: an absolute path
leads nowhere, and neither does one that goes up out of the folder. -/
def resolve (folder : Folder) (path : String) : Option (List String) :=
  if path.startsWith "/" || pathLimit < path.utf8ByteSize then none
  else folder.walk [] (parts path)

/-! ## Files -/

def read? (folder : Folder) (path : String) : Option ByteArray :=
  (folder.resolve path).bind fun place => folder.files.lookup place

/-- The folder with a file made anew, if one can be made there. -/
def write? (folder : Folder) (path : String) (content : ByteArray) : Option Folder := do
  let place ← folder.resolve path
  if folder.isFolder place then none
  else some { files := (place, content) :: folder.files.filter fun file => file.1 != place }

end Folder

end ScriptMinifier.CommandLine
