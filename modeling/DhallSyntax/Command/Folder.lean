import DhallSyntax.Command.Outcome

/-!
Commands run in a folder of text files: the file that a command reads and the one that it writes
are found by their names.
-/

namespace DhallSyntax.Command

/-- A way from a folder to a file: the names between the slashes. -/
abbrev Path := List String

/-- The path that a name stands for. Empty names and single dots lead nowhere else. -/
def pathOf (name : String) : Path :=
  ((name.toList.splitOn '/').map String.ofList).filter fun part => part != "" && part != "."

/-- The text files of a folder and the folders in it. -/
structure Folder where
  files : List (Path × String)
deriving DecidableEq, Repr

namespace Folder

def ofFiles (files : List (String × String)) : Folder :=
  ⟨files.map fun (name, text) => (pathOf name, text)⟩

/-- The text of a file, if there is one at the path. -/
def text? (f : Folder) (path : Path) : Option String := f.files.lookup path

/-- Whether a path leads to the folder itself or to one in it. -/
def isFolder (f : Folder) (path : Path) : Bool :=
  path.isEmpty || path == [".."] ||
    f.files.any fun entry => path.isPrefixOf entry.1 && path != entry.1

/-- Whether a path leads through a file. -/
def passesFile (f : Folder) (path : Path) : Bool :=
  f.files.any fun entry => entry.1.isPrefixOf path && path != entry.1

def pathText (path : Path) : String := if path.isEmpty then "." else "/".intercalate path

/-- Whether a name leads away from the folder. -/
def isAbsolute (name : String) : Bool := name.toList.head? == some '/'

/-- The path, from the root, of the file that is always empty. -/
def nullPath : Path := ["dev", "null"]

/-- A file that is refused, with the reason. -/
def refused (reason shown : String) : FileContent :=
  .unreadable (reason ++ ": " ++ quoted shown)

/-- What is found under a path from the root, where nothing but the empty file is known. -/
def readOutside (path : Path) : FileContent :=
  if path.isEmpty then refused "[Errno 21] Is a directory" "/"
  else if path == nullPath then .text ""
  else .missing

/-- What is found under a path from the folder. -/
def readInside (f : Folder) (path : Path) : FileContent :=
  match f.text? path with
  | some text => .text text
  | none =>
    if f.isFolder path then refused "[Errno 21] Is a directory" (pathText path)
    else if f.passesFile path then refused "[Errno 20] Not a directory" (pathText path)
    else .missing

/-- What is found under a name. -/
def read (f : Folder) (name : String) : FileContent :=
  if isAbsolute name then readOutside (pathOf name) else f.readInside (pathOf name)

/-- The folder with a file of a given text, unless no file can be under the name. The file that is
always empty stays so. -/
def write? (f : Folder) (name text : String) : Option Folder :=
  let path := pathOf name
  if isAbsolute name then if path == nullPath then some f else none
  else if f.isFolder path || !f.isFolder path.dropLast then none
  else some ⟨(path, text) :: f.files.filter fun entry => entry.1 != path⟩

/-- Runs a command in a folder. Without arguments that make sense nothing happens. -/
def run (f : Folder) (input : String) (args : List String) : Outcome × Folder :=
  match Invocation.ofArguments? args with
  | none => (.usageError, f)
  | some i =>
    let content :=
      match i.source? with
      | none => .text ""
      | some "-" => .text input
      | some name => f.read name
    let outcome := i.outcome content
    match outcome.written with
    | none => (outcome, f)
    | some (name, text) =>
      match f.write? name text with
      | some changed => (outcome, changed)
      | none => (.failure [], f)

end Folder

end DhallSyntax.Command
