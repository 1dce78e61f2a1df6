/-
Files as the command line needs them: some way to read and to write a file by its path. `Directory`
is one that needs no machine: a list of files with their texts, around which there is nothing but the
directories above it and a few at the root.
-/
namespace PegCompiler.Cli

/-- Why a file was not read or written. -/
inductive FileError
  | missing
  | isDirectory
  | notDirectory
  | tooLong
  | notText
  | other (message : String)
  deriving DecidableEq

def FileError.message : FileError → String
  | missing => "No such file or directory (os error 2)"
  | isDirectory => "Is a directory (os error 21)"
  | notDirectory => "Not a directory (os error 20)"
  | tooLong => "File name too long (os error 36)"
  | notText => "stream did not contain valid UTF-8"
  | other message => message

/-- A way to read and to write files. -/
structure FileAccess (m : Type → Type) where
  read : (path : String) → m (Except FileError String)
  write : (path text : String) → m (Except FileError Unit)

/-- A directory and all below it: the paths of its files, and their texts. -/
structure Directory where
  files : List (List String × String)
  deriving DecidableEq, Inhabited

namespace Directory

/-- The parts of a text between slashes. -/
def split (path : String) : List String := go [] path.toList
where
  /-- The parts, `part` being the one begun. -/
  go (part : List Char) : List Char → List String
    | [] => [String.ofList part.reverse]
    | c :: cs => if c = '/' then String.ofList part.reverse :: go [] cs else go (c :: part) cs

/-- The names on the way along a path. -/
def names (path : String) : List String := (split path).filter (· != "")

/-- A place by the names that lead to it from the directory: those below it alone, those above it
after names `..`, and those elsewhere after the root `/`. -/
abbrev Place := List String

/-- The directory with files at paths. -/
def ofList (files : List (String × String)) : Directory :=
  ⟨files.map fun (path, text) => ((names path).filter (· != "."), text)⟩

/-- The file that is always empty. -/
def nullDevice : Place := ["/", "dev", "null"]

/-- Directories at the root that are always there. -/
def commonDirectories : List Place :=
  ["bin", "boot", "dev", "etc", "home", "lib", "media", "mnt", "opt", "proc", "root", "run", "sbin", "srv",
    "sys", "tmp", "usr", "var"].map (["/", ·])

/-- The text of a file. -/
def text? (d : Directory) (place : Place) : Option String :=
  if place = nullDevice then some "" else d.files.lookup place

/-- Whether a place is a directory: this one, one above it, or one with a file below it. -/
def hasDirectory (d : Directory) (place : Place) : Bool :=
  place.all (fun name => name == ".." || name == "/") || commonDirectories.contains place ||
    d.files.any fun (file, _) => place.isPrefixOf file && place != file

/-- The directory above a directory; that above the root is the root. -/
def above (place : Place) : Place :=
  if place = ["/"] then place else if place.all (· == "..") then place ++ [".."] else place.dropLast

/-- The greatest length of a name in bytes. -/
def maxName : Nat := 255

/-- The length in bytes from which on no path is looked up. -/
def maxPath : Nat := 4096

/-- What is wrong with a place, unless it is a directory. -/
def requireDirectory (d : Directory) (place : Place) : Except FileError Unit :=
  if d.hasDirectory place then .ok ⟨⟩
  else if (d.text? place).isSome then .error .notDirectory
  else .error .missing

/-- The place that a name leads to from another one, whether or not there is anything. -/
def enter (d : Directory) (place : Place) (name : String) : Except FileError Place := do
  d.requireDirectory place
  if name = "." then return place
  else if name = ".." then return above place
  else if maxName < name.utf8ByteSize then throw .tooLong
  else return place ++ [name]

/-- The place that names lead to from where a path starts, one after the other. -/
def follow (d : Directory) (path : String) (names : List String) : Except FileError Place :=
  if path = "" then .error .missing
  else if maxPath ≤ path.utf8ByteSize then .error .tooLong
  else names.foldlM d.enter (if path.startsWith "/" then ["/"] else [])

/-- The text of a file, or what is wrong; a slash at the end asks for a directory. -/
def read (d : Directory) (path : String) : Except FileError String := do
  let place ← d.follow path (names path)
  if d.hasDirectory place then throw .isDirectory
  match d.text? place with
  | some text => if path.endsWith "/" then throw .notDirectory else return text
  | none => throw .missing

/-- The directory with a text for a file. -/
def put (d : Directory) (file : Place) (text : String) : Directory :=
  if file = nullDevice then d
  else if (d.text? file).isSome then ⟨d.files.map fun f => if f.1 = file then (file, text) else f⟩
  else ⟨d.files ++ [(file, text)]⟩

/-- The place for a file that is written. A name before a slash is a directory's, and is refused
without a look at what is there. -/
def target (d : Directory) (path : String) : Except FileError Place := do
  let names := names path
  let inside ← d.follow path names.dropLast
  match names.getLast? with
  | none => throw .isDirectory
  | some name =>
    if path.endsWith "/" && name != "." && name != ".." then
      d.requireDirectory inside
      throw .isDirectory
    let place ← d.enter inside name
    if d.hasDirectory place then throw .isDirectory
    return place

/-- The directory after writing, or what is wrong. -/
def write (d : Directory) (path text : String) : Except FileError Unit × Directory :=
  match d.target path with
  | .error why => (.error why, d)
  | .ok place => (.ok ⟨⟩, d.put place text)

/-- Reading and writing in a directory. -/
def access : FileAccess (StateM Directory) where
  read path := return (← get).read path
  write path text := modifyGet fun d => d.write path text

/-- Whether a place is below the directory. -/
def isInside (place : Place) : Bool := place.head? != some ".." && place.head? != some "/"

/-- The files below the directory that are new or have another text than before. -/
def changes (before after : Directory) : List (String × String) :=
  let changed := after.files.filter fun (file, text) => isInside file && before.text? file != some text
  changed.map fun (file, text) => (String.intercalate "/" file, text)

end Directory

end PegCompiler.Cli
