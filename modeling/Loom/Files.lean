import Loom.Content

/-!
A tree of files with a working directory in it. A place in the tree is given by the components of its path from the
top. A path is followed component by component, as far as there are directories.
-/
namespace Loom

/-- Why a file cannot be opened. -/
inductive FileFault where
  | missing
  | notDirectory
  | isDirectory
  | nameTooLong
  deriving DecidableEq, Inhabited

namespace FileFault

/-- The words for what is wrong. -/
def text : FileFault → String
  | .missing => "no such file or directory"
  | .notDirectory => "not a directory"
  | .isDirectory => "is a directory"
  | .nameTooLong => "file name too long"

/-- The words for a file that cannot be read. A directory can be opened and only then not be read. -/
def reading (path : String) (f : FileFault) : String :=
  (if f = .isDirectory then "read " else "open ") ++ path ++ ": " ++ f.text

/-- The words for a file that cannot be written. -/
def writing (path : String) (f : FileFault) : String := "open " ++ path ++ ": " ++ f.text

end FileFault

/-- The files and the working directory `root`. Directories are those on the way to the working directory or to a file,
    and those that are listed. -/
structure Files where
  root : String
  entries : List (List String × Content) := []
  directories : List (List String) := []
  deriving Inhabited

namespace Files

def components (path : String) : List String := (path.splitOn "/").filter (!·.isEmpty)

/-- The place of the working directory. -/
def work (f : Files) : List String := components f.root

/-- Adds a file below the working directory. -/
def add (f : Files) (path : String) (c : Content) : Files :=
  { f with entries := (f.work ++ components path,c) :: f.entries }

def file? (f : Files) (place : List String) : Option Content := f.entries.lookup place

def isDirectory (f : Files) (place : List String) : Bool :=
  (f.work :: f.directories).any place.isPrefixOf ||
    f.entries.any fun (k,_) => place.isPrefixOf k && place.length < k.length

def exists? (f : Files) (place : List String) : Bool := (f.file? place).isSome || f.isDirectory place

/-- The number of octets that a component can have. -/
def maxComponent : Nat := 255

/-- The number of octets that a path can have. -/
def maxPath : Nat := 4095

/-- Follows components from a place. Every component but the last must be a directory. There is nothing above the
    top. -/
def follow (f : Files) : List String → List String → Except FileFault (List String)
  | place, [] => .ok place
  | place, c :: rest =>
    if f.isDirectory place then
      if c = "" || c = "." then f.follow place rest
      else if c = ".." then f.follow place.dropLast rest
      else if maxComponent < c.utf8ByteSize then .error .nameTooLong
      else f.follow (place ++ [c]) rest
    else if (f.file? place).isSome then .error .notDirectory
    else .error .missing

/-- Where a path begins: at the top or at the working directory. -/
def start (f : Files) (path : String) : List String := if path.startsWith "/" then [] else f.work

def place (f : Files) (path : String) : Except FileFault (List String) :=
  if path.isEmpty then .error .missing
  else if maxPath < path.utf8ByteSize then .error .nameTooLong
  else f.follow (f.start path) (path.splitOn "/")

def readAt (f : Files) (place : List String) : Except FileFault Content :=
  match f.file? place with
  | some c => .ok c
  | none => .error (if f.isDirectory place then .isDirectory else .missing)

def read (f : Files) (path : String) : Except FileFault Content := do f.readAt (← f.place path)

/-- Writes a file. Its directory must be there, and a path that ends in a slash is one of a directory. -/
def write (f : Files) (path : String) (c : Content) : Except FileFault Files := do
  let named := String.ofList (path.toList.reverse.dropWhile (· == '/')).reverse
  let place ← if named.isEmpty && path.startsWith "/" then pure [] else f.place named
  if path.endsWith "/" || f.isDirectory place then throw .isDirectory
  return { f with entries := (place,c) :: f.entries.filter (·.1 ≠ place) }

/-! ### Names of paths -/

/-- Takes out empty components and points, and the component before two points. The components done come last one
    first. -/
def clean : List String → List String → List String
  | done, [] => done.reverse
  | done, c :: rest =>
    if c = "" || c = "." then clean done rest
    else if c = ".." then clean done.tail rest
    else clean (c :: done) rest

/-- The place that the directory part of a path names. -/
def directoryOf (f : Files) (path : String) : List String :=
  clean (f.start path).reverse (path.splitOn "/").dropLast

/-- The places that a path comes by, whatever is there; the one that it names comes last. -/
def placesOn (f : Files) (path : String) : List (List String) :=
  let parts := path.splitOn "/"
  (List.range (parts.length + 1)).map fun n => clean (f.start path).reverse (parts.take n)

/-- The full path of a place. -/
def nameOf (f : Files) (place : List String) : String :=
  match f.work.isPrefixOf? place with
  | some rest => "/".intercalate (f.root :: rest)
  | none => "/" ++ "/".intercalate place

/-- The last component of a path. -/
def baseName (path : String) : String :=
  if path.isEmpty then "."
  else match (path.splitOn "/").reverse.dropWhile (·.isEmpty) with
    | c :: _ => c
    | [] => "/"

/-- The names of configuration files, the one that counts first. -/
def configNames : List String := ["funweave.yaml","funweave.yml","funweave.toml"]

/-- The directories from a place up to the top. -/
def ancestors (place : List String) : List (List String) :=
  (List.range (place.length + 1)).reverse.map fun n => place.take n

/-- The configuration files that count for a module file, the nearest first. -/
def configPlaces (f : Files) (path : String) : List (List String) :=
  (ancestors (f.directoryOf path)).flatMap fun d => configNames.map fun n => d ++ [n]

def findConfig? (f : Files) (path : String) : Option (List String) := (f.configPlaces path).find? f.exists?

end Files
end Loom
