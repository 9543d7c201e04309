import StrictJson.Error

/-!
# Files

A system of files and directories, and what happens when a path is opened in it. A path is a text:
names with slashes between them, of which `.` stands for a directory itself and `..` for the one
around it. It starts at the root if its first character is a slash, and otherwise at the working
directory. Each name on the way has to be looked up in a directory.

Everything may be read and written, names may be of any length, and nothing is a link.

## Main definitions

* `Files`, `FileFault`
* `Files.locate`: where a path leads.
* `Files.read`, `Files.write`
-/

namespace StrictJson

/-- A **place** in a system of files: the names on the way to it from the root. -/
abbrev Files.Place := List String

/-- What can be at a place. -/
inductive Files.Entry where
  | directory
  | file (bytes : List UInt8)
  deriving DecidableEq, Repr

/-- A system of **files**: what is at which place, and the place of the working directory. The root
is a directory that needs no entry. -/
structure Files where
  entries : List (Files.Place × Files.Entry) := []
  here : Files.Place := []
  deriving DecidableEq, Repr

/-- The reasons why a file cannot be opened. -/
inductive FileFault where
  | notFound
  | isDirectory
  | notDirectory
  deriving DecidableEq, Repr

namespace FileFault

/-- The sentence that the operating system has for a reason. -/
def text : FileFault → String
  | notFound => "No such file or directory (os error 2)"
  | isDirectory => "Is a directory (os error 21)"
  | notDirectory => "Not a directory (os error 20)"

/-- Reports that the file at a path cannot be opened. -/
def toError (path : String) (fault : FileFault) : Error :=
  { code := .cannotOpenFile, detail := path ++ ": " ++ fault.text }

end FileFault

namespace Files

/-! ### Entries -/

/-- What is at a place. -/
def lookup? (files : Files) (place : Place) : Option Entry :=
  if place = [] then some .directory else files.entries.lookup place

/-- The files with the given bytes in a file at a place. -/
def store (files : Files) (place : Place) (bytes : List UInt8) : Files :=
  { files with
    entries := (place, .file bytes) :: files.entries.filter fun entry => entry.1 ≠ place }

/-! ### Paths -/

/-- The texts between the slashes of a path. -/
def split : List Char → List (List Char)
  | [] => [[]]
  | c :: path =>
    if c = '/' then [] :: split path
    else
      match split path with
      | [] => [[c]]
      | part :: parts => (c :: part) :: parts

/-- The names in a path. Slashes in a row count once. -/
def names (path : List Char) : List String :=
  ((split path).filter fun part => !part.isEmpty).map String.ofList

/-- Follows names from a place. There has to be a directory at each place that is gone on from; the
last place may have nothing. -/
def follow (files : Files) (place : Place) : List String → Except FileFault Place
  | [] => .ok place
  | name :: names =>
    match files.lookup? place with
    | some .directory =>
      if name = "." then files.follow place names
      else if name = ".." then files.follow place.dropLast names
      else files.follow (place ++ [name]) names
    | some (.file _) => .error .notDirectory
    | none => .error .notFound

/-- Where a path leads. A slash at the end of the path asks for a directory there. -/
structure Location where
  place : Place
  slash : Bool
  deriving DecidableEq, Repr

/-- The place where a path starts. -/
def start (files : Files) (path : List Char) : Place :=
  if path.head? = some '/' then [] else files.here

/-- **Where a path leads.** The empty path leads nowhere. -/
def locate (files : Files) (path : String) : Except FileFault Location :=
  let text := path.toList
  if text = [] then .error .notFound
  else
    match files.follow (files.start text) (names text) with
    | .ok place => .ok ⟨place, text.getLast? = some '/'⟩
    | .error e => .error e

/-! ### Reading and writing -/

/-- The bytes of the file at a path. -/
def read (files : Files) (path : String) : Except FileFault (List UInt8) :=
  match files.locate path with
  | .error e => .error e
  | .ok location =>
    match files.lookup? location.place with
    | none => .error .notFound
    | some .directory => .error .isDirectory
    | some (.file bytes) => if location.slash then .error .notDirectory else .ok bytes

/-- The files after bytes have been written to a path, in place of a file that is there. -/
def write (files : Files) (path : String) (bytes : List UInt8) : Except FileFault Files :=
  match files.locate path with
  | .error e => .error e
  | .ok location =>
    if location.slash ∨ files.lookup? location.place = some .directory then .error .isDirectory
    else .ok (files.store location.place bytes)

end Files

end StrictJson
