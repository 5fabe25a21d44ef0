/-!
# Directories

A finite tree of files below one working directory, and what a path means there. A path is walked
part by part from the working directory, or from the root if it starts with a slash. Nothing is
known of what lies outside the working directory, except that directories lead up from it.
-/

namespace ProofScript

inductive ReadError
  | missing
  | denied
  | notADirectory
  | isADirectory
  | nameTooLong
  | notText
  deriving DecidableEq, Repr

def ReadError.message : ReadError → String
  | missing => "No such file or directory (os error 2)"
  | denied => "Permission denied (os error 13)"
  | notADirectory => "Not a directory (os error 20)"
  | isADirectory => "Is a directory (os error 21)"
  | nameTooLong => "File name too long (os error 36)"
  | notText => "stream did not contain valid UTF-8"

/-- Files by the names that lead to each from the working directory. Directories are there for the
sake of the files in them. -/
structure Directory where
  files : List (List String × ByteArray)

namespace Directory

/-- A place that a walk has come to. -/
inductive Place
  /-- Reached from the working directory by these names. -/
  | below (names : List String)
  /-- A directory above the working directory, or the root. -/
  | above
  /-- Somewhere else outside. -/
  | outside
  deriving DecidableEq, Repr

inductive Entry
  | file (content : ByteArray)
  | directory

/-- Empty parts and `.` stay where they are. -/
def Place.step (part : String) : Place → Place
  | .below names =>
    if part = "" || part = "." then .below names
    else if part = ".." then if names.isEmpty then .above else .below names.dropLast
    else .below (names ++ [part])
  | .above => if part = "" || part = "." || part = ".." then .above else .outside
  | .outside => .outside

def ofList (files : List (String × ByteArray)) : Directory :=
  ⟨files.map fun (path, content) =>
    ((path.splitOn "/").filter fun part => part ≠ "" && part ≠ ".", content)⟩

def entry? (d : Directory) : Place → Option Entry
  | .below names =>
    match d.files.lookup names with
    | some content => some (.file content)
    | none =>
      if names.isEmpty || d.files.any (names.isPrefixOf ·.1) then some .directory else none
  | .above => some .directory
  | .outside => none

/-- The longest name of a file, in bytes. -/
def nameLimit : Nat := 255

/-- A path has fewer bytes than this. -/
def pathLimit : Nat := 4096

/-- Only a directory can be walked on from, also by an empty part. -/
def walk (d : Directory) (place : Place) : List String → Except ReadError Entry
  | [] =>
    match d.entry? place with
    | some entry => .ok entry
    | none => .error .missing
  | part :: rest =>
    match d.entry? place with
    | none => .error .missing
    | some (.file _) => .error .notADirectory
    | some .directory =>
      if nameLimit < part.utf8ByteSize then .error .nameTooLong else d.walk (place.step part) rest

def read (d : Directory) (path : String) : Except ReadError ByteArray :=
  if path.isEmpty then .error .missing
  else if pathLimit ≤ path.utf8ByteSize then .error .nameTooLong
  else do
    match ← d.walk (if path.startsWith "/" then .above else .below []) (path.splitOn "/") with
    | .file content => return content
    | .directory => throw .isADirectory

end Directory

end ProofScript
