/-!
# Files by path

A tree of files, held as data, and what reading a path of it yields: the text of a file, or why
there is none.  A path is walked name by name from the root or from a working directory, and each
name is looked up in a directory, so a path that goes on after a file leads nowhere.
-/

namespace DeltaLang

/-- Why a text cannot be read. -/
inductive ReadError where
  | missing
  | denied
  /-- A path goes on after a file. -/
  | notDirectory
  | isDirectory
  | nameTooLong
  | notText
  | other (reason : String)
deriving DecidableEq, Inhabited, Repr

def ReadError.message : ReadError → String
  | missing => "No such file or directory (os error 2)"
  | denied => "Permission denied (os error 13)"
  | notDirectory => "Not a directory (os error 20)"
  | isDirectory => "Is a directory (os error 21)"
  | nameTooLong => "File name too long (os error 36)"
  | notText => "stream did not contain valid UTF-8"
  | other reason => reason

/-- Files, each at its place: the names of the directories from the root on, and its own name. -/
structure FileTree where
  /-- The place that a path starts from, if it does not start from the root. -/
  here : List String
  files : List (List String × String)
deriving Inhabited

namespace FileTree

/-- The most bytes that one name of a path may have. -/
def nameLimit : Nat := 255

/-- The most bytes that a path may have. -/
def pathLimit : Nat := 4095

/-- The names of a path.  A slash at its start or its end adds an empty name there. -/
def names (path : String) : List String := path.splitOn "/"

/-- The place that a path starts from. -/
def start (t : FileTree) (path : String) : List String :=
  if path.startsWith "/" then [] else t.here

/-- The tree of files given by their paths, with a working directory. -/
def ofPaths (here : List String) (files : List (String × String)) : FileTree :=
  let empty : FileTree := ⟨here, []⟩
  { empty with files := files.map fun (path, text) =>
      (empty.start path ++ (names path).filter fun n => n != "" && n != ".", text) }

/-- Whether a place is a directory: the root, the working directory, or one that holds a file. -/
def isDirectory (t : FileTree) (place : List String) : Bool :=
  place.isPrefixOf t.here ||
    t.files.any fun (file, _) => place.isPrefixOf file && place != file

/-- The place that a name leads to.  The empty name and a dot stay where they are, and two dots go
up. -/
def step (t : FileTree) (place : List String) (name : String) : Except ReadError (List String) :=
  let inner := place ++ [name]
  if !t.isDirectory place then .error .notDirectory
  else if name = "" || name = "." then .ok place
  else if name = ".." then .ok place.dropLast
  else if nameLimit < name.utf8ByteSize then .error .nameTooLong
  else if t.isDirectory inner || (t.files.lookup inner).isSome then .ok inner
  else .error .missing

/-- The place that names lead to, one after the other. -/
def walk (t : FileTree) : List String → List String → Except ReadError (List String)
  | place, [] => .ok place
  | place, name :: rest =>
    match t.step place name with
    | .ok place => t.walk place rest
    | .error e => .error e

/-- The text of the file at a path. -/
def read (t : FileTree) (path : String) : Except ReadError String :=
  if path = "" then .error .missing
  else if pathLimit < path.utf8ByteSize then .error .nameTooLong
  else
    match t.walk (t.start path) (names path) with
    | .error e => .error e
    | .ok place =>
      match t.files.lookup place with
      | some text => .ok text
      | none => .error .isDirectory

end FileTree

end DeltaLang
