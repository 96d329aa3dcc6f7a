/-! # Files

What a command can see of the files around it, and paths by name.  A path is absolute when it
starts with a slash.  An absolute path is a list of names, from the top down.
-/
namespace FormulaFold

/-- Why nothing can stand under a path. -/
inductive Obstacle where
  /-- The path leads through something that is no directory. -/
  | noDirectory
  | nameTooLong
  /-- The path has a character that no name has. -/
  | invalidName
deriving DecidableEq, Inhabited

/-- The wording of an obstacle. -/
def Obstacle.message : Obstacle → String
  | noDirectory => "not a directory"
  | nameTooLong => "file name too long"
  | invalidName => "invalid argument"

/-- What stands under a path. -/
inductive FileEntry where
  | file (text : String)
  /-- A directory, or anything else whose text cannot be had. -/
  | directory
  /-- Nothing, because the path cannot be followed. -/
  | blocked (cause : Obstacle)

/-- The files that a command can see. -/
structure Files where
  entry? : String → Option FileEntry

namespace Files

/-- Whether anything stands under a path. -/
def has (files : Files) (path : String) : Bool :=
  match files.entry? path with
  | some (.file _) | some .directory => true
  | some (.blocked _) | none => false

end Files

namespace Path

/-- The names of a path without the ones that stand for the place itself and for the one above:
`done` holds the names so far, last one first. -/
def resolve : (done : List String) → List String → List String
  | done, [] => done.reverse
  | done, name :: rest =>
    if name = "" ∨ name = "." then resolve done rest
    else if name = ".." then resolve done.tail rest
    else resolve (name :: done) rest

/-- The names of a path, seen from a directory unless the path is absolute. -/
def absolute (workingDir path : String) : List String :=
  if path.startsWith "/" then resolve [] (path.splitOn "/")
  else resolve [] (workingDir.splitOn "/" ++ path.splitOn "/")

/-- The text of an absolute path. -/
def render (names : List String) : String := "/" ++ "/".intercalate names

/-- The directories from one with the given names, last one first, up to the top. -/
def climb : List String → List (List String)
  | [] => [[]]
  | name :: rest => (name :: rest).reverse :: climb rest

/-- A directory and the directories above it, up to the top. -/
def upwards (names : List String) : List (List String) := climb names.reverse

end Path

end FormulaFold
