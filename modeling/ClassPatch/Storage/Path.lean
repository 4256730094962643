/-!
# Paths

A path is a list of names from a root down, and it is written with slashes between them. A name that
is empty or a single dot stays where it is, and two dots step back to the directory above. A path keeps
such names, for they count for its length.
-/

namespace ClassPatch.Storage

/-- The names from a root down. -/
abbrev Path := List String

namespace Path

/-- What stands between the slashes of a text, from first to last. -/
def segments : List Char → List (List Char)
  | [] => [[]]
  | c :: rest =>
    if c = '/' then [] :: segments rest
    else match segments rest with
      | [] => [[c]]
      | first :: more => (c :: first) :: more

/-- The path that a text writes. -/
def ofText (text : String) : Path := (segments text.toList).map String.ofList

/-- The text of a path. -/
def text (path : Path) : String := "/".intercalate path

/-- Whether a name stays where it is. -/
def stays (name : String) : Bool := name = "" || name = "."

/-- The name that steps back to the directory above. -/
def back : String := ".."

/-- Where a name leads from a directory. Above the root is the root itself. -/
def step (directory : Path) (name : String) : Path :=
  if stays name then directory
  else if name = back then directory.dropLast
  else directory ++ [name]

/-- A path with more names at its end. A slash that ends it is not doubled. -/
def join (path names : Path) : Path :=
  (if path.getLast? = some "" then path.dropLast else path) ++ names

/-- The path without its last name, and without what stays where it is at the end of the rest. -/
def parent (path : Path) : Path := (path.dropLast.reverse.dropWhile stays).reverse

/-- The file name that a text ends in; a step back ends in none. -/
def fileName? (text : String) : Option String :=
  ((ofText text).filter (!stays ·)).getLast?.filter (· ≠ back)

end Path

end ClassPatch.Storage
