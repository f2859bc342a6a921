/-!
# Paths

A path is a list of names with slashes between them.  It is put into a simple
form: empty names and single dots are left out, and the path of no names at all
is a single dot.  A slash in front stays, two slashes in front stay two, and
more than two are one.
-/

namespace ClassScript.Text

/-- The slashes that stay in front of a path. -/
def leadingSlashes (path : List Char) : List Char :=
  match (path.takeWhile (· = '/')).length with
  | 0 => []
  | 2 => ['/', '/']
  | _ => ['/']

/-- The names in a path, the first of which starts with the given characters in
reverse. -/
def namesFrom : (start path : List Char) → List (List Char)
  | start, [] => [start.reverse]
  | start, c :: rest =>
    if c = '/' then start.reverse :: namesFrom [] rest else namesFrom (c :: start) rest

/-- The names that stay in a path. -/
def pathNames (path : List Char) : List (List Char) :=
  (namesFrom [] path).filter fun name => !(name = [] || name = ['.'])

/-- A path in its simple form. -/
def simplifyPath (path : String) : String :=
  let root := leadingSlashes path.toList
  let names := pathNames path.toList
  if root.isEmpty && names.isEmpty then "."
  else String.ofList (root ++ ['/'].intercalate names)

end ClassScript.Text
