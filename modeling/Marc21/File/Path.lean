/-!
Paths as texts: steps with slashes between them. A step is a name, or a single dot, which stays where it
is, or two dots, which lead upward. Repeated slashes and slashes at the end are no steps.
-/

namespace Marc21.Path

/-- What stands between slashes. -/
def components (path : List Char) : List (List Char) :=
  path.foldr (fun c parts => if c = '/' then [] :: parts
    else match parts with
      | first :: rest => (c :: first) :: rest
      | [] => [[c]]) [[]]

def steps (path : String) : List String :=
  ((components path.toList).filter (· ≠ [])).map String.ofList

/-- A path that ends in a slash is that of a folder. -/
def wantsFolder (path : String) : Bool := (components path.toList).getLast? = some []

/-- The steps that lead somewhere else. -/
def moves (path : String) : List String := (steps path).filter (· ≠ ".")

/-- The last name, unless the path leads upward in the end. -/
def fileName? (path : String) : Option String := (moves path).getLast?.filter (· ≠ "..")

/-- What follows the last dot of the last name. A dot that starts the name starts no extension. -/
def extension? (path : String) : Option String := do
  let name ← fileName? path
  let reversed := name.toList.reverse
  match reversed.dropWhile (· ≠ '.') with
  | '.' :: _ :: _ => some (String.ofList (reversed.takeWhile (· ≠ '.')).reverse)
  | _ => none

/-- Leaves out what is no move at the end of a path. A dot with which the path starts remains. -/
def trimmed (parts : List (List Char)) : List (List Char) :=
  match (parts.reverse.dropWhile fun s => s = [] ∨ s = ['.']).reverse with
  | [] => if parts.head? = some ['.'] then [['.']] else []
  | kept => kept

/-- The path with another name in the place of the last. -/
def sibling (path name : String) : String :=
  let folder := trimmed (trimmed (components path.toList)).dropLast
  String.intercalate "/" (folder.map String.ofList ++ [name])

end Marc21.Path
