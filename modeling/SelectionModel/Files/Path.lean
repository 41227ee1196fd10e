/-!
# Paths

A path as a text: the steps that slashes divide it into, its directories, and
the extension of the file it names.
-/

namespace SelectionModel.Path

/-- The steps of a path: names, and `.` and `..` as they stand. -/
def steps (path : String) : List String := (path.splitOn "/").filter (· != "")

/-- The names of the directories of a path. Steps that only lead to the same
directory or to the one above name none. -/
def directories (path : String) : List String :=
  ((steps path).filter (· != ".")).dropLast.filter (· != "..")

/-- What is behind the last dot of a path's last name, unless the name starts with that dot. -/
def extension? (path : String) : Option String :=
  match (steps path).getLast? with
  | none => none
  | some name =>
    if name = ".." then none
    else
      let (after, before) := name.toList.reverse.span (· != '.')
      match before with
      | _ :: _ :: _ => some (String.ofList after.reverse)
      | _ => none

end SelectionModel.Path
