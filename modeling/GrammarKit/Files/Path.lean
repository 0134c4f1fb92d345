/-!
# File names

A path is a text with slashes between its components.  Empty components and the component `.` say
nothing about where a path leads.
-/

namespace GrammarKit.Path

/-- The components of a path, with the empty ones, as they stand between the slashes. -/
def components (path : String) : List String := path.splitOn "/"

/-- The name of the file that a path leads to: its last component that is neither empty nor `.`,
unless that leads to the directory above. -/
def fileName? (path : String) : Option String :=
  match ((components path).filter fun c => c ≠ "" ∧ c ≠ ".").getLast? with
  | some ".." => none
  | last => last

/-- What stands behind the last point of a file name.  A point at the start of a name does not begin
an extension. -/
def extensionOfName? (name : String) : Option String :=
  let reversed := name.toList.reverse
  match reversed.dropWhile (· ≠ '.') with
  | '.' :: _ :: _ => some (String.ofList (reversed.takeWhile (· ≠ '.')).reverse)
  | _ => none

/-- The extension of the file that a path leads to. -/
def extension? (path : String) : Option String := (fileName? path).bind extensionOfName?

end GrammarKit.Path
