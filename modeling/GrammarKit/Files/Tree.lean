import GrammarKit.Files.Path

/-!
# A tree of files

The files that a command can see, and how a path is followed among them.  Directories are not kept:
a directory is there if a file is below it, or if it is the working directory or above that.

* `FileTree.follow` walks along a path component by component.
* `FileTree.read`, `FileTree.write` answer with the error of the system if the path leads nowhere.
-/

namespace GrammarKit

/-- Why a file cannot be read or written. -/
inductive FileError where
  /-- Nothing has this name. -/
  | notFound
  /-- The file may not be opened. -/
  | permissionDenied
  /-- A file stands where a directory is needed. -/
  | notADirectory
  /-- A directory stands where a file is needed. -/
  | isADirectory
  /-- A name is longer than the system takes. -/
  | nameTooLong
  /-- Any other error of the system, by its number. -/
  | other (code : Nat) (text : String)
  deriving DecidableEq, Repr

/-- The wording of an error, with the number that the system gives it. -/
def FileError.message : FileError → String
  | .notFound => "No such file or directory (os error 2)"
  | .permissionDenied => "Permission denied (os error 13)"
  | .notADirectory => "Not a directory (os error 20)"
  | .isADirectory => "Is a directory (os error 21)"
  | .nameTooLong => "File name too long (os error 36)"
  | .other code text => text ++ " (os error " ++ toString code ++ ")"

/-- A place in a tree of files: the names from the root down to it. -/
abbrev Place := List String

/-- Files with their content, and the directory at which relative paths start. -/
structure FileTree where
  /-- The files, by their places. -/
  files : List (Place × List UInt8)
  /-- The working directory. -/
  working : Place

namespace FileTree

/-- The content of the file at a place. -/
def content? (tree : FileTree) (place : Place) : Option (List UInt8) := tree.files.lookup place

/-- Whether there is a directory at a place. -/
def isDirectory (tree : FileTree) (place : Place) : Bool :=
  place.isPrefixOf tree.working ||
    tree.files.any fun (file, _) => place.isPrefixOf file && place != file

/-- Where a component leads from a directory. -/
def step (place : Place) : String → Place
  | "" => place
  | "." => place
  | ".." => place.dropLast
  | name => place ++ [name]

/-- The most bytes of a component. -/
def nameLimit : Nat := 255

/-- The most bytes of a path. -/
def pathLimit : Nat := 4095

/-- Walks along all components but the last, each of which has to lead to a directory, and answers
the directory and the last component. -/
def walk (tree : FileTree) : Place → (component : String) → (components : List String) →
    Except FileError (Place × String)
  | place, last, [] => .ok (place, last)
  | place, name, next :: rest =>
    if nameLimit < name.utf8ByteSize then .error .nameTooLong
    else if tree.isDirectory (step place name) then walk tree (step place name) next rest
    else if (tree.content? (step place name)).isSome then .error .notADirectory
    else .error .notFound

/-- What a path ends in. -/
structure Target where
  /-- The place that it leads to. -/
  place : Place
  /-- Its last component. -/
  name : String
  /-- It can only mean a directory, because of a slash or a component `.` or `..` at its end. -/
  mustBeDirectory : Bool
  deriving DecidableEq, Repr

/-- Follows a path up to its last component, which need not lead to anything. -/
def follow (tree : FileTree) (path : String) : Except FileError Target :=
  if path = "" then .error .notFound
  else if pathLimit < path.utf8ByteSize then .error .nameTooLong
  else
    let components := Path.components path
    let names := components.filter (· ≠ "")
    let start := if components.head? = some "" then [] else tree.working
    let slashed := components.getLast? = some ""
    match names with
    | [] => .ok ⟨start, "", true⟩
    | first :: rest =>
      match tree.walk start first rest with
      | .error why => .error why
      | .ok (place, last) => .ok ⟨step place last, last, slashed || last = "." || last = ".."⟩

/-- The content of the file that a path leads to. -/
def read (tree : FileTree) (path : String) : Except FileError (List UInt8) :=
  match tree.follow path with
  | .error why => .error why
  | .ok target =>
    if nameLimit < target.name.utf8ByteSize then .error .nameTooLong
    else if tree.isDirectory target.place then .error .isADirectory
    else
      match tree.content? target.place with
      | none => .error .notFound
      | some content => if target.mustBeDirectory then .error .notADirectory else .ok content

/-- The files with one more, or with another content for that place. -/
def setContent (place : Place) (content : List UInt8) :
    List (Place × List UInt8) → List (Place × List UInt8)
  | [] => [(place, content)]
  | (other, old) :: files =>
    if other = place then (place, content) :: files
    else (other, old) :: setContent place content files

/-- Writes the file that a path leads to. -/
def write (tree : FileTree) (path : String) (content : List UInt8) :
    Except FileError Unit × FileTree :=
  match tree.follow path with
  | .error why => (.error why, tree)
  | .ok target =>
    if target.mustBeDirectory || tree.isDirectory target.place then (.error .isADirectory, tree)
    else if nameLimit < target.name.utf8ByteSize then (.error .nameTooLong, tree)
    else (.ok (), { tree with files := setContent target.place content tree.files })

end FileTree

end GrammarKit
