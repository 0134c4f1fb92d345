import GrammarKit.Files.Tree

/-!
# What a command asks of the files

A command does not touch files itself.  It is a plan that ends with a report, and on the way asks for
a file to be read or written and goes on with the answer.  The same plan can be carried out on the
files of the machine or on a `FileTree`.
-/

namespace GrammarKit

/-- What a command leaves behind on the terminal. -/
structure Report where
  /-- The exit status. -/
  status : Nat
  /-- What it prints. -/
  stdout : String
  /-- What it complains about. -/
  stderr : String
  deriving DecidableEq, Repr

/-- The plan of a command. -/
inductive Interaction where
  /-- It is over. -/
  | finish (report : Report)
  /-- It reads a file. -/
  | read (path : String) (next : Except FileError (List UInt8) → Interaction)
  /-- It writes a file. -/
  | write (path : String) (content : String) (next : Except FileError Unit → Interaction)

namespace Interaction

/-- Carries out a plan on a tree of files. -/
def run : Interaction → FileTree → Report × FileTree
  | .finish report, tree => (report, tree)
  | .read path next, tree => (next (tree.read path)).run tree
  | .write path content next, tree =>
    match tree.write path content.toUTF8.toList with
    | (answer, tree) => (next answer).run tree

/-- Ends well, with something to print. -/
def succeed (stdout : String) : Interaction := .finish ⟨0, stdout, ""⟩

/-- Ends with a complaint. -/
def fail (message : String) : Interaction := .finish ⟨1, "", "error: " ++ message ++ "\n"⟩

end Interaction

end GrammarKit
