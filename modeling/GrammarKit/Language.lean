import GrammarKit.Ast.Drawing
import GrammarKit.Calc.Eval
import GrammarKit.Calc.Syntax
import GrammarKit.Files.Path
import GrammarKit.Pascal.Run
import GrammarKit.Pascal.Syntax

/-!
# The two languages

What can be done with a text whichever language it is in: list its tokens, parse it, draw its tree,
run it.  A run of the calculator yields one number, which is `Calc.evaluate` of the text, a run of Pascal
the list of the variables.
-/

namespace GrammarKit

/-- A language that can be read. -/
inductive Language where
  /-- The calculator. -/
  | calc
  /-- The Pascal subset. -/
  | pascal
  deriving DecidableEq, Repr

/-- Why a text yields no result. -/
inductive ProgramError where
  /-- The text does not match the grammar. -/
  | parse (why : ParseError)
  /-- The tree is broken. -/
  | tree (fault : TreeFault)
  /-- The evaluation of the tree ends early. -/
  | eval (why : EvalError)
  deriving DecidableEq, Repr

/-- The wording of an error. -/
def ProgramError.message : ProgramError → String
  | .parse why => why.message
  | .tree fault => fault.message
  | .eval why => why.message

namespace Language

/-- The name of a language. -/
def name : Language → String
  | .calc => "calc"
  | .pascal => "pascal"

/-- The language of that name. -/
def ofName? : String → Option Language
  | "calc" => some .calc
  | "pascal" => some .pascal
  | _ => none

/-- The language of a file, by the extension of its name: `pas` is Pascal, in capital or small
letters, and all else the calculator. -/
def ofPath (path : String) : Language :=
  if (Path.extension? path).map String.toLower = some "pas" then .pascal else .calc

/-- The tokens of a text, as they are shown. -/
def tokens : Language → String → List String
  | .calc, source => (Cursor.start Calc.table source).tokens.map Token.label
  | .pascal, source => (Cursor.start Pascal.table source).tokens.map Token.label

/-- The tokens of a text, one line each. -/
def tokenLines (lang : Language) (source : String) : String :=
  String.join ((lang.tokens source).map (· ++ "\n"))

/-- The tree of a text. -/
def parse : Language → String → Except ProgramError Tree
  | .calc, source => (Calc.parse source).mapError .parse
  | .pascal, source =>
    (Pascal.parse source).mapError fun
      | .parse why => .parse why
      | .tree fault => .tree fault

/-- The drawing of the tree of a text. -/
def draw (lang : Language) (source : String) : Except ProgramError String :=
  match lang.parse source with
  | .ok tree => tree.draw.mapError .tree
  | .error why => .error why

end Language

/-- The number that a text of the calculator comes to. -/
def Calc.evaluate (source : String) : Except ProgramError Int :=
  match Language.calc.parse source with
  | .error why => .error why
  | .ok tree => (eval tree).mapError .eval

/-- The result of a text: the number and a line end, or the list of the variables. -/
def Language.run : Language → String → Except ProgramError String
  | .calc, source => (Calc.evaluate source).map fun v => toString v ++ "\n"
  | .pascal, source =>
    match Language.pascal.parse source with
    | .error why => .error why
    | .ok tree =>
      match Pascal.run tree .empty with
      | (.ok (), store) => .ok store.listing
      | (.error why, _) => .error (.eval why)

end GrammarKit
