import GrammarKit.Cli.Interaction
import GrammarKit.Cli.Options

/-!
# The commands

Each command over a file reads it, does one thing with its text, and prints the outcome.  Whatever
goes wrong is reported with exit status 1, before anything is printed or written.
-/

namespace GrammarKit

namespace Command

/-- How the program is used. -/
def usage : String :=
  "kolc: calculator and Pascal front ends\n" ++
  "\n" ++
  "Usage: kolc <command> [options]\n" ++
  "\n" ++
  "Commands:\n" ++
  "  lex <file>       Tokenize and display tokens\n" ++
  "  parse <file>     Parse and write the AST as a Graphviz graph\n" ++
  "  run <file>       Parse and interpret\n" ++
  "  eval <expr>      Evaluate a calculator expression\n" ++
  "  help             Show this help message\n" ++
  "  version          Show version information\n" ++
  "\n" ++
  "Options:\n" ++
  "  --lang=<name>    Language: calc, pascal (default: by extension, .pas is Pascal)\n" ++
  "  --dot=<path>     Graph output for `parse` (default: output.dot)\n" ++
  "\n" ++
  "Logging is enabled by setting RUST_LOG, e.g. RUST_LOG=kol_parse=trace.\n" ++
  "\n" ++
  "Examples:\n" ++
  "  kolc run demo/part10.pas\n" ++
  "  kolc parse demo/part10.pas --dot=part10.dot\n" ++
  "  kolc lex demo/sum.txt --lang=calc\n" ++
  "  kolc eval \"-(1+2)*3\"\n"

/-- The name and the number of this version. -/
def version : String := "kolc 0.1.0\n"

/-- The complaint about a file that cannot be read. -/
def readMessage (path : String) : FileError → String
  | .notFound => "cannot find file '" ++ path ++ "'"
  | .permissionDenied => "permission denied reading '" ++ path ++ "'"
  | why => "error reading '" ++ path ++ "': " ++ why.message

/-- The text that is read from a file.  The calculator takes one line, so the line ends behind it do
not count. -/
def sourceOf (lang : Language) (content : String) : String :=
  match lang with
  | .calc =>
    String.ofList (content.toList.reverse.dropWhile fun c => c = '\n' ∨ c = '\r').reverse
  | .pascal => content

/-- Reads a file and goes on with its text. -/
def withSource (lang : Language) (path : String) (next : String → Interaction) : Interaction :=
  .read path fun
    | .error why => .fail (readMessage path why)
    | .ok content =>
      match String.fromUTF8? (ByteArray.mk content.toArray) with
      | none => .fail ("'" ++ path ++ "' contains invalid UTF-8 data")
      | some text => next (sourceOf lang text)

/-- Lists the tokens of a file. -/
def lexFile (path : String) (options : Options) : Interaction :=
  let lang := options.languageFor path
  withSource lang path fun source => .succeed (lang.tokenLines source)

/-- Draws the tree of a file. -/
def parseFile (path : String) (options : Options) : Interaction :=
  let lang := options.languageFor path
  withSource lang path fun source =>
    match lang.draw source with
    | .error why => .fail why.message
    | .ok document =>
      let target := options.dotPath
      .write target document fun
        | .error why => .fail ("cannot write '" ++ target ++ "': " ++ why.message)
        | .ok () => .succeed ("Wrote AST graph for '" ++ path ++ "' to '" ++ target ++ "'\n")

/-- Runs a file. -/
def runFile (path : String) (options : Options) : Interaction :=
  let lang := options.languageFor path
  withSource lang path fun source =>
    match lang.run source with
    | .error why => .fail why.message
    | .ok output => .succeed output

/-- A command over a file, with the arguments behind its name. -/
def onFile (name : String) (action : String → Options → Interaction) (args : List String) :
    Interaction :=
  match Options.parse args with
  | .error why => .fail why.message
  | .ok options =>
    match options.input? with
    | none =>
      .finish ⟨1, "", "error: missing file path\nUsage: kolc " ++ name ++ " <file> [options]\n"⟩
    | some path => action path options

/-- Evaluates an expression, given in any number of pieces. -/
def evalExpr : List String → Interaction
  | [] => .finish ⟨1, "", "Usage: kolc eval <expr>\nExample: kolc eval \"(1+2)*3\"\n"⟩
  | pieces =>
    match Language.calc.run (" ".intercalate pieces) with
    | .error why => .fail why.message
    | .ok output => .succeed output

/-- The command that the arguments of the program spell. -/
def ofArgs : List String → Interaction
  | [] => .succeed usage
  | "lex" :: args => onFile "lex" lexFile args
  | "parse" :: args => onFile "parse" parseFile args
  | "run" :: args => onFile "run" runFile args
  | "eval" :: args => evalExpr args
  | "help" :: _ | "--help" :: _ | "-h" :: _ => .succeed usage
  | "version" :: _ | "--version" :: _ | "-v" :: _ => .succeed version
  | name :: _ => .finish ⟨1, usage, "Unknown command: " ++ name ++ "\n\n"⟩

end Command

end GrammarKit
