import GrammarKit.Language

/-!
# Options of the file commands

```text
<file>           the file to read
--lang=<name>    the language, instead of the one that the file name tells
--dot=<path>     where a drawing goes
```

Options may stand in any order, and of two options of one sort the later one counts.  A second file
is an error.  Of several errors the first one counts.
-/

namespace GrammarKit

/-- Options of the file commands. -/
structure Options where
  /-- The file to read. -/
  input? : Option String := none
  /-- The language that was asked for. -/
  lang? : Option Language := none
  /-- The file that was asked for. -/
  dot? : Option String := none
  deriving DecidableEq, Repr

/-- Why options are refused. -/
inductive OptionError where
  /-- There is no language of that name. -/
  | unknownLanguage (name : String)
  /-- There is no path behind `--dot=`. -/
  | missingDotPath
  /-- There is no such option. -/
  | unknownOption (arg : String)
  /-- This is a second file. -/
  | unexpectedArgument (arg : String)
  deriving DecidableEq, Repr

/-- The wording of an error. -/
def OptionError.message : OptionError → String
  | .unknownLanguage name => "unknown language '" ++ name ++ "' (expected calc or pascal)"
  | .missingDotPath => "--dot requires a path"
  | .unknownOption arg => "unknown option '" ++ arg ++ "'"
  | .unexpectedArgument arg => "unexpected argument '" ++ arg ++ "'"

/-- What stands behind `start` in a text that begins with it. -/
def textBehind? (start text : String) : Option String :=
  if start.toList.isPrefixOf text.toList then
    some (String.ofList (text.toList.drop start.toList.length))
  else none

namespace Options

/-- Adds one argument to the options before it. -/
def add (options : Options) (arg : String) : Except OptionError Options :=
  match textBehind? "--lang=" arg with
  | some name =>
    match Language.ofName? name with
    | some lang => .ok { options with lang? := some lang }
    | none => .error (.unknownLanguage name)
  | none =>
    match textBehind? "--dot=" arg with
    | some path =>
      if path = "" then .error .missingDotPath else .ok { options with dot? := some path }
    | none =>
      if (textBehind? "--" arg).isSome then .error (.unknownOption arg)
      else if options.input?.isSome then .error (.unexpectedArgument arg)
      else .ok { options with input? := some arg }

/-- The options that the arguments spell. -/
def parse (args : List String) : Except OptionError Options := args.foldlM add {}

/-- The language of a file: the one that was asked for, or else the one that its name tells. -/
def languageFor (options : Options) (path : String) : Language :=
  options.lang?.getD (Language.ofPath path)

/-- Where a drawing goes if nothing is asked for. -/
def defaultDotPath : String := "output.dot"

/-- Where a drawing goes. -/
def dotPath (options : Options) : String := options.dot?.getD defaultDotPath

end Options

end GrammarKit
