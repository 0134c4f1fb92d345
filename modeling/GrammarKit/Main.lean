import GrammarKit.Cli.Command

/-!
# The program

Carries out the plan of a command on the files of the machine.
-/

namespace GrammarKit

/-- The error of the system with that number; some parts of the system count downwards from zero. -/
def FileError.ofNumber (code : UInt32) (text : String) : FileError :=
  match if code.toNat < 0x80000000 then code.toNat else 0x100000000 - code.toNat with
  | 2 => .notFound
  | 13 => .permissionDenied
  | 20 => .notADirectory
  | 21 => .isADirectory
  | 36 => .nameTooLong
  | number => .other number text

/-- The error of the system behind an exception. -/
def FileError.ofException : IO.Error → FileError
  | .noFileOrDirectory _ _ _ => .notFound
  | .permissionDenied _ code text => .ofNumber code text
  | .inappropriateType _ code text => .ofNumber code text
  | .invalidArgument _ code text => .ofNumber code text
  | .resourceExhausted _ code text => .ofNumber code text
  | .resourceBusy code text => .ofNumber code text
  | .unsupportedOperation code text => .ofNumber code text
  | .hardwareFault code text => .ofNumber code text
  | .illegalOperation code text => .ofNumber code text
  | .otherError code text => .ofNumber code text
  | why => .other 0 (toString why)

/-- Carries out a plan and answers the exit status. -/
def Interaction.perform : Interaction → IO UInt32
  | .finish report => do
    (← IO.getStdout).putStr report.stdout
    (← IO.getStderr).putStr report.stderr
    return UInt32.ofNat report.status
  | .read path next => do
    match ← (IO.FS.readBinFile path).toBaseIO with
    | .ok content => (next (.ok content.toList)).perform
    | .error why => (next (.error (.ofException why))).perform
  | .write path content next => do
    match ← (IO.FS.writeFile path content).toBaseIO with
    | .ok () => (next (.ok ())).perform
    | .error why => (next (.error (.ofException why))).perform

end GrammarKit

/-- The program. -/
def main (args : List String) : IO UInt32 := (GrammarKit.Command.ofArgs args).perform
