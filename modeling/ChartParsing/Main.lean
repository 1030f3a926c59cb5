import ChartParsing.ByteFormat.Standard
import ChartParsing.CommandLine.Run
import ChartParsing.Text.Backtracking

/-!
# The program

The surroundings of a run are the files and streams of the process.
-/

namespace ChartParsing.CommandLine

/-- The fault that the system reports. -/
def faultOf : IO.Error → FileFault
  | .noFileOrDirectory .. => .notFound
  | .inappropriateType _ 21 _ => .isADirectory
  | .inappropriateType .. => .notADirectory
  | .resourceExhausted _ 28 _ => .noSpace
  | .invalidArgument _ 36 _ => .nameTooLong
  | _ => .permissionDenied

/-- What an action comes to, or why the system refuses it. -/
def attempt {α : Type} (action : IO α) : IO (Except FileFault α) := do
  match ← action.toBaseIO with
  | .ok a => return .ok a
  | .error e => return .error (faultOf e)

/-- Everything that is left on a stream, after the bytes read so far. -/
partial def readRest (stream : IO.FS.Stream) (soFar : ByteArray) : IO ByteArray := do
  let more ← stream.read 65536
  if more.isEmpty then return soFar else readRest stream (soFar ++ more)

def process : Surroundings IO where
  readFile path := attempt (IO.FS.readBinFile path)
  writeFile path bytes := attempt (IO.FS.writeBinFile path bytes)
  input := do readRest (← IO.getStdin) .empty
  print text := do
    let out ← IO.getStdout
    out.putStr text
    out.flush
  printError text := do (← IO.getStderr).putStr text

end ChartParsing.CommandLine

def main (arguments : List String) : IO UInt32 := do
  let exit ← ChartParsing.CommandLine.run .backtracking .standard ChartParsing.CommandLine.process
    (ChartParsing.CommandLine.defaultName :: arguments)
  return exit.code.toUInt32
