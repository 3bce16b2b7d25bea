import PredictiveParsing.CommandLine.Run

/-!
The program: reads the grammar from standard input or a file, prints the answer and exits with its
code.
-/
namespace PredictiveParsing.CommandLine

def ReadFailure.ofError : IO.Error → ReadFailure
  | .noFileOrDirectory .. => .missing
  | .inappropriateType _ 21 _ => .directory
  | .inappropriateType .. => .notDirectory
  | e => .other (toString e)

def readBytes : Source → IO ByteArray
  | .standardInput => do (← IO.getStdin).readBinToEnd
  | .file name => IO.FS.readBinFile name

def readSource (source : Source) : IO (Except ReadFailure String) := do
  try
    return decodeText (← readBytes source)
  catch e =>
    return .error (.ofError e)

end PredictiveParsing.CommandLine

open PredictiveParsing.CommandLine in
def main (args : List String) : IO UInt32 := do
  let invocation := Invocation.ofArguments args
  let text ←
    match invocation.source? with
    | none => pure (.ok "")
    | some source => readSource source
  let response := invocation.answer text
  (← IO.getStdout).putStr response.output
  (← IO.getStderr).putStr response.errors
  return response.code.toUInt32
