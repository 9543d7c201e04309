import StrictJson.Command.Run

/-!
# The Program

The command line over the real files and streams. The steps of a command are those of
`StrictJson.Command.Run`; this module says how they are taken.
-/

namespace StrictJson.Command

/-- The reason for a failed access to a file, if it is one that commands report. -/
def faultOfSystem? : IO.Error → Option FileFault
  | .noFileOrDirectory .. => some .notFound
  | .inappropriateType _ code _ => some (if code = 21 then .isDirectory else .notDirectory)
  | _ => none

/-- Keeps the failures that commands report and throws the others. -/
def attempt {α : Type} (action : IO α) : IO (Except FileFault α) := do
  match ← action.toBaseIO with
  | .ok x => return .ok x
  | .error e =>
    match faultOfSystem? e with
    | some fault => return .error fault
    | none => throw e

/-- Reads a stream to its end. -/
partial def readToEnd (stream : IO.FS.Stream) (bytes : ByteArray) : IO ByteArray := do
  let chunk ← stream.read 65536
  if chunk.isEmpty then return bytes else readToEnd stream (bytes ++ chunk)

/-- Writes characters to a stream. -/
def emit (stream : IO.FS.Stream) (text : List Char) : IO Unit := do
  stream.write (ByteArray.mk (Utf8.encodeChars text).toArray)
  stream.flush

instance : Surroundings IO where
  readStandardInput := do return (← readToEnd (← IO.getStdin) ByteArray.empty).toList
  readFile path := attempt do return (← IO.FS.readBinFile path).toList
  writeFile path bytes := attempt (IO.FS.writeBinFile path (ByteArray.mk bytes.toArray))
  print text := do emit (← IO.getStdout) text

/-- What the program says of itself when it is asked for help or not understood. -/
def usageLine : String :=
  "usage: jsson check|dump|stats|pack|unpack|utf8 [options]\n"

end StrictJson.Command

open StrictJson.Command in
/-- The program: one invocation, from its arguments to its exit code. -/
def main (arguments : List String) : IO UInt32 := do
  match Invocation.ofArguments arguments with
  | .error .usage =>
    emit (← IO.getStderr) usageLine.toList
    return 2
  | .error .help =>
    emit (← IO.getStdout) usageLine.toList
    return 0
  | .error .version =>
    emit (← IO.getStdout) versionLine.toList
    return 0
  | .ok i =>
    match ← (i.task.perform i.options).run with
    | .ok () => return 0
    | .error fault =>
      emit (← IO.getStderr) fault.report.toList
      return 1
