import StrictJson.Command.Arguments
import StrictJson.Command.Fault
import StrictJson.Packed.Target
import StrictJson.Syntax.Document
import StrictJson.Text.Blank
import StrictJson.Value.Statistics
import StrictJson.Value.Writer

/-!
# Running a Command

A command takes steps in the world around it: it reads the standard input and files, writes files,
and prints. The steps are the same ones wherever they are taken, in the world of an operating system
or in one that is data. Whatever a step has done is done: a failure later on takes nothing back.

## Main definitions

* `Surroundings`: what can be done to the world around a program.
* `Task.perform`: the steps of a command.
* `World`: a world that is data.
* `Outcome`, `run`: a whole invocation in such a world.
-/

namespace StrictJson.Command

/-! ### Surroundings -/

/-- What a program can do to the world **around** it. -/
class Surroundings (m : Type → Type) where
  /-- Reads the standard input to its end. -/
  readStandardInput : m (List UInt8)
  /-- Reads the file at a path. -/
  readFile : String → m (Except FileFault (List UInt8))
  /-- Writes bytes to the file at a path. -/
  writeFile : String → List UInt8 → m (Except FileFault Unit)
  /-- Writes characters to the standard output. -/
  print : List Char → m Unit

export Surroundings (readStandardInput readFile writeFile print)

variable {m : Type → Type} [Monad m] [Surroundings m]

/-- Steps that can fail are taken in the same surroundings. -/
instance : Surroundings (ExceptT Fault m) where
  readStandardInput := ExceptT.lift readStandardInput
  readFile path := ExceptT.lift (readFile path)
  writeFile path bytes := ExceptT.lift (writeFile path bytes)
  print text := ExceptT.lift (print text)

/-- Goes on with a result, or fails as it has failed. -/
def settle {α : Type} (result : Except Fault α) : ExceptT Fault m α :=
  ExceptT.mk (pure result)

/-! ### Input and output -/

/-- Reads the file at a path, or fails with what is to be reported. -/
def readFrom (report : FileFault → Fault) (path : String) : ExceptT Fault m (List UInt8) := do
  match ← readFile path with
  | .ok bytes => return bytes
  | .error fault => throw (report fault)

/-- Writes bytes to the file at a path, or fails with what is to be reported. -/
def writeTo (report : FileFault → Fault) (path : String) (bytes : List UInt8) :
    ExceptT Fault m Unit := do
  match ← writeFile path bytes with
  | .ok () => return ()
  | .error fault => throw (report fault)

/-- Reads a file, or the standard input. -/
def readInput : Option String → ExceptT Fault m (List UInt8)
  | none => readStandardInput
  | some path => readFrom (.unreadable path) path

/-- The value of a document whose bytes are at hand. -/
def parsed (options : Syntax.Options) (source : Option String) (bytes : List UInt8) :
    Except Fault Value :=
  match parse options bytes with
  | .ok v => .ok v
  | .error failure => .error (.document source (.text failure))

/-- Reads the value of the document in a file, or in the standard input. -/
def loadValue (options : Syntax.Options) : Option String → ExceptT Fault m Value
  | none => do
    let bytes ← readInput none
    settle (parsed options none bytes)
  | some path => do
    let bytes ← readFrom (fun fault => .document (some path) (.file path fault)) path
    settle (parsed options (some path) bytes)

/-- Writes characters to a file, or to the standard output. -/
def writeOutput (path : Option String) (text : List Char) : ExceptT Fault m Unit :=
  match path with
  | none => print text
  | some path => writeTo (.unwritable path) path (Utf8.encodeChars text)

/-- Prints characters and then a line feed. -/
def printLine (text : List Char) : ExceptT Fault m Unit :=
  print (text ++ ['\n'])

/-! ### Statistics -/

/-- A line of the counts: the name of a kind in a column of its own, and the count. -/
def countLine (s : Statistics) (kind : Kind) : List Char :=
  let label := kind.name.toList ++ [':']
  "  ".toList ++ label ++ List.replicate (12 - label.length) ' ' ++
    Nat.toDigits 10 (s.count kind)

/-- Prints the report on a document of a size: sizes, depth, and counts. -/
def printStatistics (size : Nat) (v : Value) : ExceptT Fault m Unit := do
  let s := Statistics.collect v
  let compact := v.dumpBytes.length
  printLine ("Input size:    ".toList ++ Nat.toDigits 10 size ++ " bytes".toList)
  printLine ("Compact size:  ".toList ++ Nat.toDigits 10 compact ++ " bytes".toList)
  printLine ("Max depth:     ".toList ++ Nat.toDigits 10 s.depth)
  printLine ("Nodes:         ".toList ++ Nat.toDigits 10 s.total)
  Kind.all.forM fun kind => printLine (countLine s kind)

/-! ### Units -/

/-- The unit of a value in hexadecimal, under the given tag or else its own. -/
def packText (tag : Option Packed.Tag) (v : Value) : Except Fault (List Char) :=
  match tag.or (Packed.Tag.ofKind? v.kind) with
  | none => .error (.notScalar v.kind)
  | some tag =>
    match Packed.pack tag (.value v) with
    | .ok unit => .ok (Hex.encode unit ++ ['\n'])
    | .error e => .error (.notPacked tag e)

/-- The value that stands for an error code in a list of units. -/
def errorValue (code : ErrorCode) : Value :=
  .object [("error", .integer (Int64.ofNat code.number)), ("message", .string code.message)]

/-- The value shown for the unit at a position, and the position past it. -/
def unitValue (buffer : List UInt8) (position : Nat) : Except Fault (Value × Nat) :=
  match Packed.unpack .error buffer position with
  | .ok (code, next) => .ok (errorValue code, next)
  | .error (.wrongUnit _ _) =>
    match Packed.unpack .value buffer position with
    | .ok (v, next) => .ok (v, next)
    | .error e => .error (.notUnit position e)
  | .error e => .error (.notUnit position e)

/-- A unit that is shown is not empty and lies within the buffer. -/
theorem unitValue_progress {buffer : List UInt8} {position next : Nat} {v : Value}
    (h : unitValue buffer position = .ok (v, next)) :
    position < next ∧ next ≤ buffer.length := by
  unfold unitValue at h
  split at h
  · next code q hq =>
    simp only [Except.ok.injEq, Prod.mk.injEq] at h
    exact h.2 ▸ Packed.unpack_progress hq
  · split at h
    · next w q hq =>
      cases h
      exact Packed.unpack_progress hq
    · simp at h
  · simp at h

/-- The values of the units from a position on, a line for each. -/
def unitLines (buffer : List UInt8) (position : Nat) : Except Fault (List Char) :=
  if position < buffer.length then
    match _h : unitValue buffer position with
    | .error e => .error e
    | .ok (v, next) =>
      match unitLines buffer next with
      | .ok lines => .ok (v.render .compact ++ '\n' :: lines)
      | .error e => .error e
  else .ok []
termination_by buffer.length - position
decreasing_by
  have := unitValue_progress ‹_›
  omega

/-- The lines for units that are given in hexadecimal, with blanks anywhere. -/
def unpackText (raw : List UInt8) : Except Fault (List Char) :=
  match Utf8.decodeText raw with
  | .error e => .error (.notText e)
  | .ok chars =>
    match Hex.decode (Utf8.encodeChars (chars.filter fun c => !Text.isBlank c)) with
    | .error e => .error (.notHex e)
    | .ok buffer => unitLines buffer 0

/-! ### UTF-8 -/

/-- The report on bytes that are well-formed UTF-8. -/
def utf8Text (raw : List UInt8) : Except Fault (List Char) :=
  match Utf8.decodePrefix raw with
  | (chars, []) =>
    .ok ("valid UTF-8: ".toList ++ Nat.toDigits 10 raw.length ++ " bytes, ".toList ++
      Nat.toDigits 10 chars.length ++ " code points\n".toList)
  | (_, rest) => .error (.malformed (raw.length - rest.length))

/-! ### Tasks -/

/-- **The steps of a task.** -/
def Task.perform (options : Syntax.Options) : Task → ExceptT Fault m Unit
  | .check input => do
    let _ ← loadValue options input
    printLine "ok".toList
  | .dump input output => do
    let v ← loadValue options input
    match output with
    | some path => writeTo (.unwritableDocument path) path v.dumpBytes
    | none => printLine (v.render .compact)
  | .stats input => do
    let bytes ← readInput input
    let v ← settle (parsed options input bytes)
    printStatistics bytes.length v
  | .pack input output tag => do
    let v ← loadValue options input
    let text ← settle (packText tag v)
    writeOutput output text
  | .unpack input output => do
    let raw ← readInput input
    let text ← settle (unpackText raw)
    writeOutput output text
  | .utf8 input => do
    let raw ← readInput input
    let text ← settle (utf8Text raw)
    print text

/-! ### Worlds -/

/-- A **world** that is data: what is left of the standard input, the files, and what has been
printed. -/
structure World where
  stdin : List UInt8
  files : Files
  output : List Char := []

instance : Surroundings (StateM World) where
  readStandardInput := modifyGet fun w => (w.stdin, { w with stdin := [] })
  readFile path := modifyGet fun w => (w.files.read path, w)
  writeFile path bytes := modifyGet fun w =>
    match w.files.write path bytes with
    | .ok files => (.ok (), { w with files })
    | .error fault => (.error fault, w)
  print text := modify fun w => { w with output := w.output ++ text }

/-- Takes steps in a world: their result, and the world after them. -/
def World.take {α : Type} (w : World) (steps : ExceptT Fault (StateM World) α) :
    Except Fault α × World :=
  (steps.run.run w).run

/-- The **outcome** of a command line: exit code, standard output, standard error, and the files
afterwards. What a usage error says on the standard error is not recorded. -/
structure Outcome where
  exit : Nat
  output : List Char := []
  report : Option String := none
  files : Files

/-- How a world is left, with or without a failure. -/
def Outcome.ofResult : Except Fault Unit × World → Outcome
  | (.ok (), w) => { exit := 0, output := w.output, files := w.files }
  | (.error fault, w) =>
    { exit := 1, output := w.output, report := some fault.report, files := w.files }

/-- Carries out an invocation. -/
def Invocation.run (stdin : List UInt8) (files : Files) (i : Invocation) : Outcome :=
  Outcome.ofResult (World.take { stdin, files } (i.task.perform i.options))

/-- The line that names the program and its version. -/
def versionLine : String := "jsson 0.1.0\n"

/-- Runs a **command line** over the standard input and a system of files. -/
def run (arguments : List String) (stdin : List UInt8) (files : Files) : Outcome :=
  match Invocation.ofArguments arguments with
  | .error .usage => { exit := 2, files }
  | .error .version => { exit := 0, output := versionLine.toList, files }
  | .error .help => { exit := 0, files }
  | .ok i => i.run stdin files

end StrictJson.Command
