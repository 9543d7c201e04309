import StrictJson.Command.Run
import StrictJson.Proofs.Command.Arguments

/-!
# What Comes of a Command

A command takes its steps in a world, and each step is final. Still its outcome can be told at once:
either it fails, and then it has printed nothing and written nothing, or it makes one text out of
its input, which is printed or is written to the one file that was named. For the steps come in this
order. The input is read first, which changes neither files nor output. What is made of it is made
without touching the world. Only then does a command print or write, and after that nothing fails.

## Main definitions

* `Task.readInput`: the input of a task among files and the standard input.
* `Task.text`: what a task makes of its input.
* `conclude`: the outcome of a task with this text, or with a failure.

## Main results

* `World.take_bind_ok`, `World.take_bind_error`: steps are taken one after the other.
* `Invocation.run_eq`: what comes of the steps of a task.
* `Asks.run_eq`: what comes of arguments, told by what they ask for.
-/

namespace StrictJson.Command

variable {options : Syntax.Options} {stdin : List UInt8} {files : Files}

/-! ### The input and the text of a task -/

/-- The file that a task reads, if it reads one. -/
def Task.input : Task → Option String
  | check input | dump input _ | stats input | pack input _ _ | unpack input _ | utf8 input => input

/-- The file that a task writes, if it writes one. -/
def Task.output : Task → Option String
  | check _ | stats _ | utf8 _ => none
  | dump _ output | pack _ output _ | unpack _ output => output

/-- A file that could not be opened, and why. -/
structure Unopened where
  path : String
  fault : FileFault
  deriving DecidableEq, Repr

/-- The **input** of a command: its bytes, or the file that should have held them. -/
abbrev Input := Except Unopened (List UInt8)

/-- The input that comes from a file, or from the standard input. -/
def inputFrom (stdin : List UInt8) (files : Files) : Option String → Input
  | none => .ok stdin
  | some path =>
    match files.read path with
    | .ok bytes => .ok bytes
    | .error fault => .error ⟨path, fault⟩

/-- The input of a task among files and the standard input. -/
def Task.readInput (stdin : List UInt8) (files : Files) (task : Task) : Input :=
  inputFrom stdin files task.input

/-- The bytes of an input. -/
def rawInput : Input → Except Fault (List UInt8)
  | .ok bytes => .ok bytes
  | .error e => .error (.unreadable e.path e.fault)

/-- The value of the document that an input holds. -/
def loaded (options : Syntax.Options) (source : Option String) : Input → Except Fault Value
  | .ok bytes => parsed options source bytes
  | .error e => .error (.document source (.file e.path e.fault))

/-- The lines of the report on a document of a size. -/
def statisticsLines (size : ℕ) (v : Value) : List (List Char) :=
  let s := Statistics.collect v
  ["Input size:    ".toList ++ Nat.toDigits 10 size ++ " bytes".toList,
    "Compact size:  ".toList ++ Nat.toDigits 10 v.dumpBytes.length ++ " bytes".toList,
    "Max depth:     ".toList ++ Nat.toDigits 10 s.depth,
    "Nodes:         ".toList ++ Nat.toDigits 10 s.total] ++ Kind.all.map (countLine s)

/-- Lines as one text. -/
def unlined (lines : List (List Char)) : List Char :=
  lines.flatMap (· ++ ['\n'])

/-- The **text** that a task makes of its input. -/
def Task.text (options : Syntax.Options) (input : Input) : Task → Except Fault (List Char)
  | .check source => (loaded options source input).bind fun _ => .ok "ok\n".toList
  | .dump source _ => (loaded options source input).bind fun v => .ok (v.render .compact)
  | .stats source =>
    (rawInput input).bind fun bytes =>
      (parsed options source bytes).bind fun v => .ok (unlined (statisticsLines bytes.length v))
  | .pack source _ tag => (loaded options source input).bind (packText tag)
  | .unpack _ _ => (rawInput input).bind unpackText
  | .utf8 _ => (rawInput input).bind utf8Text

/-- What the standard output has **at the end** and a file has not: the line feed after a
document. -/
def Task.ending : Task → List Char
  | .dump _ _ => ['\n']
  | _ => []

/-- How a task reports that its output cannot be written. -/
def Task.writeFault : Task → String → FileFault → Fault
  | .dump _ _ => .unwritableDocument
  | _ => .unwritable

/-- The outcome of a failure. It has changed no file and printed nothing. -/
def failed (files : Files) (fault : Fault) : Outcome :=
  { exit := 1, report := some fault.report, files }

/-- The outcome of a text: it is printed, or it is written to a file. -/
def deliver (files : Files) (task : Task) (text : List Char) : Outcome :=
  match task.output with
  | none => { exit := 0, output := text ++ task.ending, files }
  | some path =>
    match files.write path (Utf8.encodeChars text) with
    | .ok files => { exit := 0, files }
    | .error e => failed files (task.writeFault path e)

/-- The **outcome** of a task that has made a text or failed. -/
def conclude (files : Files) (task : Task) : Except Fault (List Char) → Outcome
  | .ok text => deliver files task text
  | .error e => failed files e

section

variable {task : Task} {text : List Char} {path : String}

/-- A text that goes to the standard output is printed with its ending. -/
theorem conclude_eq_printed (h : task.output = none) :
    conclude files task (.ok text) = { exit := 0, output := text ++ task.ending, files } := by
  rw [conclude, deliver, h]

/-- A text that goes to a file is written there, and nothing is printed. -/
theorem conclude_eq_written {files' : Files} (h : task.output = some path)
    (hwrite : files.write path (Utf8.encodeChars text) = .ok files') :
    conclude files task (.ok text) = { exit := 0, files := files' } := by
  rw [conclude, deliver, h]
  simp only [hwrite]

end

/-! ### Steps -/

namespace World

variable {α β : Type} {w w' : World} {steps : ExceptT Fault (StateM World) α}

/-- Steps that succeed are followed by the next ones, in the world that they leave. -/
theorem take_bind_ok {a : α} (h : w.take steps = (.ok a, w'))
    (next : α → ExceptT Fault (StateM World) β) : w.take (steps >>= next) = w'.take (next a) := by
  simp only [take] at h
  simp [take, ExceptT.run_bind, h]

/-- Steps that fail are followed by nothing, and leave the world as they have made it. -/
theorem take_bind_error {e : Fault} (h : w.take steps = (.error e, w'))
    (next : α → ExceptT Fault (StateM World) β) : w.take (steps >>= next) = (.error e, w') := by
  simp only [take] at h
  simp [take, ExceptT.run_bind, h]

theorem take_settle (result : Except Fault α) : w.take (settle result) = (result, w) :=
  rfl

/-! ### Printing -/

theorem take_print (text : List Char) :
    w.take (print text) = (.ok (), { w with output := w.output ++ text }) :=
  rfl

theorem take_printLine (text : List Char) :
    w.take (printLine text) = (.ok (), { w with output := w.output ++ (text ++ ['\n']) }) :=
  rfl

/-- Lines that are printed one after the other come to one text. -/
theorem take_forM_printLine (f : Kind → List Char) (kinds : List Kind) :
    w.take (kinds.forM fun kind => printLine (f kind)) =
      (.ok (), { w with output := w.output ++ unlined (kinds.map f) }) := by
  induction kinds generalizing w with
  | nil =>
      rw [List.map_nil, unlined, List.flatMap_nil, List.append_nil]
      rfl
  | cons kind kinds ih =>
      have hfirst := take_bind_ok (w := w) (take_printLine (f kind)) fun _ =>
        kinds.forM fun kind => printLine (f kind)
      rw [ih, List.append_assoc] at hfirst
      exact hfirst

/-- **The report on a document is printed line by line.** -/
theorem take_printStatistics (size : ℕ) (v : Value) :
    w.take (printStatistics size v) =
      (.ok (), { w with output := w.output ++ unlined (statisticsLines size v) }) := by
  simp only [printStatistics]
  rw [take_bind_ok (take_printLine _), take_bind_ok (take_printLine _),
    take_bind_ok (take_printLine _), take_bind_ok (take_printLine _), take_forM_printLine]
  simp only [statisticsLines, unlined, List.cons_append, List.nil_append, List.flatMap_cons,
    List.append_assoc]

/-! ### Reading -/

/-- The world when an input has been read: of the standard input nothing is left. -/
def past (w : World) : Option String → World
  | none => { w with stdin := [] }
  | some _ => w

@[simp] theorem files_past (source : Option String) : (w.past source).files = w.files := by
  cases source <;> rfl

@[simp] theorem output_past (source : Option String) : (w.past source).output = w.output := by
  cases source <;> rfl

theorem take_readFrom (report : FileFault → Fault) (path : String) :
    w.take (readFrom report path) = ((w.files.read path).mapError report, w) := by
  have hstep : w.take (readFile path) = (.ok (w.files.read path), w) := rfl
  rw [readFrom, take_bind_ok hstep]
  cases w.files.read path <;> rfl

/-- **Reading an input** gives its bytes and changes neither files nor output. -/
theorem take_readInput (source : Option String) :
    w.take (readInput source) = (rawInput (inputFrom w.stdin w.files source), w.past source) := by
  cases source with
  | none => rfl
  | some path =>
      rw [readInput, take_readFrom, inputFrom]
      cases w.files.read path <;> rfl

/-- **Reading a document** gives its value and changes neither files nor output. -/
theorem take_loadValue (source : Option String) :
    w.take (loadValue options source) =
      (loaded options source (inputFrom w.stdin w.files source), w.past source) := by
  cases source with
  | none =>
      rw [loadValue, take_bind_ok (take_readInput none), take_settle]
      rfl
  | some path =>
      have hstep := take_readFrom (w := w)
        (fun fault => .document (some path) (.file path fault)) path
      rw [loadValue, inputFrom]
      cases hfile : w.files.read path with
      | ok bytes =>
          rw [hfile] at hstep
          exact take_bind_ok hstep _
      | error fault =>
          rw [hfile] at hstep
          exact take_bind_error hstep _

/-! ### Writing -/

/-- **Writing a file** changes the files, or fails and changes nothing. -/
theorem take_writeTo (report : FileFault → Fault) (path : String) (bytes : List UInt8) :
    (∀ files, w.files.write path bytes = .ok files →
      w.take (writeTo report path bytes) = (.ok (), { w with files })) ∧
    ∀ fault, w.files.write path bytes = .error fault →
      w.take (writeTo report path bytes) = (.error (report fault), w) := by
  refine ⟨fun files h => ?_, fun fault h => ?_⟩
  · have hstep : w.take (writeFile path bytes) = (.ok (.ok ()), { w with files }) := by
      simp [take, writeFile, h]
    rw [writeTo, take_bind_ok hstep]
    rfl
  · have hstep : w.take (writeFile path bytes) = (.ok (.error fault), w) := by
      simp [take, writeFile, h]
    rw [writeTo, take_bind_ok hstep]
    rfl

end World

/-! ### Tasks -/

variable {w w' : World} {task : Task} {text : List Char}

/-- **Steps that print and write nothing** hand on their result, or their failure is that of the
task. -/
theorem ofResult_bind {α : Type} {steps : ExceptT Fault (StateM World) α} {result : Except Fault α}
    (h : w.take steps = (result, w')) (hfiles : w'.files = files) (houtput : w'.output = [])
    {next : α → ExceptT Fault (StateM World) Unit} {made : α → Except Fault (List Char)}
    (hnext : ∀ a, Outcome.ofResult (w'.take (next a)) = conclude files task (made a)) :
    Outcome.ofResult (w.take (steps >>= next)) = conclude files task (result.bind made) := by
  cases result with
  | ok a =>
      rw [World.take_bind_ok h]
      exact hnext a
  | error e =>
      rw [World.take_bind_error h, Outcome.ofResult, hfiles, houtput]
      rfl

/-- A task goes on with its text, or it has failed to make one. -/
theorem ofResult_settle (hfiles : w.files = files) (houtput : w.output = [])
    {made : Except Fault (List Char)} {next : List Char → ExceptT Fault (StateM World) Unit}
    (hnext : ∀ text, Outcome.ofResult (w.take (next text)) = conclude files task (.ok text)) :
    Outcome.ofResult (w.take (settle made >>= next)) = conclude files task made := by
  rw [ofResult_bind (World.take_settle made) hfiles houtput hnext]
  cases made <;> rfl

/-- A task that writes no file prints its text. -/
theorem ofResult_print (hfiles : w.files = files) (houtput : w.output = [])
    (htask : task.output = none) {printed : List Char} (hprinted : printed = text ++ task.ending) :
    Outcome.ofResult (w.take (print printed)) = conclude files task (.ok text) := by
  rw [World.take_print, Outcome.ofResult, conclude_eq_printed htask, hfiles, houtput, hprinted]
  rfl

/-- A task that writes a file writes its text there. -/
theorem ofResult_writeTo (task : Task) {path : String} (hfiles : w.files = files)
    (houtput : w.output = []) (htask : task.output = some path) :
    Outcome.ofResult (w.take (writeTo (task.writeFault path) path (Utf8.encodeChars text))) =
      conclude files task (.ok text) := by
  obtain ⟨hok, herror⟩ :=
    World.take_writeTo (w := w) (task.writeFault path) path (Utf8.encodeChars text)
  rw [conclude, deliver, htask]
  simp only [← hfiles]
  cases hwrite : w.files.write path (Utf8.encodeChars text) with
  | ok files' => rw [hok _ hwrite, Outcome.ofResult, houtput]
  | error fault =>
      rw [herror _ hwrite, Outcome.ofResult, houtput]
      rfl

/-- Text that goes to a file or to the standard output is delivered. -/
theorem ofResult_writeOutput (task : Task) (hfiles : w.files = files) (houtput : w.output = [])
    (hending : task.ending = []) (hfault : ∀ path, task.writeFault path = .unwritable path) :
    Outcome.ofResult (w.take (writeOutput task.output text)) = conclude files task (.ok text) := by
  cases hpath : task.output with
  | none => exact ofResult_print hfiles houtput hpath (by rw [hending, List.append_nil])
  | some path =>
      rw [writeOutput, ← hfault]
      exact ofResult_writeTo task hfiles houtput hpath

/-- **What comes of the steps of a task**: it fails and has done nothing, or it delivers its
text. -/
theorem Invocation.run_eq (i : Invocation) :
    i.run stdin files =
      conclude files i.task (i.task.text i.options (i.task.readInput stdin files)) := by
  obtain ⟨task, options⟩ := i
  have hload : World.take { stdin, files } (loadValue options task.input) = _ :=
    World.take_loadValue task.input
  have hread := World.take_readInput (w := { stdin, files }) task.input
  have hfiles : (World.past { stdin, files } task.input).files = files := World.files_past _
  have houtput : (World.past { stdin, files } task.input).output = [] := World.output_past _
  rw [run]
  cases task with
  | check input =>
      exact ofResult_bind hload hfiles houtput fun v => ofResult_print hfiles houtput rfl rfl
  | dump input output =>
      refine ofResult_bind hload hfiles houtput fun v => ?_
      cases output with
      | none => exact ofResult_print hfiles houtput rfl rfl
      | some path =>
          exact ofResult_writeTo (.dump input (some path)) hfiles houtput rfl
  | stats input =>
      refine ofResult_bind hread hfiles houtput fun bytes => ?_
      refine ofResult_bind (World.take_settle _) hfiles houtput fun v => ?_
      rw [World.take_printStatistics, ← World.take_print]
      exact ofResult_print hfiles houtput rfl (List.append_nil _).symm
  | pack input output tag =>
      refine ofResult_bind hload hfiles houtput fun v => ?_
      exact ofResult_settle hfiles houtput fun text =>
        ofResult_writeOutput (.pack input output tag) hfiles houtput rfl fun _ => rfl
  | unpack input output =>
      refine ofResult_bind hread hfiles houtput fun raw => ?_
      exact ofResult_settle hfiles houtput fun text =>
        ofResult_writeOutput (.unpack input output) hfiles houtput rfl fun _ => rfl
  | utf8 input =>
      refine ofResult_bind hread hfiles houtput fun raw => ?_
      exact ofResult_settle hfiles houtput fun text =>
        ofResult_print hfiles houtput rfl (List.append_nil _).symm

section

variable {arguments : List String} {a : Asked}

theorem readInput_task (a : Asked) :
    a.invocation.task.readInput stdin files = inputFrom stdin files a.input := by
  obtain ⟨verb, flags, input, output, tag⟩ := a
  cases verb <;> rfl

/-- **Some arguments are carried out as what they ask for.** -/
theorem Asks.run_eq (h : Asks arguments a) (stdin : List UInt8) (files : Files) :
    run arguments stdin files =
      conclude files a.invocation.task
        (a.invocation.task.text a.flags.options (inputFrom stdin files a.input)) := by
  rw [Command.run, ofArguments_of_asks h, ← readInput_task]
  exact Invocation.run_eq a.invocation

end

end StrictJson.Command
