import StrictJson.Packed.Scalar
import StrictJson.Syntax.Options

/-!
# Arguments

The command line: one of six commands, with settings that belong to it and settings that may stand
on either side of it. Arguments are taken from left to right. Each one is a command, a switch, or a
setting with its value attached or in the next argument; a value in the next argument does not start
with a dash. On either side of the command a switch or setting stands once, and the one after the
command wins.

What does not fit is a usage error. A request for help or for the version ends the reading where it
stands, so it hides what is wrong behind it but not what is wrong before it. Help that is asked for
by a word, in the place of a command, may be followed by the name of what it is to be about.

## Main definitions

* `Task`, `Invocation`: what a command line asks for.
* `Invocation.ofArguments`
-/

namespace StrictJson.Command

/-- The six commands by name. -/
inductive Verb where
  | check
  | dump
  | stats
  | pack
  | unpack
  | utf8
  deriving DecidableEq, Repr

/-- The command with the given name. -/
def Verb.ofName? (name : String) : Option Verb :=
  if name = "check" then some check
  else if name = "dump" then some dump
  else if name = "stats" then some stats
  else if name = "pack" then some pack
  else if name = "unpack" then some unpack
  else if name = "utf8" then some utf8
  else none

/-- A **task**: a command with the settings that belong to it. Without a file to read it takes the
standard input, and without one to write it uses the standard output. -/
inductive Task where
  | check (input : Option String)
  | dump (input output : Option String)
  | stats (input : Option String)
  | pack (input output : Option String) (tag : Option Packed.Tag)
  | unpack (input output : Option String)
  | utf8 (input : Option String)
  deriving DecidableEq, Repr

/-- An **invocation**: a task, and how strictly documents are to be read for it. -/
structure Invocation where
  task : Task
  options : Syntax.Options
  deriving DecidableEq, Repr

/-- The reasons why a command line asks for no task. -/
inductive Stop where
  /-- The arguments do not fit. -/
  | usage
  /-- The version was asked for. -/
  | version
  /-- Help was asked for. -/
  | help
  deriving DecidableEq, Repr

/-! ### Help by a word -/

/-- The word that asks for help in the place of a command. -/
def helpWord : String := "help"

/-- What the arguments after the word for help come to. They name at most one topic, and each
command is a topic, as is help itself; no switch or setting has a place there. -/
def Stop.ofTopics : List String → Stop
  | [] => .help
  | [topic] => if topic = helpWord ∨ (Verb.ofName? topic).isSome then .help else .usage
  | _ => .usage

/-! ### Switches and settings -/

/-- An argument that says all by being there. -/
inductive Switch where
  | verbose
  | rejectDuplicates
  | noNul
  | version
  | help
  deriving DecidableEq, Repr

/-- An argument that comes with a value. -/
inductive Setting where
  | input
  | output
  | tag
  | maxDepth
  deriving DecidableEq, Repr

/-- The switch with a long name. -/
def Switch.ofName? (name : List Char) : Option Switch :=
  if name = "verbose".toList then some verbose
  else if name = "reject-duplicates".toList then some rejectDuplicates
  else if name = "no-nul".toList then some noNul
  else if name = "version".toList then some version
  else if name = "help".toList then some help
  else none

/-- The switch with a letter. -/
def Switch.ofLetter? (letter : Char) : Option Switch :=
  if letter = 'v' then some verbose
  else if letter = 'V' then some version
  else if letter = 'h' then some help
  else none

/-- The setting with a long name. -/
def Setting.ofName? (name : List Char) : Option Setting :=
  if name = "input".toList then some input
  else if name = "output".toList then some output
  else if name = "type".toList then some tag
  else if name = "max-depth".toList then some maxDepth
  else none

/-- The setting with a letter. -/
def Setting.ofLetter? (letter : Char) : Option Setting :=
  if letter = 'i' then some input
  else if letter = 'o' then some output
  else if letter = 't' then some tag
  else none

/-- Whether a switch may stand after a command, or before one. The version can only be asked for
before. -/
def Switch.fits (verb : Option Verb) : Switch → Bool
  | version => verb.isNone
  | _ => true

/-- Whether a setting belongs to a command, or may stand before one. -/
def Setting.fits (verb : Option Verb) : Setting → Bool
  | maxDepth => true
  | input => verb.isSome
  | output => verb = some .dump ∨ verb = some .pack ∨ verb = some .unpack
  | tag => verb = some .pack

/-- The tag with the given name. There is none for error codes. -/
def tagOfName? (name : String) : Option Packed.Tag :=
  if name = "integer" then some .integer
  else if name = "real" then some .real
  else if name = "boolean" then some .boolean
  else if name = "string" then some .string
  else if name = "null" then some .null
  else none

/-- The number that decimal digits spell. It has to fit a word of 64 bits. -/
def wordOfDigits? (digits : List Char) : Option Nat :=
  if digits.isEmpty ∨ !digits.all Char.isDigit then none
  else
    let n := digits.foldl (fun n c => n * 10 + (c.toNat - '0'.toNat)) 0
    if n < 0x10000000000000000 then some n else none

/-- The number of a text: decimal digits, with a plus sign in front if one likes. -/
def wordOfText? : List Char → Option Nat
  | '+' :: digits => wordOfDigits? digits
  | digits => wordOfDigits? digits

/-! ### Reading -/

/-- What the arguments on one side of the command have said. -/
structure Given where
  switches : List Switch := []
  input : Option String := none
  output : Option String := none
  tag : Option Packed.Tag := none
  maxDepth : Option Nat := none
  deriving DecidableEq, Repr

/-- The state of reading: the command, if it has been named, what was said before it and on the
present side of it, and the setting whose value has to come next. -/
structure Reading where
  verb : Option Verb := none
  before : Given := {}
  here : Given := {}
  pending : Option Setting := none
  deriving DecidableEq, Repr

namespace Reading

/-- Takes a switch. -/
def turnOn (r : Reading) (switch : Switch) : Except Stop Reading :=
  if !switch.fits r.verb then .error .usage
  else if switch = .version then .error .version
  else if switch = .help then .error .help
  else if switch ∈ r.here.switches then .error .usage
  else .ok { r with here := { r.here with switches := switch :: r.here.switches } }

/-- Takes a setting with its value. -/
def set (r : Reading) (setting : Setting) (value : List Char) : Except Stop Reading :=
  let text := String.ofList value
  if !setting.fits r.verb then .error .usage
  else
    match setting with
    | .input =>
      if r.here.input.isSome then .error .usage
      else .ok { r with here := { r.here with input := some text }, pending := none }
    | .output =>
      if r.here.output.isSome then .error .usage
      else .ok { r with here := { r.here with output := some text }, pending := none }
    | .tag =>
      match r.here.tag, tagOfName? text with
      | none, some tag => .ok { r with here := { r.here with tag := some tag }, pending := none }
      | _, _ => .error .usage
    | .maxDepth =>
      match r.here.maxDepth, wordOfText? value with
      | none, some n => .ok { r with here := { r.here with maxDepth := some n }, pending := none }
      | _, _ => .error .usage

/-- Takes a setting whose value has to come next. -/
def await (r : Reading) (setting : Setting) : Except Stop Reading :=
  if setting.fits r.verb then .ok { r with pending := some setting } else .error .usage

/-- Takes a long name, with or without an attached value. -/
def takeName (r : Reading) (argument : List Char) : Except Stop Reading :=
  let name := argument.takeWhile (· ≠ '=')
  match Switch.ofName? name, Setting.ofName? name, argument.dropWhile (· ≠ '=') with
  | some switch, _, [] => r.turnOn switch
  | none, some setting, [] => r.await setting
  | none, some setting, _ :: value => r.set setting value
  | _, _, _ => .error .usage

/-- Takes a row of letters. A setting takes the letters after it for its value; if there are none,
the value has to come next. -/
def takeLetters (r : Reading) : List Char → Except Stop Reading
  | [] => .ok r
  | letter :: letters =>
    match Switch.ofLetter? letter, Setting.ofLetter? letter with
    | some switch, _ =>
      match r.turnOn switch with
      | .ok r => r.takeLetters letters
      | .error e => .error e
    | none, some setting =>
      match letters with
      | [] => r.await setting
      | '=' :: value => r.set setting value
      | value => r.set setting value
    | none, none => .error .usage

/-- Takes a word: the command, if none has been named. -/
def takeWord (r : Reading) (word : List Char) : Except Stop Reading :=
  if r.verb.isSome then .error .usage
  else
    match Verb.ofName? (String.ofList word) with
    | some verb => .ok { verb := some verb, before := r.here }
    | none => .error .usage

/-- Takes an argument. -/
def take (r : Reading) (argument : List Char) : Except Stop Reading :=
  match r.pending, argument with
  | some _, '-' :: _ :: _ => .error .usage
  | some setting, value => r.set setting value
  | none, '-' :: '-' :: name => r.takeName name
  | none, '-' :: letter :: letters => r.takeLetters (letter :: letters)
  | none, word => r.takeWord word

/-- What the arguments ask for once all are taken. -/
def finish (r : Reading) : Except Stop Invocation :=
  if r.pending.isSome then .error .usage
  else
    let switches := r.here.switches ++ r.before.switches
    let options : Syntax.Options :=
      { maxDepth := (r.here.maxDepth.or r.before.maxDepth).getD ({} : Syntax.Options).maxDepth
        rejectDuplicates := switches.contains .rejectDuplicates
        allowNul := !switches.contains .noNul }
    match r.verb with
    | none => .error .usage
    | some .check => .ok ⟨.check r.here.input, options⟩
    | some .dump => .ok ⟨.dump r.here.input r.here.output, options⟩
    | some .stats => .ok ⟨.stats r.here.input, options⟩
    | some .pack => .ok ⟨.pack r.here.input r.here.output r.here.tag, options⟩
    | some .unpack => .ok ⟨.unpack r.here.input r.here.output, options⟩
    | some .utf8 => .ok ⟨.utf8 r.here.input, options⟩

/-- Whether the word for help comes next: it stands in the place of a command, not of a value. -/
def asksForHelp (r : Reading) (argument : String) : Bool :=
  r.pending.isNone && r.verb.isNone && argument = helpWord

/-- Takes all arguments. Two dashes alone announce words, of which no command takes any. -/
def takeAll (r : Reading) : List String → Except Stop Invocation
  | [] => r.finish
  | argument :: rest =>
    if r.pending.isNone ∧ argument = "--" then
      if rest.isEmpty then r.finish else .error .usage
    else if r.asksForHelp argument then .error (Stop.ofTopics rest)
    else
      match r.take argument.toList with
      | .ok r => r.takeAll rest
      | .error e => .error e

end Reading

/-- What a command line asks for. -/
def Invocation.ofArguments (arguments : List String) : Except Stop Invocation :=
  Reading.takeAll {} arguments

end StrictJson.Command
