import Mathlib.Data.List.Nodup
import Mathlib.Data.Nat.Digits.Defs
import StrictJson.Command.Arguments

/-!
# The Grammar of Command Lines

What a command line says, without a reader. Its arguments are items with a command among them. An
item is a long name, alone or with a value behind an equals sign or in the next argument, or a dash
with a row of letters, the last of which may have a value too. A value in an argument of its own is
no dash with something behind it.

An item says something about a switch or a setting. What is said must have its place before the
command or after it, and on either side nothing is said twice about one thing. The depth limit may
be set on both sides, and then the side after the command counts.

## Main definitions

* `Said`, `Item`, `Spells`: what is said, and the arguments that say it.
* `CommandLine`: a command with what is said before and after it.
* `Flags`, `Asked`: what is asked for.
* `Asks`, `AsksTyped`: some arguments ask for something.
-/

namespace StrictJson.Command

/-! ### Names -/

/-- The name of a command. -/
def Verb.name : Verb → String
  | check => "check"
  | dump => "dump"
  | stats => "stats"
  | pack => "pack"
  | unpack => "unpack"
  | utf8 => "utf8"

/-- The long name of a switch. -/
def Switch.name : Switch → String
  | verbose => "verbose"
  | rejectDuplicates => "reject-duplicates"
  | noNul => "no-nul"
  | version => "version"
  | help => "help"

/-- The letter of a switch, if it has one. -/
def Switch.letter? : Switch → Option Char
  | verbose => some 'v'
  | version => some 'V'
  | help => some 'h'
  | rejectDuplicates | noNul => none

/-- The long name of a setting. -/
def Setting.name : Setting → String
  | input => "input"
  | output => "output"
  | tag => "type"
  | maxDepth => "max-depth"

/-- The letter of a setting, if it has one. -/
def Setting.letter? : Setting → Option Char
  | input => some 'i'
  | output => some 'o'
  | tag => some 't'
  | maxDepth => none

/-- A **long name** behind two dashes. -/
def dashed (name : String) : List Char :=
  '-' :: '-' :: name.toList

/-! ### Items -/

/-- What is **said**: that a switch is on, or the value of a setting. -/
inductive Said where
  | switch (s : Switch)
  | setting (s : Setting) (value : List Char)
  deriving DecidableEq

/-- What it is said about. -/
def Said.subject : Said → Switch ⊕ Setting
  | .switch s => .inl s
  | .setting s _ => .inr s

/-- A value that may stand in an argument **of its own**: it is no dash with something behind it. -/
def StandsApart (value : List Char) : Prop :=
  ∀ c cs, value ≠ '-' :: c :: cs

/-- A row of **letters** behind a dash, the argument after it if that is a value, and what they
say. -/
inductive Letters : List Char → List (List Char) → List Said → Prop
  | nil : Letters [] [] []
  | switch {s : Switch} {c : Char} {row : List Char} {next : List (List Char)}
      {said : List Said} : s.letter? = some c → Letters row next said →
      Letters (c :: row) next (.switch s :: said)
  | equals {s : Setting} {c : Char} (value : List Char) : s.letter? = some c →
      Letters (c :: '=' :: value) [] [.setting s value]
  | attached {s : Setting} {c d : Char} (value : List Char) : s.letter? = some c →
      d ≠ '=' → Letters (c :: d :: value) [] [.setting s (d :: value)]
  | apart {s : Setting} {c : Char} {value : List Char} : s.letter? = some c →
      StandsApart value → Letters [c] [value] [.setting s value]

/-- An **item**: one or two arguments, and what they say. -/
inductive Item : List (List Char) → List Said → Prop
  | switch (s : Switch) : Item [dashed s.name] [.switch s]
  | equals (s : Setting) (value : List Char) :
      Item [dashed s.name ++ '=' :: value] [.setting s value]
  | apart (s : Setting) {value : List Char} : StandsApart value →
      Item [dashed s.name, value] [.setting s value]
  | letters {row : List Char} {next : List (List Char)} {said : List Said} :
      Letters row next said → row ≠ [] → Item (('-' :: row) :: next) said

/-- Arguments that are items one after the other **spell** what these say. -/
inductive Spells : List (List Char) → List Said → Prop
  | nil : Spells [] []
  | item {chunk rest : List (List Char)} {said more : List Said} :
      Item chunk said → Spells rest more → Spells (chunk ++ rest) (said ++ more)

/-! ### Command lines -/

/-- A **command line**: a command, and what is said before and after it. -/
structure CommandLine where
  before : List Said
  verb : Verb
  after : List Said

/-- Some arguments spell a command line. Two dashes may stand at the end. -/
def CommandLine.SpelledBy (c : CommandLine) (arguments : List String) : Prop :=
  ∃ first last, Spells first c.before ∧ Spells last c.after ∧
    (arguments.map String.toList = first ++ c.verb.name.toList :: last ∨
      arguments.map String.toList = first ++ c.verb.name.toList :: (last ++ [['-', '-']]))

/-- A **word** of 64 bits in decimal digits, with a plus sign in front if one likes. -/
def IsWord (text : List Char) (n : ℕ) : Prop :=
  ∃ digits : List Char, (text = digits ∨ text = '+' :: digits) ∧ digits ≠ [] ∧
    (∀ c ∈ digits, c.isDigit = true) ∧
    n = Nat.ofDigits 10 (digits.reverse.map fun c => c.toNat - '0'.toNat) ∧
    n < 0x10000000000000000

/-- What may be said after a command, or before one. Files belong to a command, and only `pack` has
a tag. -/
def Said.Allowed (verb : Option Verb) : Said → Prop
  | .switch .verbose | .switch .rejectDuplicates | .switch .noNul => True
  | .switch .version | .switch .help => False
  | .setting .input _ => verb ≠ none
  | .setting .output _ => verb = some .dump ∨ verb = some .pack ∨ verb = some .unpack
  | .setting .tag value => verb = some .pack ∧ ∃ tag : Packed.Tag, tag ≠ .error ∧
      value = tag.name.toList
  | .setting .maxDepth value => ∃ n, IsWord value n

/-! ### What is asked for -/

/-- The **flags** that say how strictly documents are to be read. -/
structure Flags where
  maxDepth : Option ℕ := none
  rejectDuplicates : Bool := false
  noNul : Bool := false

/-- The options under which documents are read. -/
def Flags.options (f : Flags) : Syntax.Options :=
  { maxDepth := f.maxDepth.getD 128, rejectDuplicates := f.rejectDuplicates, allowNul := !f.noNul }

/-- What a command line **asks for**: a command, flags, the files to read and to write, and the tag
to pack under. -/
structure Asked where
  verb : Verb
  flags : Flags := {}
  input : Option String := none
  output : Option String := none
  tag : Option Packed.Tag := none

/-- A command line **gives** what is asked for: all of it is allowed where it is said and said once,
and each thing asked for has been said. -/
structure CommandLine.Gives (c : CommandLine) (a : Asked) : Prop where
  verb : a.verb = c.verb
  allowed_before : ∀ x ∈ c.before, x.Allowed none
  allowed_after : ∀ x ∈ c.after, x.Allowed (some c.verb)
  once_before : (c.before.map Said.subject).Nodup
  once_after : (c.after.map Said.subject).Nodup
  rejectDuplicates : a.flags.rejectDuplicates = true ↔
    .switch .rejectDuplicates ∈ c.before ++ c.after
  noNul : a.flags.noNul = true ↔ .switch .noNul ∈ c.before ++ c.after
  maxDepth : ∀ n, a.flags.maxDepth = some n ↔
    (∃ text, .setting .maxDepth text ∈ c.after ∧ IsWord text n) ∨
    (∀ text, .setting .maxDepth text ∉ c.after) ∧
      ∃ text, .setting .maxDepth text ∈ c.before ∧ IsWord text n
  input : ∀ path, a.input = some path ↔ .setting .input path.toList ∈ c.after
  output : ∀ path, a.output = some path ↔ .setting .output path.toList ∈ c.after
  tag : ∀ tag : Packed.Tag, a.tag = some tag ↔ .setting .tag tag.name.toList ∈ c.after

/-- Some arguments **ask** for something. -/
def Asks (arguments : List String) (a : Asked) : Prop :=
  ∃ c : CommandLine, c.SpelledBy arguments ∧ c.Gives a

/-- Some arguments ask for something and **for a type** besides: behind the command one thing more
is said, that the type to pack under has this name. It may name no type. -/
def AsksTyped (arguments : List String) (a : Asked) (name : String) : Prop :=
  ∃ (c : CommandLine) (first last : List Said), c.Gives a ∧ c.after = first ++ last ∧
    ({ c with after := first ++ .setting .tag name.toList :: last } : CommandLine).SpelledBy
      arguments

/-- An argument that can be a **request** for help or for the version: a word, a long name, or a row
of letters. Only the letter of a switch can come before the one that asks. -/
def IsRequest (argument : String) : Prop :=
  argument = "help" ∨ argument = "--help" ∨ argument = "--version" ∨
    ∃ (n : ℕ) (c : Char) (row : List Char), (c = 'h' ∨ c = 'V') ∧
      argument.toList = '-' :: (List.replicate n 'v' ++ c :: row)

/-- The task and the options that are asked for. -/
def Asked.invocation (a : Asked) : Invocation :=
  { options := a.flags.options
    task := match a.verb with
      | .check => .check a.input
      | .dump => .dump a.input a.output
      | .stats => .stats a.input
      | .pack => .pack a.input a.output a.tag
      | .unpack => .unpack a.input a.output
      | .utf8 => .utf8 a.input }

end StrictJson.Command
