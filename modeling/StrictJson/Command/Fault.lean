import StrictJson.Files.Document
import StrictJson.Hex.Bytes
import StrictJson.Packed.Reader
import StrictJson.Packed.Writer
import StrictJson.Utf8.Table

/-!
# Failures of a Command

What can stop a command, and how it is told on the standard error: a headline, and below it the
cause if there is one besides.
-/

namespace StrictJson.Command

/-- The reasons why a command **fails**. -/
inductive Fault where
  /-- The input is no document. -/
  | document (source : Option String) (cause : DocumentFault)
  /-- The input cannot be read. -/
  | unreadable (path : String) (cause : FileFault)
  /-- The output cannot be written. -/
  | unwritable (path : String) (cause : FileFault)
  /-- The output of a document cannot be written. -/
  | unwritableDocument (path : String) (cause : FileFault)
  /-- A value without a tag was to be packed. -/
  | notScalar (kind : Kind)
  /-- A value cannot be packed under a tag. -/
  | notPacked (tag : Packed.Tag) (cause : Packed.PackFault)
  /-- Hexadecimal input is not well-formed UTF-8. -/
  | notText (cause : Utf8.Fault)
  /-- Hexadecimal input has an odd length or a character that is no digit. -/
  | notHex (cause : Hex.Fault)
  /-- The unit at a position cannot be read. -/
  | notUnit (position : Nat) (cause : Packed.UnpackFault)
  /-- The input is not well-formed UTF-8. -/
  | malformed (index : Nat)
  deriving DecidableEq, Repr

namespace Fault

/-- The headline of a failure. -/
def headline : Fault → String
  | document source _ => "Invalid JSON in " ++ source.getD "<stdin>"
  | unreadable path _ => "Failed to read file: " ++ path
  | unwritable path _ | unwritableDocument path _ => "Failed to write file: " ++ path
  | notScalar kind => "Only scalar values can be packed, found " ++ kind.name
  | notPacked tag _ => "Failed to pack value as " ++ tag.name
  | notText _ => "Hex input is not valid UTF-8"
  | notHex _ => "Input is not valid hex"
  | notUnit position _ => "Failed to unpack unit at byte " ++ toString position
  | malformed index => "Invalid UTF-8 at byte " ++ toString index

/-- The cause below the headline, if there is one besides. -/
def cause : Fault → Option String
  | document _ cause => some cause.toError.text
  | unreadable _ cause | unwritable _ cause => some cause.text
  | unwritableDocument path cause => some (cause.toError path).text
  | notPacked _ cause => some cause.toError.text
  | notText cause => some cause.text
  | notHex cause => some cause.text
  | notUnit _ cause => some cause.toError.text
  | notScalar _ | malformed _ => none

/-- A text with every line but the first moved in by four places. -/
def indented (text : String) : String :=
  String.ofList (text.toList.flatMap fun c => if c = '\n' then "\n    ".toList else [c])

/-- What a failure writes to the standard error. -/
def report (f : Fault) : String :=
  match f.cause with
  | none => "Error: " ++ f.headline ++ "\n"
  | some cause => "Error: " ++ f.headline ++ "\n\nCaused by:\n    " ++ indented cause ++ "\n"

end Fault

end StrictJson.Command
