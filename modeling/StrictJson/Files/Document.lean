import StrictJson.Files.Basic
import StrictJson.Syntax.Document
import StrictJson.Value.Writer

/-!
# Documents in Files

Reading the document of a file, and writing the compact text of a value to one.
-/

namespace StrictJson

/-- The reasons why a document could not be had from its source. -/
inductive DocumentFault where
  /-- The file at the path cannot be opened. -/
  | file (path : String) (fault : FileFault)
  /-- The text is no document. -/
  | text (failure : Syntax.Failure)
  deriving DecidableEq, Repr

/-- Reports that no document could be had. -/
def DocumentFault.toError : DocumentFault → Error
  | file path fault => fault.toError path
  | text failure => failure.toError

namespace Files

/-- The value of the document in the file at a path. -/
def readDocument (options : Syntax.Options) (files : Files) (path : String) :
    Except DocumentFault Value :=
  match files.read path with
  | .error e => .error (.file path e)
  | .ok bytes =>
    match parse options bytes with
    | .ok v => .ok v
    | .error e => .error (.text e)

/-- The files after the compact text of a value has been written to a path. -/
def writeDocument (files : Files) (path : String) (v : Value) : Except FileFault Files :=
  files.write path v.dumpBytes

end Files

end StrictJson
