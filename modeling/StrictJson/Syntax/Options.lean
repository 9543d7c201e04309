/-!
# Reading Options

The three choices that a reader of documents leaves open. Each of them only ever refuses more.
-/

namespace StrictJson.Syntax

/-- How strictly a document is read. -/
structure Options where
  /-- The greatest number of containers around one another. -/
  maxDepth : Nat := 128
  /-- Whether an object that repeats a key is refused. If not, the last value stands. -/
  rejectDuplicates : Bool := false
  /-- Whether an escape may spell the character of number zero. -/
  allowNul : Bool := true
  deriving DecidableEq, Repr, Inhabited

/-- The options for input that is not trusted: no repeated key and no character zero. -/
def Options.strict : Options :=
  { rejectDuplicates := true, allowNul := false }

end StrictJson.Syntax
