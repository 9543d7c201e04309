import StrictJson.Exchange.Tree
import StrictJson.Machine.Command
import StrictJson.Main
import StrictJson.Packed.Stream
import StrictJson.Packed.WordLemmas
import StrictJson.Value.Equality
import StrictJson.Value.Identity
import StrictJson.Value.Place
import StrictJson.Proofs.Binary64.Decimal
import StrictJson.Proofs.Binary64.Signed
import StrictJson.Proofs.Utf8.Sequence
import StrictJson.Proofs.Utf8.WellFormed
import StrictJson.Proofs.Utf8.Boundary
import StrictJson.Proofs.Utf8.Synchronization
import StrictJson.Proofs.Packed.Unit
import StrictJson.Proofs.Syntax.Cursor
import StrictJson.Proofs.Syntax.Numeral
import StrictJson.Proofs.Syntax.Spelling
import StrictJson.Proofs.Syntax.Token
import StrictJson.Proofs.Syntax.Tree
import StrictJson.Proofs.Syntax.Reading
import StrictJson.Proofs.Syntax.Acceptance
import StrictJson.Proofs.Syntax.Constructs
import StrictJson.Proofs.Syntax.Grammar
import StrictJson.Proofs.Syntax.Nesting
import StrictJson.Proofs.Syntax.Offence
import StrictJson.Proofs.Syntax.NumberText
import StrictJson.Proofs.Syntax.NumberReading
import StrictJson.Proofs.Syntax.Restriction
import StrictJson.Proofs.Syntax.StringText
import StrictJson.Proofs.Syntax.StringReading
import StrictJson.Proofs.Value.Shape
import StrictJson.Proofs.Value.Written
import StrictJson.Proofs.Value.Admitted
import StrictJson.Proofs.Value.Canonical
import StrictJson.Proofs.Exchange.RoundTrip
import StrictJson.Proofs.Exchange.Serialization
import StrictJson.Proofs.Value.RoundTrip
import StrictJson.Proofs.Value.Printable
import StrictJson.Proofs.Hex.Entered
import StrictJson.Proofs.Files.Update
import StrictJson.Proofs.Command.Grammar
import StrictJson.Proofs.Command.Record
import StrictJson.Proofs.Command.Arguments
import StrictJson.Proofs.Command.Reading
import StrictJson.Proofs.Command.Outcome
import StrictJson.Proofs.Command.Unpack
import StrictJson.Proofs.Command.Pipeline
import StrictJson.Proofs.Command.Effects
import StrictJson.Proofs.Command.Utf8
import StrictJson.Proofs.Packed.Result
import StrictJson.Proofs.Packed.Row
import StrictJson.Proofs.Packed.Canonical
import StrictJson.Proofs.Packed.Run
import StrictJson.Proofs.Syntax.Hindrance
import StrictJson.Proofs.Syntax.Reach
import StrictJson.Proofs.Syntax.MoreInput
import StrictJson.Proofs.Syntax.Boundary
import StrictJson.Proofs.Syntax.SelfDelimiting
import StrictJson.Proofs.Packed.Agreement
import StrictJson.Proofs.Packed.Placement
import StrictJson.Proofs.Value.Statistics
import StrictJson.Proofs.Value.Minimal
import StrictJson.Proofs.Syntax.RealText
import StrictJson.Proofs.Value.History
import StrictJson.Proofs.Value.Edit
import StrictJson.Proofs.Syntax.Procedure
import StrictJson.Proofs.Syntax.DescentString
import StrictJson.Proofs.Syntax.NumberReader
import StrictJson.Proofs.Syntax.DescentNumber
import StrictJson.Proofs.Syntax.Descent
import StrictJson.Proofs.Machine.Safety
