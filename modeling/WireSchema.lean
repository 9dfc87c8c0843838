import WireSchema.Main
import WireSchema.Transaction.AccountProperties
import WireSchema.Transaction.Aggregate
import WireSchema.Transaction.Schema
import WireSchema.Document.Write
import WireSchema.Proofs.Outcome
import WireSchema.Proofs.Resolve.Wiring
import WireSchema.Proofs.Resolve.Layered
import WireSchema.Proofs.Resolve.Declaration
import WireSchema.Proofs.Resolve.Built
import WireSchema.Proofs.Resolve.Visit
import WireSchema.Proofs.Resolve.Closure
import WireSchema.Proofs.Resolve.Dependency
import WireSchema.Proofs.Resolve.Splicing
import WireSchema.Proofs.Resolve.Sizing
import WireSchema.Proofs.Resolve.Validity
import WireSchema.Proofs.Resolve.Replacement
import WireSchema.Proofs.Resolve.Extraction
import WireSchema.Proofs.Codec.Length
import WireSchema.Proofs.Codec.Reading
import WireSchema.Proofs.Codec.Canonical
import WireSchema.Proofs.Codec.Reencode
import WireSchema.Proofs.Codec.Nesting
import WireSchema.Proofs.Codec.Delimited
import WireSchema.Proofs.Cursor.Position
import WireSchema.Proofs.Group.Vectors
import WireSchema.Proofs.Codec.Checked
import WireSchema.Proofs.Codec.Failure
import WireSchema.Proofs.Codec.Parts
import WireSchema.Proofs.Codec.Extraction
import WireSchema.Proofs.Transaction.Schema
import WireSchema.Proofs.Transaction.Laws
import WireSchema.Proofs.Transaction.RoundTrip
import WireSchema.Proofs.Json.Scanning
import WireSchema.Proofs.Json.Parsing
import WireSchema.Proofs.Tool.Values
import WireSchema.Proofs.Tool.RoundTrip
import WireSchema.Proofs.Tool.Completion
import WireSchema.Proofs.Codec.Limits
import WireSchema.Proofs.Codec.Appending
import WireSchema.Proofs.Codec.Passes
import WireSchema.Proofs.Codec.Checking
import WireSchema.Proofs.Codec.Slices
import WireSchema.Proofs.Codec.Setting
import WireSchema.Proofs.Codec.Equivalence
import WireSchema.Proofs.Resolve.Flattening
import WireSchema.Proofs.Resolve.Portion
import WireSchema.Proofs.Codec.Shortest
import WireSchema.Proofs.Resolve.Refusal
import WireSchema.Proofs.Resolve.Range
import WireSchema.Proofs.Resolve.Machine
import WireSchema.Proofs.Codec.Totals
import WireSchema.Proofs.Resolve.Naming
import WireSchema.Proofs.Resolve.Modifiers
import WireSchema.Proofs.Codec.Kinds
import WireSchema.Proofs.Tool.Spelling
import WireSchema.Proofs.Tool.Conforming
import WireSchema.Proofs.Json.Compact
import WireSchema.Proofs.Document.Rereading
import WireSchema.Proofs.Group.Calls
import WireSchema.Proofs.Group.Writing
import WireSchema.Proofs.Transaction.Scripted
import WireSchema.Proofs.Cursor.Session
import WireSchema.Proofs.Scalar.Conversion
import WireSchema.Proofs.Record.History
