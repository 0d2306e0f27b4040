import PickleTrial.Bytes
import PickleTrial.Command.Arguments
import PickleTrial.Command.Execute
import PickleTrial.Encoding.Encoded
import PickleTrial.Encoding.Error
import PickleTrial.Encoding.Frames
import PickleTrial.Encoding.Memo
import PickleTrial.Encoding.Plan
import PickleTrial.Encoding.Sink
import PickleTrial.Encoding.Trace
import PickleTrial.Graph.Basic
import PickleTrial.Graph.Calendar
import PickleTrial.Graph.Distinct
import PickleTrial.Graph.Render
import PickleTrial.Graph.TypedArray
import PickleTrial.Main
import PickleTrial.Number.Binary
import PickleTrial.Number.Decimal
import PickleTrial.Number.FloatText
import PickleTrial.Number.Integer
import PickleTrial.Number.Rounding
import PickleTrial.Number.Shortest
import PickleTrial.Number.SignedDigits
import PickleTrial.Proofs.Command.Statuses
import PickleTrial.Proofs.Decoding.Calls
import PickleTrial.Proofs.Decoding.Containers
import PickleTrial.Proofs.Decoding.Contents
import PickleTrial.Proofs.Decoding.Isomorphism
import PickleTrial.Proofs.Decoding.Leaves
import PickleTrial.Proofs.Decoding.Opcodes
import PickleTrial.Proofs.Decoding.Sharing
import PickleTrial.Proofs.Decoding.Stage
import PickleTrial.Proofs.Decoding.Values
import PickleTrial.Proofs.Encoding.Arrays
import PickleTrial.Proofs.Encoding.Boundaries
import PickleTrial.Proofs.Encoding.Calls
import PickleTrial.Proofs.Encoding.Dates
import PickleTrial.Proofs.Encoding.Delivery
import PickleTrial.Proofs.Encoding.Dumping
import PickleTrial.Proofs.Encoding.Durations
import PickleTrial.Proofs.Encoding.Floats
import PickleTrial.Proofs.Encoding.Framing
import PickleTrial.Proofs.Encoding.Integers
import PickleTrial.Proofs.Encoding.Literals
import PickleTrial.Proofs.Encoding.Memo
import PickleTrial.Proofs.Encoding.Neighbours
import PickleTrial.Proofs.Encoding.NodeStarts
import PickleTrial.Proofs.Encoding.Opcodes
import PickleTrial.Proofs.Encoding.Plans
import PickleTrial.Proofs.Encoding.Recursion
import PickleTrial.Proofs.Encoding.Renaming
import PickleTrial.Proofs.Encoding.Repetition
import PickleTrial.Proofs.Encoding.Sending
import PickleTrial.Proofs.Encoding.Storing
import PickleTrial.Proofs.Encoding.Success
import PickleTrial.Proofs.Encoding.Termination
import PickleTrial.Proofs.Encoding.Texts
import PickleTrial.Proofs.Encoding.Validity
import PickleTrial.Proofs.Encoding.Writing
import PickleTrial.Proofs.Graph.Construction
import PickleTrial.Proofs.Graph.Distinct
import PickleTrial.Proofs.Graph.Equality
import PickleTrial.Proofs.Graph.Packed
import PickleTrial.Proofs.Graph.Rendering
import PickleTrial.Proofs.Number.CanonicalDecimal
import PickleTrial.Proofs.Number.DecimalLiteral
import PickleTrial.Proofs.Number.FloatText
import PickleTrial.Proofs.Number.Literal
import PickleTrial.Proofs.Number.Narrowing
import PickleTrial.Proofs.Number.Nearest
import PickleTrial.Proofs.Number.Shortest
import PickleTrial.Proofs.Number.SignedDigits
import PickleTrial.Proofs.Number.TwosComplement
import PickleTrial.Proofs.Number.Value
import PickleTrial.Proofs.Number.Widening
import PickleTrial.Proofs.Stream.Machine
import PickleTrial.Proofs.Stream.Reading
import PickleTrial.Proofs.Stream.Walk
import PickleTrial.Proofs.Text.HexDump
import PickleTrial.Proofs.Text.LineEscaped
import PickleTrial.Proofs.Text.Lines
import PickleTrial.Proofs.Text.Numeral
import PickleTrial.Proofs.Text.Quoted
import PickleTrial.Proofs.Trial.Accounting
import PickleTrial.Proofs.Trial.Course
import PickleTrial.Proofs.Trial.Files
import PickleTrial.Proofs.Trial.Judging
import PickleTrial.Proofs.Trial.Log
import PickleTrial.Proofs.Trial.Parts
import PickleTrial.Proofs.Trial.Programs
import PickleTrial.Proofs.Trial.Recording
import PickleTrial.Proofs.Trial.Reports
import PickleTrial.Proofs.Trial.Serializing
import PickleTrial.Proofs.Trial.Stopping
import PickleTrial.Stream.Callable
import PickleTrial.Stream.Opcode
import PickleTrial.Stream.Protocol
import PickleTrial.Text.Displayed
import PickleTrial.Text.HexDump
import PickleTrial.Text.Json
import PickleTrial.Text.LineEscaped
import PickleTrial.Text.Lines
import PickleTrial.Text.Numeral
import PickleTrial.Text.Quoted
import PickleTrial.Text.Unprintable
import PickleTrial.Text.Utf8
import PickleTrial.Trial.Case
import PickleTrial.Trial.Corpus
import PickleTrial.Trial.Error
import PickleTrial.Trial.Files
import PickleTrial.Trial.HandOff
import PickleTrial.Trial.Oracle
import PickleTrial.Trial.Reference
import PickleTrial.Trial.Report
import PickleTrial.Trial.Run
import PickleTrial.Trial.Settings
import PickleTrial.Trial.Summary
