import WireParity.Bytes.Checksum
import WireParity.Bytes.Hex
import WireParity.Bytes.LittleEndian
import WireParity.Codec.Decode
import WireParity.Codec.Encode
import WireParity.Codec.FromJson
import WireParity.Codec.ToJson
import WireParity.CodecError
import WireParity.CommandLine.Actions
import WireParity.CommandLine.Arguments
import WireParity.CommandLine.Journal
import WireParity.CommandLine.JournalFilter
import WireParity.CommandLine.Options
import WireParity.Corpus.Basic
import WireParity.Corpus.Load
import WireParity.Corpus.Manifest
import WireParity.Corpus.Resolver
import WireParity.Corpus.Schema
import WireParity.External.Exchange
import WireParity.External.Program
import WireParity.External.Spec
import WireParity.Files.Path
import WireParity.Files.Tree
import WireParity.Json.Basic
import WireParity.Json.Printer
import WireParity.Json.Reader
import WireParity.Json.Record
import WireParity.Json.Token
import WireParity.Main
import WireParity.Number.DecimalText
import WireParity.Number.FloatFormat
import WireParity.Number.Numeral
import WireParity.Number.Rounding
import WireParity.Number.Shortest
import WireParity.Parity.Adapter
import WireParity.Parity.Config
import WireParity.Parity.Finding
import WireParity.Parity.Mismatch
import WireParity.Parity.Report
import WireParity.Parity.Run
import WireParity.Proofs.Bytes.Hex
import WireParity.Proofs.Codec.Arrangement
import WireParity.Proofs.Codec.Decoding
import WireParity.Proofs.Codec.Denotation
import WireParity.Proofs.Codec.Encoding
import WireParity.Proofs.Codec.JsonEncodable
import WireParity.Proofs.Codec.JsonReading
import WireParity.Proofs.Codec.JsonRoundTrip
import WireParity.Proofs.Codec.JsonScalar
import WireParity.Proofs.Codec.JsonWriting
import WireParity.Proofs.Codec.RoundTrip
import WireParity.Proofs.Number.Widening
import WireParity.Proofs.Outcome
import WireParity.Proofs.Shape.Induction
import WireParity.Proofs.Shape.Lookup
import WireParity.Proofs.Shape.WellFormed
import WireParity.Proofs.Table
import WireParity.Proofs.Value.Fields
import WireParity.Proofs.Value.Matching
import WireParity.Proofs.Value.Scalar
import WireParity.Report.Document
import WireParity.Report.Log
import WireParity.Samples
import WireParity.Script.Command
import WireParity.Script.Expansion
import WireParity.Script.Programs
import WireParity.Script.Reader
import WireParity.Script.Run
import WireParity.Script.Shell
import WireParity.Shape.Basic
import WireParity.Shape.Json
import WireParity.Shape.Layer
import WireParity.Shape.Offsets
import WireParity.Shape.Outline
import WireParity.Shape.Path
import WireParity.Shape.Selections
import WireParity.Shape.Size
import WireParity.Shape.WellFormed
import WireParity.Table
import WireParity.Tasks.Contracts
import WireParity.Tasks.Runner
import WireParity.Terminal.Box
import WireParity.Terminal.Text
import WireParity.Terminal.Theme
import WireParity.Text.Alphanumeric
import WireParity.Text.Blank
import WireParity.Text.Parts
import WireParity.Text.Quoted
import WireParity.Text.Utf8
import WireParity.Value.Basic
import WireParity.Value.Difference
import WireParity.Value.Scalar
import WireParity.WireModel
import WireParity.Proofs.Shape.Size
import WireParity.Proofs.Codec.Length
import WireParity.Proofs.Value.Agreement
import WireParity.Proofs.Parity.Divergence
import WireParity.Proofs.Parity.CrossParity
import WireParity.Proofs.Parity.Reference
import WireParity.Proofs.Corpus.Expansion
import WireParity.Proofs.Corpus.Resolution
import WireParity.Proofs.Corpus.Loading
import WireParity.Proofs.Parity.Isolation
import WireParity.Proofs.Json.Settling
import WireParity.Proofs.Codec.JsonOrder
import WireParity.Proofs.Shape.Json
import WireParity.Proofs.Json.Carriage
import WireParity.Proofs.External.Requests
import WireParity.Proofs.External.Transparency
import WireParity.Proofs.Value.Leaves
import WireParity.Proofs.Value.Zeros
import WireParity.Proofs.Codec.Tokens
import WireParity.Proofs.Codec.WireEquality
import WireParity.Proofs.Parity.Trailing
import WireParity.Proofs.WireModel
import WireParity.Proofs.Report.Counts
import WireParity.Proofs.Corpus.Grammar
import WireParity.Proofs.Shape.Extent
import WireParity.Proofs.Shape.Outline
import WireParity.Proofs.Codec.Equivalence
import WireParity.Proofs.Codec.Offsets
import WireParity.Proofs.Codec.StaticDecoding
import WireParity.Proofs.Codec.Prefixes
import WireParity.Proofs.Codec.Flattening
import WireParity.Proofs.Shape.Positions
import WireParity.Proofs.Codec.UnionSelections
import WireParity.Proofs.Codec.Streams
import WireParity.Proofs.Files.Canonical
import WireParity.Proofs.Corpus.Inclusion
import WireParity.Proofs.Codec.JsonPatterns
import WireParity.Proofs.Parity.Lifecycle
import WireParity.Proofs.Parity.Scheduling
import WireParity.Proofs.Number.DecimalText
import WireParity.Proofs.Value.ScalarText
import WireParity.Proofs.Value.Visibility
import WireParity.Proofs.Codec.LeafKinds
import WireParity.Proofs.Codec.ByteOrder
import WireParity.Proofs.CommandLine.Precedence
import WireParity.Proofs.Report.Subjects
import WireParity.Proofs.Text.Lines
import WireParity.Proofs.Report.LogLines
import WireParity.Proofs.Shape.Validation
import WireParity.Proofs.Codec.EnumKeys
import WireParity.Proofs.Bytes.HexNumerals
import WireParity.Proofs.Parity.FirstByte
