import MetaExchange.Address.Basic
import MetaExchange.Address.Reading
import MetaExchange.Address.Resolution
import MetaExchange.Bencode.Decoder
import MetaExchange.Bencode.Typed
import MetaExchange.Bencode.Value
import MetaExchange.Bytes.Basic
import MetaExchange.Bytes.BigEndian
import MetaExchange.Bytes.Hex
import MetaExchange.Bytes.Reader
import MetaExchange.Connection.Attempt
import MetaExchange.Connection.System
import MetaExchange.Connection.SystemError
import MetaExchange.Connection.Trouble
import MetaExchange.Decimal.Binary64
import MetaExchange.Decimal.Reading
import MetaExchange.Decimal.Rounding
import MetaExchange.Duration
import MetaExchange.Exchange.Action
import MetaExchange.Exchange.Basic
import MetaExchange.Exchange.Fault
import MetaExchange.Extension.Announcement
import MetaExchange.Extension.MetadataMessage
import MetaExchange.Failure
import MetaExchange.Handshake
import MetaExchange.InfoDict
import MetaExchange.Machine
import MetaExchange.Main
import MetaExchange.Message
import MetaExchange.Metadata
import MetaExchange.Options.Basic
import MetaExchange.Options.CommandLine
import MetaExchange.PeerSide
import MetaExchange.Piece.Geometry
import MetaExchange.Piece.Table
import MetaExchange.Program
import MetaExchange.Report
import MetaExchange.Settings
import MetaExchange.Sha1
import MetaExchange.Stream.Backlog
import MetaExchange.Stream.Reassembler
import MetaExchange.Target
import MetaExchange.Target.Query
import MetaExchange.Text.Blank
import MetaExchange.Text.CharLiteral
import MetaExchange.Text.Json
import MetaExchange.Text.Numeral
import MetaExchange.Text.Utf8
import MetaExchange.Proofs.Machine.Chunking
import MetaExchange.Proofs.Exchange.Step
import MetaExchange.Proofs.Piece.Content
import MetaExchange.Proofs.Exchange.Rules
import MetaExchange.Proofs.Exchange.Stage
import MetaExchange.Proofs.Bytes.Checked
import MetaExchange.Proofs.Machine.History
import MetaExchange.Proofs.Machine.Transcript
import MetaExchange.Proofs.Machine.Integrity
import MetaExchange.Proofs.Bencode.Reads
import MetaExchange.Proofs.Bytes.BigEndian
import MetaExchange.Proofs.Text.Numeral
import MetaExchange.Proofs.Bencode.ReadBack
import MetaExchange.Proofs.Handshake
import MetaExchange.Proofs.Machine.Boundary
import MetaExchange.Proofs.Machine.HonestPeer
import MetaExchange.Proofs.Exchange.Checked
import MetaExchange.Proofs.Machine.Bounds
import MetaExchange.Proofs.Text.Decimal
import MetaExchange.Proofs.Bencode.Entries
import MetaExchange.Proofs.Bencode.Grammar
import MetaExchange.Proofs.Machine.Verdict
import MetaExchange.Proofs.Connection.Steps
import MetaExchange.Proofs.Connection.Promise
import MetaExchange.Proofs.Connection.Progress
import MetaExchange.Proofs.Connection.Schedule
import MetaExchange.Proofs.Connection.Origin
import MetaExchange.Proofs.Connection.Outbound
import MetaExchange.Proofs.Machine.Irrelevant
import MetaExchange.Proofs.Machine.Verification
import MetaExchange.Proofs.Machine.Accounting
import MetaExchange.Proofs.Piece.Offers
import MetaExchange.Proofs.Extension.MetadataMessage
import MetaExchange.Proofs.Exchange.Payloads
import MetaExchange.Proofs.Machine.Extended
import MetaExchange.Proofs.Stream.Feeding
import MetaExchange.Proofs.Machine.Greeting
import MetaExchange.Proofs.Message
import MetaExchange.Proofs.Extension.PieceRequest
import MetaExchange.Proofs.Machine.Faults
import MetaExchange.Proofs.Machine.Framing
import MetaExchange.Proofs.Machine.Echo
import MetaExchange.Proofs.Text.Utf8
import MetaExchange.Proofs.Bencode.Typed
import MetaExchange.Proofs.Metadata
import MetaExchange.Proofs.InfoDict
import MetaExchange.Proofs.Machine.Redundant
import MetaExchange.Proofs.Bytes.Hex
import MetaExchange.Proofs.Text.Blank
import MetaExchange.Proofs.Target.Hash
import MetaExchange.Proofs.Target.Query
import MetaExchange.Proofs.Target.Magnet
import MetaExchange.Proofs.Decimal.Rounding
import MetaExchange.Proofs.Report
import MetaExchange.Proofs.Bencode.Walk
import MetaExchange.Proofs.Bencode.Limits
