import CmetricsRuby.Base.PrefixDecoder
import CmetricsRuby.Base.Machine
import CmetricsRuby.Base.Account
import CmetricsRuby.Base.CStr
import CmetricsRuby.Base.Double
import CmetricsRuby.Ruby
import CmetricsRuby.Library
import CmetricsRuby.World
import CmetricsRuby.Metric
import CmetricsRuby.Serde
import CmetricsRuby.Cursor
import CmetricsRuby.Reference
import CmetricsRuby.Proofs.Streams
import CmetricsRuby.Proofs.Window
import CmetricsRuby.Proofs.Export
import CmetricsRuby.Effects
import CmetricsRuby.System
import CmetricsRuby.Proofs.Ownership
import CmetricsRuby.Proofs.Counter
import CmetricsRuby.Proofs.Failures
import CmetricsRuby.Proofs.Labels
import CmetricsRuby.Proofs.NonNull
import CmetricsRuby.Hashes
import CmetricsRuby.Proofs.LabelForms
import CmetricsRuby.Proofs.Buffers
import CmetricsRuby.Proofs.FeedEach
import CmetricsRuby.Proofs.Offsets
import CmetricsRuby.Proofs.Metrics
import CmetricsRuby.Trace
import CmetricsRuby.Contexts
import CmetricsRuby.Proofs.Sound
import CmetricsRuby.Proofs.Concat
import CmetricsRuby.Proofs.Faults
import CmetricsRuby.Proofs.ConcatAll
import CmetricsRuby.Base.Owners
import CmetricsRuby.Lifetimes
import CmetricsRuby.Proofs.Lifetimes
import CmetricsRuby.Proofs.Leaks
import CmetricsRuby.Tables
import CmetricsRuby.Tally
import CmetricsRuby.Proofs.Tables
import CmetricsRuby.Proofs.Transfer
import CmetricsRuby.Base.Base128
import CmetricsRuby.Base.Zigzag
import CmetricsRuby.Base.Memory
import CmetricsRuby.Base.Bisect
import CmetricsRuby.Base.Outcome
import CmetricsRuby.ProtobufC.Wire
import CmetricsRuby.ProtobufC.Message
import CmetricsRuby.ProtobufC.Pack
import CmetricsRuby.ProtobufC.Records
import CmetricsRuby.Proofs.Packing
import CmetricsRuby.Proofs.Packed
import CmetricsRuby.ProtobufC.Lookup
import CmetricsRuby.ProtobufC.Unpack
import CmetricsRuby.Proofs.Scanning
import CmetricsRuby.Proofs.Parsing
import CmetricsRuby.Proofs.Merging
import CmetricsRuby.Proofs.Unpacking
import CmetricsRuby.ProtobufC.Normal
import CmetricsRuby.Proofs.Cutting
import CmetricsRuby.Proofs.Reading
import CmetricsRuby.Proofs.RoundTrip
import CmetricsRuby.Proofs.Repacking
