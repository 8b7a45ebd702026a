import Lz4.Block.Sized
import Lz4.Stream.Compressor
import Lz4.Stream.Decompressor
import Lz4.Frame.Encoder
import Lz4.Frame.Writer
import Lz4.Frame.Decode
import Lz4.Frame.Reader
import Lz4.Frame.Transfer
import Lz4.Proofs.Bytes.Content
import Lz4.Proofs.Bytes.Agreement
import Lz4.Proofs.Block.Length
import Lz4.Proofs.Block.Copy
import Lz4.Proofs.Block.Script
import Lz4.Proofs.Sink
import Lz4.Proofs.Source
import Lz4.Proofs.Block.Grammar
import Lz4.Proofs.Block.Describes
import Lz4.Proofs.Block.Greedy
import Lz4.Proofs.Block.RoundTrip
import Lz4.Proofs.Block.Shape
import Lz4.Proofs.Block.Capacity
import Lz4.Proofs.Block.History
import Lz4.Proofs.Block.MatchTable
import Lz4.Proofs.Block.Chain
import Lz4.Proofs.Block.Search
import Lz4.Proofs.Stream.History
import Lz4.Proofs.Stream.RoundTrip
import Lz4.Proofs.Stream.Rejection
import Lz4.Proofs.Stream.Bound
import Lz4.Proofs.Frame.Cuts
import Lz4.Proofs.Frame.Record
import Lz4.Proofs.Frame.Blocks
import Lz4.Proofs.Frame.Following
import Lz4.Proofs.Frame.RoundTrip
import Lz4.Proofs.Frame.Chunking
import Lz4.Proofs.Frame.Accepted
import Lz4.Proofs.Frame.Layout
import Lz4.Proofs.Frame.Independence
import Lz4.Proofs.Frame.Size
import Lz4.Proofs.Frame.Transfer
import Lz4.Proofs.Frame.Faults
import Lz4.Proofs.Frame.Language
import Lz4.Proofs.Frame.Calls
import Lz4.Proofs.Frame.Dictionary
import Lz4.Proofs.Frame.Refusal
import Lz4.Proofs.Frame.Reset
import Lz4.Proofs.Frame.Opening
import Lz4.Proofs.Frame.Hint
import Lz4.Proofs.Frame.Fronts
import Lz4.Proofs.Frame.Served
import Lz4.Proofs.Frame.Delimited
import Lz4.Proofs.Frame.Reading
import Lz4.Proofs.Frame.Writing
import Lz4.Proofs.Frame.Stored
import Lz4.Proofs.Frame.Emitted
import Lz4.Proofs.Frame.Reuse
import Lz4.Proofs.Frame.Concatenation
import Lz4.Proofs.Frame.Bounds
import Lz4.Proofs.Frame.Window
import Lz4.Proofs.Stream.Records
import Lz4.Proofs.Block.Sized
import Lz4.Proofs.Frame.Attempts
