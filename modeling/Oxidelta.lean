import Oxidelta.Lib.Loop
import Oxidelta.Lib.CopyProgram
import Oxidelta.Lib.Rust
import Oxidelta.Lib.Lockstep
import Oxidelta.Lib.Segments
import Oxidelta.Vcdiff.Varint
import Oxidelta.Vcdiff.AddressCache
import Oxidelta.Vcdiff.CodeTable
import Oxidelta.Vcdiff.Header
import Oxidelta.Compress.Secondary
import Oxidelta.Vcdiff.Decoder
import Oxidelta.Vcdiff.Encoder
import Oxidelta.Vcdiff.Iterator
import Oxidelta.Vcdiff.Replay
import Oxidelta.Vcdiff.Packing
import Oxidelta.Vcdiff.RoundTrip
import Oxidelta.Vcdiff.Stream
import Oxidelta.Vcdiff.Frame
import Oxidelta.Vcdiff.Instructions
import Oxidelta.Compress.Pipeline
import Oxidelta.Lib.Words
import Oxidelta.Lib.Adler
import Oxidelta.Hash.Rolling
import Oxidelta.Hash.Table
import Oxidelta.Hash.Matching
import Oxidelta.Lib.Runs
import Oxidelta.Hash.Scan
import Oxidelta.Compress.Encoder
import Oxidelta.Hash.Found
import Oxidelta.Compress.RoundTrip
import Oxidelta.Compress.Decoder
import Oxidelta.Engine
import Oxidelta.Cli
import Oxidelta.Compress.Parallel
