import GarudaCodec.Foundation.Lanes
import GarudaCodec.Foundation.Runs
import GarudaCodec.Foundation.Groups
import GarudaCodec.Foundation.Chunks
import GarudaCodec.Foundation.Pipeline
import GarudaCodec.Foundation.PipelineRuns
import GarudaCodec.Foundation.Outcome
import GarudaCodec.Foundation.Readers
import GarudaCodec.Foundation.BigEndian
import GarudaCodec.Foundation.PositionalWrites
import GarudaCodec.Core.Vector
import GarudaCodec.Core.Io
import GarudaCodec.Core.Raptorq
import GarudaCodec.Core.Interleaving
import GarudaCodec.Core.SystematicCodec
import GarudaCodec.Core.BlockEncoder
import GarudaCodec.Core.BlockDecoder
import GarudaCodec.Core.Encoder
import GarudaCodec.Core.BlockIds
import GarudaCodec.Core.Decoder
import GarudaCodec.Core.Framing
import GarudaCodec.Core.Link
import GarudaCodec.Core.LinkRuns
import GarudaCodec.Core.Delivery
import GarudaCodec.Core.Guarantees
import GarudaCodec.FileTransfer.Strings
import GarudaCodec.FileTransfer.Protocol
import GarudaCodec.FileTransfer.HeaderFormat
import GarudaCodec.FileTransfer.Paths
import GarudaCodec.FileTransfer.Names
import GarudaCodec.FileTransfer.Send
import GarudaCodec.FileTransfer.Receive
import GarudaCodec.FileTransfer.Reassembly
import GarudaCodec.FileTransfer.Confinement
import GarudaCodec.FileTransfer.Identity
import GarudaCodec.FileTransfer.Malformed
import GarudaCodec.Core.Dispatch
import GarudaCodec.Foundation.PipelineEnds
import GarudaCodec.Foundation.JoinHandles
import GarudaCodec.Core.Threads
import GarudaCodec.Core.Waiting
import GarudaCodec.Core.Redundancy
import GarudaCodec.Core.Configuration
import GarudaCodec.Core.PacketSize
import GarudaCodec.Foundation.PipelineSources
import GarudaCodec.Foundation.Messages
import GarudaCodec.Foundation.LastWrites
import GarudaCodec.Core.Attribution
import GarudaCodec.Core.QueueOrder
import GarudaCodec.Core.RawFrames
import GarudaCodec.Core.ShortSessions
import GarudaCodec.FileTransfer.Receiving
import GarudaCodec.FileTransfer.EndToEnd
import GarudaCodec.Foundation.PipelineBounds
import GarudaCodec.Foundation.PipelineBacklog
import GarudaCodec.Foundation.RoundRobin
import GarudaCodec.Core.Backpressure
import GarudaCodec.Core.LoadBalance
import GarudaCodec.FileTransfer.Interrupted
import GarudaCodec.Foundation.Serving
import GarudaCodec.Core.Service
import GarudaCodec.Foundation.PipelineProgress
import GarudaCodec.Core.Progress
import GarudaCodec.Foundation.PipelineOrder
import GarudaCodec.Core.WireOrder
import GarudaCodec.Core.OutputOrder
import GarudaCodec.FileTransfer.BlockSizes
import GarudaCodec.Foundation.Descriptors
import GarudaCodec.Core.Sockets
import GarudaCodec.Core.Server
