import Rabin.Lib.ByteOrder
import Rabin.Lib.Reads
import Rabin.Lib.Framing
import Rabin.Lib.Mirror
import Rabin.Lib.Misses
import Rabin.Lib.Cuts
import Rabin.Lib.Lts
import Rabin.Lib.Tagged
import Rabin.Lib.Chunking
import Rabin.Lib.Handles
import Rabin.Lib.Heap
import Rabin.Lib.Proactor
import Rabin.Lib.CStrings
import Rabin.Wire
import Rabin.Block
import Rabin.Socket
import Rabin.Server
import Rabin.Client
import Rabin.Offer
import Rabin.Fingerprint
import Rabin.Chunks
import Rabin.Boundaries
import Rabin.Counters
import Rabin.Frames
import Rabin.Decode
import Rabin.Channel
import Rabin.RoundTrip
import Rabin.Partial
import Rabin.Hosts
import Rabin.Grammar
import Rabin.Async
import Rabin.Writes
import Rabin.Resend
import Rabin.Hits
import Rabin.Delta
import Rabin.Reconnect
import Rabin.Timeouts
import Rabin.Requests
import Rabin.Relay
import Rabin.Pipe
import Rabin.Pairing
import Rabin.Conservation
import Rabin.Transfer
import Rabin.Exchanges
import Rabin.Bridges
import Rabin.Isolation
import Rabin.Handlers
import Rabin.Chains
import Rabin.Upstream
import Rabin.Copy
import Rabin.Joint
import Rabin.Asking
import Rabin.NormalProxy
import Rabin.Browsing
import Rabin.Memory
import Rabin.ServerMemory
import Rabin.ClientMemory
