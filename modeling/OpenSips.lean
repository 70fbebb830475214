import OpenSips.Address.Forms
import OpenSips.Db.Binds
import OpenSips.Db.Connections
import OpenSips.Db.Integers
import OpenSips.Db.Pool
import OpenSips.Db.Statements
import OpenSips.Digest.Names
import OpenSips.Dispatcher.Producers
import OpenSips.Disposition.Accepted
import OpenSips.FMalloc.Defrag
import OpenSips.FMalloc.Info
import OpenSips.FMalloc.Sizes
import OpenSips.Lib.Words
import OpenSips.Listeners.Parse
import OpenSips.Listeners.Startup
import OpenSips.Map.Destroy
import OpenSips.Map.Iterate
import OpenSips.Map.Keys
import OpenSips.Mi.Attributes
import OpenSips.Mi.Flush
import OpenSips.Mi.Framing
import OpenSips.Mi.Values
import OpenSips.Parser.Arrival
import OpenSips.Parser.Event
import OpenSips.Parser.HdrObjects
import OpenSips.Parser.MethodLists
import OpenSips.Parser.Multipart
import OpenSips.Parser.Privacy
import OpenSips.Parser.Release
import OpenSips.Parser.RrCopy
import OpenSips.Parser.RrPrint
import OpenSips.Parser.Supported
import OpenSips.Reactor.Hash
import OpenSips.Reactor.Scripts
import OpenSips.Rearm
import OpenSips.Resolve.Descriptors
import OpenSips.Resolve.Naptr
import OpenSips.Resolve.Passed
import OpenSips.Resolve.SortSrvs
import OpenSips.Resolve.Target
import OpenSips.Resolve.Wire
import OpenSips.Sdp.Clone
import OpenSips.Tcp.Count
import OpenSips.Tcp.Drain
import OpenSips.Tcp.Lookup
import OpenSips.Tcp.Order
import OpenSips.Tcp.Refs
import OpenSips.Tcp.Resume
import OpenSips.Tcp.States
import OpenSips.Tcp.Stream
import OpenSips.Timer
import OpenSips.Uri.Accepted
import OpenSips.Via.RoundTrip
