import LazyBsd.Lib.Buckets
import LazyBsd.Lib.Cursor
import LazyBsd.Lib.Delay
import LazyBsd.Lib.Linked
import LazyBsd.Lib.Numeral
import LazyBsd.Lib.Run
import LazyBsd.Lib.Slots
import LazyBsd.Lib.Trace
import LazyBsd.Mbuf
import LazyBsd.Tx.Convert
import LazyBsd.Tx.Queue
import LazyBsd.Tx.Conservation
import LazyBsd.Tx.Ownership
import LazyBsd.Tx.Frame
import LazyBsd.Tx.Copy
import LazyBsd.Tx.FastFree
import LazyBsd.Tx.Offload
import LazyBsd.Tx.Shadow
import LazyBsd.Filter.Classifier
import LazyBsd.Filter.Headers
import LazyBsd.Filter.Termination
import LazyBsd.Filter.Bounds
import LazyBsd.Filter.Result
import LazyBsd.Rss.Reta
import LazyBsd.Port.Start
import LazyBsd.Rss.Key
import LazyBsd.Rx.Input
import LazyBsd.Dispatch.Model
import LazyBsd.Dispatch.Places
import LazyBsd.Dispatch.Traces
import LazyBsd.Dispatch.Ledger
import LazyBsd.Dispatch.Delivery
import LazyBsd.Dispatch.Rings
import LazyBsd.Dispatch.Interleaving
import LazyBsd.Dispatch.Order
import LazyBsd.Dispatch.Service
import LazyBsd.Control.Handlers
import LazyBsd.Control.Results
import LazyBsd.Control.Rings
import LazyBsd.Timeout.Service
import LazyBsd.Timeout.Model
import LazyBsd.Timeout.Wheel
import LazyBsd.Timeout.Serving
import LazyBsd.Timeout.Preservation
import LazyBsd.Timeout.Firing
import LazyBsd.Timeout.Stop
import LazyBsd.Route.Overlap
import LazyBsd.Route.Faithful
import LazyBsd.Route.Bounds
import LazyBsd.Route.Encoding
import LazyBsd.Route.Ioctl
import LazyBsd.Socket.Outgoing
import LazyBsd.Socket.Returned
import LazyBsd.Socket.Iovec
import LazyBsd.Zerocopy
import LazyBsd.Pages
import LazyBsd.Lcore
import LazyBsd.Rss.Symmetric
import LazyBsd.Filter.Extension
import LazyBsd.Pages.Address
import LazyBsd.Port.Descriptors
import LazyBsd.MemPool
import LazyBsd.Dispatch.Disposition
import LazyBsd.Tx.Response
import LazyBsd.DeepClone
import LazyBsd.Filter.PortList
import LazyBsd.Lib.Translation
import LazyBsd.Socket.Options
import LazyBsd.Socket.RouteCtl
import LazyBsd.Socket.Sendmsg
import LazyBsd.Socket.Lengths
import LazyBsd.Socket.Uiomove
import LazyBsd.Lib.Gather
import LazyBsd.Socket.CmsgBounds
import LazyBsd.Lib.LittleEndian
import LazyBsd.Pcap
import LazyBsd.Lib.HashChain
import LazyBsd.PageTable
import LazyBsd.Lib.ExchangeSort
import LazyBsd.Startup
import LazyBsd.Lib.Strings
import LazyBsd.Environment.Lookup
import LazyBsd.Environment.Agreement
import LazyBsd.Environment.Tunable
import LazyBsd.Environment.Exact
import LazyBsd.Ratecheck
import LazyBsd.Timeout.Timecounter
import LazyBsd.Loop.Accounting
import LazyBsd.Lib.Fallible
import LazyBsd.Lib.Table
import LazyBsd.Veth.Config
import LazyBsd.Veth.Request
import LazyBsd.Veth.Prefix
import LazyBsd.Lib.NamedTree
import LazyBsd.Config.Struct
import LazyBsd.Config.Refuse
import LazyBsd.Cmdline
import LazyBsd.Printf.Model
import LazyBsd.Printf.Number
import LazyBsd.Printf.Format
import LazyBsd.Printf.Buffer
import LazyBsd.Lib.Absorb
import LazyBsd.Siphash
import LazyBsd.Clock
import LazyBsd.Lib.Bisect
import LazyBsd.Cred
import LazyBsd.Limits
import LazyBsd.Hashinit
import LazyBsd.Lib.Rendezvous
import LazyBsd.RingNames
import LazyBsd.Kni
import LazyBsd.Lib.Stores
import LazyBsd.Reloc
import LazyBsd.Port.Links
import LazyBsd.Tx.Deadline
