import TorAndroid.Lib.Effects
import TorAndroid.Lib.Fragments
import TorAndroid.Lib.GuardedRun
import TorAndroid.Lib.ThreadPool
import TorAndroid.Vpn.Manager
import TorAndroid.Vpn.Moves
import TorAndroid.Vpn.RestartFlag
import TorAndroid.Vpn.SingleStart
import TorAndroid.Vpn.StopFinal
import TorAndroid.Lib.BinarySearch
import TorAndroid.Vpn.AppRouting
import TorAndroid.Tor.StatusMachine
import TorAndroid.Tor.StatusAgreement
import TorAndroid.Tor.NetworkToggle
import TorAndroid.Tor.Bandwidth
import TorAndroid.Lib.Throwing
import TorAndroid.Socks.Basic
import TorAndroid.Socks.Message
import TorAndroid.Socks.Authenticator
import TorAndroid.Socks.Robustness
import TorAndroid.Socks.Negotiation
import TorAndroid.Socks.Range
import TorAndroid.Socks.Requests
import TorAndroid.Socks.Dial
import TorAndroid.Socks.Dialogue
import TorAndroid.Socks.ChainSession
import TorAndroid.Socks.ClientErrors
import TorAndroid.Socks.ChainDial
import TorAndroid.Socks.MessageRoundTrip
import TorAndroid.Socks.SubNegotiation
import TorAndroid.Socks.Datagram
import TorAndroid.Socks.DatagramRoundTrip
import TorAndroid.Socks.Ident
import TorAndroid.Socks.Client
import TorAndroid.Socks.Protect
import TorAndroid.Socks.DialPlan
import TorAndroid.Socks.Bind
import TorAndroid.Socks.Session
import TorAndroid.Socks.SessionCustody
import TorAndroid.Socks.SessionCleanup
import TorAndroid.Socks.Replies
import TorAndroid.Lib.LinkedCells
import TorAndroid.Dns.Name
import TorAndroid.Dns.HashTable
import TorAndroid.Dns.HashRefinement
import TorAndroid.Dns.DomainMatch
import TorAndroid.Dns.Compression
import TorAndroid.Dns.Decompression
import TorAndroid.Dns.DecompressionExact
import TorAndroid.Dns.CompressionRoundTrip
import TorAndroid.Lib.DoublyLinked
import TorAndroid.Dns.CacheEntry
import TorAndroid.Dns.Cache
import TorAndroid.Dns.EntryEffects
import TorAndroid.Dns.EvictionOrder
import TorAndroid.Dns.CacheInvariant
import TorAndroid.Dns.CachePurge
import TorAndroid.Dns.CacheAdd
import TorAndroid.Dns.CacheRun
import TorAndroid.Dns.EvictionRun
import TorAndroid.Dns.RrTypes
import TorAndroid.Dns.CacheTidy
import TorAndroid.Dns.PurgeDryRun
import TorAndroid.Dns.LookupResult
import TorAndroid.Dns.LookupTransparency
import TorAndroid.Dns.DiskCache
import TorAndroid.Dns.DiskEntries
import TorAndroid.Dns.DiskRoundTrip
import TorAndroid.Dns.LocalPrecedence
import TorAndroid.Dns.CacheLock
import TorAndroid.Dns.CacheLockSafety
import TorAndroid.Dns.Records
import TorAndroid.Dns.Reply
import TorAndroid.Dns.ReplyRecords
import TorAndroid.Dns.PoisonBarrier
import TorAndroid.Socks.RangeListing
import TorAndroid.Socks.RangeBookkeeping
import TorAndroid.Socks.RangeIpv4
import TorAndroid.Socks.RangeFamilies
import TorAndroid.Socks.ReceiveTimeout
import TorAndroid.Dns.AddRr
import TorAndroid.Dns.RdataRoundTrip
import TorAndroid.Dns.Reencoding
import TorAndroid.Dns.StoredRecords
import TorAndroid.Dns.RecordRoundTrip
import TorAndroid.Dns.WithdrawnNames
import TorAndroid.Dns.AnswerEncoding
import TorAndroid.Dns.PurgeBounds
import TorAndroid.Dns.BoundedCache
import TorAndroid.Dns.ConflictFree
import TorAndroid.Socks.Pipe
import TorAndroid.Lib.ByteBuffer
import TorAndroid.Dns.Dlist
import TorAndroid.Dns.TcpQuery
import TorAndroid.Dns.DomainMatchArrays
import TorAndroid.Dns.NameText
import TorAndroid.Lib.ForwardLinks
import TorAndroid.Dns.ListSort
import TorAndroid.Dns.ReverseCache
import TorAndroid.Lib.TornInput
import TorAndroid.Dns.DiskFile
import TorAndroid.Dns.DiskFormat
import TorAndroid.Dns.DiskLoad
import TorAndroid.Socks.HostNumber
import TorAndroid.Lib.CString
import TorAndroid.Dns.CachePath
import TorAndroid.Dns.FullCache
import TorAndroid.Dns.TornDisk
import TorAndroid.Lib.Interaction
import TorAndroid.Lib.Ownership
import TorAndroid.Lib.Procedures
import TorAndroid.Dns.Resolver.Operations
import TorAndroid.Dns.Resolver.QueryMachine
import TorAndroid.Dns.Resolver.RecursiveQuery
import TorAndroid.Dns.Resolver.Delegation
import TorAndroid.Dns.Resolver.CachedResolve
import TorAndroid.Dns.Resolver.TcpStates
import TorAndroid.Dns.Resolver.QueryCustody
import TorAndroid.Dns.Resolver.ExecCustody
import TorAndroid.Dns.Resolver.AskCustody
import TorAndroid.Dns.Resolver.LoopCustody
import TorAndroid.Dns.Resolver.ServersCustody
import TorAndroid.Dns.Resolver.AnswerSelection
import TorAndroid.Dns.Resolver.DelegationCustody
import TorAndroid.Dns.Resolver.ResolveCustody
import TorAndroid.Dns.Resolver.Bailiwick
import TorAndroid.Dns.QueryDecoding
import TorAndroid.Dns.ComposeAnswer
import TorAndroid.Dns.AnswerContents
import TorAndroid.Dns.AnswerContract
import TorAndroid.Dns.AnswerRoundTrip
import TorAndroid.Dns.ReadingPrefix
import TorAndroid.Dns.AnswerLimit
import TorAndroid.Dns.ProcessQuery
import TorAndroid.Dns.QueryMessage
import TorAndroid.Dns.QueryExchange
