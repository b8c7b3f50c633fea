import DsoBrowser.Lib.Machine
import DsoBrowser.Lib.Table
import DsoBrowser.Lib.FirstMax
import DsoBrowser.Lib.Segments
import DsoBrowser.Lib.ByteOrder
import DsoBrowser.Lib.Heap
import DsoBrowser.Lib.Blocks
import DsoBrowser.CString
import DsoBrowser.Name
import DsoBrowser.NameParse
import DsoBrowser.ContentStore
import DsoBrowser.StoredNames
import DsoBrowser.NameEquality
import DsoBrowser.PlainStore
import DsoBrowser.Versions
import DsoBrowser.Packet
import DsoBrowser.Net
import DsoBrowser.Dht
import DsoBrowser.Mesh
import DsoBrowser.MeshTables
import DsoBrowser.VersionFidelity
import DsoBrowser.NameRender
import DsoBrowser.NameGrammar
import DsoBrowser.NameRoundTrip
import DsoBrowser.Chunk
import DsoBrowser.ChunkMemory
import DsoBrowser.ChunkLoops
import DsoBrowser.ChunkedNames
import DsoBrowser.ChunkedContent
import DsoBrowser.ChunkRoundTrip
import DsoBrowser.ChunkedRuns
import DsoBrowser.BeaconRuns
import DsoBrowser.PrefixMatch
import DsoBrowser.NextHop
import DsoBrowser.Accounting
import DsoBrowser.Budget
import DsoBrowser.PacketRoundTrip
import DsoBrowser.ReceivedContent
import DsoBrowser.AnnouncedNames
import DsoBrowser.BeaconRoutes
import DsoBrowser.BeaconText
import DsoBrowser.BeaconRoundTrip
import DsoBrowser.Network
import DsoBrowser.ReversePath
import DsoBrowser.LoopFreedom
import DsoBrowser.BlockingFetch
import DsoBrowser.Freshness
import DsoBrowser.Lib.Positions
import DsoBrowser.MeshIntegrity
import DsoBrowser.Discovery
import DsoBrowser.Topics
import DsoBrowser.Lib.Signatures
import DsoBrowser.Signing
import DsoBrowser.Compute
import DsoBrowser.ComputeRoundTrip
import DsoBrowser.Datagrams
import DsoBrowser.ChunkTransfer
import DsoBrowser.HtmlParse
import DsoBrowser.DsoPsirp
import DsoBrowser.Lib.Filling
import DsoBrowser.PageFetch
import DsoBrowser.Schedules
import DsoBrowser.Lib.Eviction
import DsoBrowser.LruEviction
import DsoBrowser.EntryHandles
import DsoBrowser.DhtRecords
import DsoBrowser.InterestDedup
import DsoBrowser.Lib.SideBySide
import DsoBrowser.PageLinks
import DsoBrowser.PeerEndpoints
import DsoBrowser.Lib.LengthPrefixed
import DsoBrowser.Reencoding
import DsoBrowser.CodecBounds
import DsoBrowser.NewestLookup
import DsoBrowser.PeerRemoval
import DsoBrowser.Refresh
import DsoBrowser.Reassembly
import DsoBrowser.SameContent
import DsoBrowser.FailedStore
import DsoBrowser.ClockSamples
import DsoBrowser.VersionedTopics
import DsoBrowser.Lib.SelectionSort
import DsoBrowser.RoutingTable
import DsoBrowser.ClosestPeers
import DsoBrowser.AttributeScan
import DsoBrowser.StartTags
import DsoBrowser.UrlBounds
import DsoBrowser.AddressBar
import DsoBrowser.PageActions
import DsoBrowser.PageRuns
import DsoBrowser.InlineCss
import DsoBrowser.JoinedPages
import DsoBrowser.Lib.Overlay
import DsoBrowser.SharedBuffer
import DsoBrowser.PageReads
import DsoBrowser.CutPages
import DsoBrowser.TextBuffer
import DsoBrowser.NameBounds
import DsoBrowser.HashBounds
import DsoBrowser.BeaconBounds
import DsoBrowser.Lib.Leases
import DsoBrowser.LeasedStore
import DsoBrowser.Lib.Recency
import DsoBrowser.CachedStore
import DsoBrowser.ContentNetwork
import DsoBrowser.NetworkRefinement
import DsoBrowser.ContentRelay
import DsoBrowser.Authenticity
import DsoBrowser.MeshRegistry
import DsoBrowser.MeshPrograms
import DsoBrowser.MeshChanges
import DsoBrowser.RoutesHeard
import DsoBrowser.UnaskedContent
import DsoBrowser.MeshNetwork
import DsoBrowser.Publisher
import DsoBrowser.PublishedContent
import DsoBrowser.RoutesKept
import DsoBrowser.AskedContent
