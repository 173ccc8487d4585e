import ProxyServer.Runs
import ProxyServer.Allocation
import ProxyServer.Parties
import ProxyServer.Chunks
import ProxyServer.ReferenceCache
import ProxyServer.RecordCache
import ProxyServer.RecencyList
import ProxyServer.FrequencyList
import ProxyServer.CStrings
import ProxyServer.CrlfLines
import ProxyServer.OrderedTable
import ProxyServer.CacheElement
import ProxyServer.LRUCache
import ProxyServer.LRUHistory
import ProxyServer.LFUCache
import ProxyServer.LFUInvariant
import ProxyServer.LFURecords
import ProxyServer.LFUHistory
import ProxyServer.CacheStrategy
import ProxyServer.LFUStructure
import ProxyServer.FrequencyOrder
import ProxyServer.LatestResponse
import ProxyServer.DroppedUrls
import ProxyServer.SharedCache
import ProxyServer.SemaphoreServer
import ProxyServer.DescriptorOwnership
import ProxyServer.ThreadPool
import ProxyServer.ParsedRequest
import ProxyServer.ProxyParse
import ProxyServer.RequestBlocks
import ProxyServer.CacheBlocks
import ProxyServer.HandlerBlocks
import ProxyServer.HandlerLeaks
import ProxyServer.RequestText
import ProxyServer.RequestLine
import ProxyServer.HeaderLines
import ProxyServer.HeaderColons
import ProxyServer.RoundTrip
import ProxyServer.RequestTarget
import ProxyServer.CacheKey
import ProxyServer.ProxyUtils
import ProxyServer.ForwardedHeaders
import ProxyServer.HeaderLaw
import ProxyServer.RequestSize
import ProxyServer.HandleClient
import ProxyServer.Segmentation
import ProxyServer.ParserReads
import ProxyServer.ClientIsolation
import ProxyServer.Delivery
import ProxyServer.TaskHistory
import ProxyServer.LostWakeup
import ProxyServer.Wakeups
import ProxyServer.ThreadPoolServer
import ProxyServer.ServerFactory
import ProxyServer.CacheSize
import ProxyServer.HandledClients
import ProxyServer.ReceiveBuffers
import ProxyServer.HeaderTable
import ProxyServer.PrintedSizes
import ProxyServer.SemaphoreBalance
import ProxyServer.FirstLeast
import ProxyServer.TimedCache
import ProxyServer.TimedCacheSize
import ProxyServer.OldestAccess
import ProxyServer.CacheLock
import ProxyServer.Blocks
import ProxyServer.ResponseLoop
import ProxyServer.ReceiveLoop
import ProxyServer.ResponseReplay
import ProxyServer.ResponseCounters
import ProxyServer.DuplicateUrls
import ProxyServer.LinkedLists
import ProxyServer.Fifo
import ProxyServer.ClientQueue
import ProxyServer.Descriptors
import ProxyServer.ClientHandler
import ProxyServer.PoolProxy
import ProxyServer.ThreadProxy
import ProxyServer.Paging
import ProxyServer.CacheMisses
import ProxyServer.UpstreamText
import ProxyServer.SameUpstream
import ProxyServer.PoolProgress
import ProxyServer.ServerProgress
import ProxyServer.SemaphoreShutdown
import ProxyServer.ThreadPoolProxy
import ProxyServer.SingleSlot
