import ProxySplit.Lib.Dict
import ProxySplit.Lib.Machine
import ProxySplit.Lib.Interaction
import ProxySplit.Lib.Budget
import ProxySplit.Lib.Semaphore
import ProxySplit.Lib.StreamReader
import ProxySplit.PyText
import ProxySplit.PyBytes
import ProxySplit.Dedup
import ProxySplit.ProxyStats
import ProxySplit.CircuitBreaker
import ProxySplit.BreakerHistory
import ProxySplit.PoolBreaker
import ProxySplit.ProxyHealth
import ProxySplit.Registry
import ProxySplit.Pool
import ProxySplit.PoolMembership
import ProxySplit.PoolTables
import ProxySplit.PoolReload
import ProxySplit.SessionPool
import ProxySplit.Drawing
import ProxySplit.Distribution
import ProxySplit.PyFloat
import ProxySplit.HotReload
import ProxySplit.Cache
import ProxySplit.Fetchers.Effects
import ProxySplit.Fetchers.Chunk
import ProxySplit.Fetchers.Head
import ProxySplit.Fetchers.BreakerUse
import ProxySplit.Fetchers.ProbeUse
import ProxySplit.Fetchers.RetryBudget
import ProxySplit.Fetchers.RetryNeed
import ProxySplit.Fetchers.ProxyInUse
import ProxySplit.Fetchers.RangeAnswer
import ProxySplit.Fetchers.ThreadWait
import ProxySplit.Streaming.Race
import ProxySplit.Streaming.Progressive
import ProxySplit.Streaming.Layout
import ProxySplit.Streaming.Flow
import ProxySplit.Streaming.Cursor
import ProxySplit.Streaming.Buffer
import ProxySplit.Streaming.Parallel
import ProxySplit.Streaming.Deadlock
import ProxySplit.Streaming.Exclusion
import ProxySplit.Streaming.Plan
import ProxySplit.Streaming.Websocket
import ProxySplit.Streaming.Tunnel
import ProxySplit.Streaming.Conservation
import ProxySplit.Lib.Tiling
import ProxySplit.Lib.Spacing
import ProxySplit.Handlers.Window
import ProxySplit.Handlers.Resizing
import ProxySplit.Handlers.Effects
import ProxySplit.Handlers.Inner
import ProxySplit.Handlers.Preparation
import ProxySplit.Streaming.Order
import ProxySplit.Handlers.Delivery
import ProxySplit.Handlers.Request
import ProxySplit.Handlers.ChunkStart
import ProxySplit.Handlers.Attempts
import ProxySplit.Handlers.Starvation
import ProxySplit.Handlers.Pinning
import ProxySplit.Handlers.MethodBody
import ProxySplit.Handlers.SharedProxy
import ProxySplit.Handlers.PoolUse
import ProxySplit.Handlers.PoolKept
import ProxySplit.Handlers.Assembly
import ProxySplit.Handlers.Agreement
import ProxySplit.Handlers.CacheUse
import ProxySplit.Handlers.CacheRuns
import ProxySplit.CacheTier
import ProxySplit.DiskRestarts
import ProxySplit.Handlers.Promotion
import ProxySplit.Handlers.CacheOrder
import ProxySplit.Handlers.CacheControl
import ProxySplit.RateLimiter
import ProxySplit.ProbeEpisode
import ProxySplit.Lib.Recency
import ProxySplit.Lib.Eviction
import ProxySplit.Lib.Pieces
import ProxySplit.Lib.Quantile
import ProxySplit.CacheRecency
import ProxySplit.DiskEviction
import ProxySplit.CacheExpiry
import ProxySplit.Handlers.HeaderSpelling
import ProxySplit.ProxyScore
import ProxySplit.ScoreMemo
import ProxySplit.ScoreBounds
import ProxySplit.ProxyChunkSize
import ProxySplit.AdaptiveChunkSizer
import ProxySplit.PoolSnapshot
import ProxySplit.RefreshCircuit
import ProxySplit.Streaming.Upgrade
import ProxySplit.Streaming.Authority
import ProxySplit.Lib.Exposition
import ProxySplit.Lib.Quoting
import ProxySplit.PrometheusText
import ProxySplit.Lib.Latest
import ProxySplit.StatsJournal
import ProxySplit.Lib.Duplex
import ProxySplit.Streaming.Relay
import ProxySplit.TorFleet
import ProxySplit.Lib.Polling
import ProxySplit.ConfigPolling
import ProxySplit.Lib.FirstAnswer
import ProxySplit.Handlers.HeadTasks
import ProxySplit.SessionLedger
import ProxySplit.Quarantine
import ProxySplit.Fetchers.AdaptiveTimeout
import ProxySplit.HealthRounds
import ProxySplit.Lib.Ranking
import ProxySplit.Handlers.StatsReport
import ProxySplit.Lib.Families
import ProxySplit.Handlers.MetricsText
import ProxySplit.Lib.Records
import ProxySplit.ProxyFile
import ProxySplit.FreeList
import ProxySplit.Lib.Roulette
import ProxySplit.WeightedDraw
import ProxySplit.Lib.Smoothing
import ProxySplit.Lib.Rounding
import ProxySplit.ChunkSizeControl
