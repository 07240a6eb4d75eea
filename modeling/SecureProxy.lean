import SecureProxy.Cache
import SecureProxy.Decision
import SecureProxy.Fetch
import SecureProxy.Lib.Lru
import SecureProxy.Lib.Machine
import SecureProxy.OriginConnectFacts
import SecureProxy.PolicyFacts
import SecureProxy.CacheEligibility
import SecureProxy.CacheInvariant
import SecureProxy.CacheRefinement
import SecureProxy.Destination
import SecureProxy.Responses
import SecureProxy.CacheContents
import SecureProxy.CacheUse
import SecureProxy.Lib.Pool
import SecureProxy.ReputationSystem
import SecureProxy.ReputationVerdicts
import SecureProxy.Server
import SecureProxy.AcceptLoop
import SecureProxy.AcceptLoopFacts
import SecureProxy.CacheControl
import SecureProxy.CacheFolding
import SecureProxy.ReputationCache
import SecureProxy.ReputationCalls
import SecureProxy.ReputationPrivacy
import SecureProxy.TunnelFacts
import SecureProxy.AcceptLoopRefinement
import SecureProxy.ConnectGrammar
import SecureProxy.FetchCapture
import SecureProxy.Logger
import SecureProxy.LoggerFile
import SecureProxy.LoggerHost
import SecureProxy.OriginRequest
import SecureProxy.ReputationCounters
import SecureProxy.UrlRender
import SecureProxy.AddressRanges
import SecureProxy.FetchStream
import SecureProxy.Fixture
import SecureProxy.FixtureFacts
import SecureProxy.LocalNames
import SecureProxy.RequestReading
import SecureProxy.BlockPage
import SecureProxy.CacheReads
import SecureProxy.CacheReadsFacts
import SecureProxy.CacheWalk
import SecureProxy.Client
import SecureProxy.Drain
import SecureProxy.SendAll
import SecureProxy.Audit
import SecureProxy.AuditPaths
import SecureProxy.AuditRecord
import SecureProxy.EndToEnd
import SecureProxy.Lib.Mutex
import SecureProxy.LoggerThreads
import SecureProxy.LoggerThreadsFacts
import SecureProxy.LoggerThreadsLines
import SecureProxy.ProxyCache
import SecureProxy.ReputationFixture
import SecureProxy.CacheRetention
import SecureProxy.PolicyEdits
import SecureProxy.ReputationProgress
import SecureProxy.Shutdown
