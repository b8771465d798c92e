import Pingclair.Admin.Restore
import Pingclair.Backend.Params
import Pingclair.Balancing.Retries
import Pingclair.Balancing.RetryPaths
import Pingclair.Balancing.Selection
import Pingclair.Cache.Isolation
import Pingclair.Caddyfile.MatcherBlocks
import Pingclair.Caddyfile.RouteOrder
import Pingclair.Caddyfile.SiteNames
import Pingclair.Config.BindListeners
import Pingclair.Dispatch.Hoisting
import Pingclair.Dispatch.PathStrip
import Pingclair.Dispatch.QueryMatchers
import Pingclair.Dispatch.Shadowing
import Pingclair.Forwarding.ProxyProtocol
import Pingclair.Http.Framing
import Pingclair.Http.HeaderAlias
import Pingclair.Http.Placeholders
import Pingclair.Http.QueryParameters
import Pingclair.Http.Ranking
import Pingclair.Http.Transports
import Pingclair.Http.Verbatim
import Pingclair.Layer4.Coordinator
import Pingclair.Layer4.Fallback
import Pingclair.Layer4.Lookup
import Pingclair.Layer4.Preread
import Pingclair.Layer4.Relay
import Pingclair.Logging.BatchWriter
import Pingclair.Logging.QueryRedaction
import Pingclair.Logging.RollSchedule
import Pingclair.Path.FilePatterns
import Pingclair.Static.BodyCache
import Pingclair.Static.Canonical
import Pingclair.Static.TagLists
import Pingclair.Tls.CertTable
import Pingclair.Tls.Issuance
import Pingclair.Tls.IssuanceSlots
import Pingclair.Tls.PolicyIdentity
import Pingclair.Traffic.BackendProtection
import Pingclair.Traffic.CircuitHistory
import Pingclair.Traffic.RateLimit
