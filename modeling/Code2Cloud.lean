import Code2Cloud.Base.Segments
import Code2Cloud.Base.Table
import Code2Cloud.Base.Versioned
import Code2Cloud.Worker.GoString
import Code2Cloud.Worker.Names
import Code2Cloud.Api.Schema
import Code2Cloud.Api.Payloads
import Code2Cloud.Worker.Env
import Code2Cloud.Worker.Payloads
import Code2Cloud.Worker.Cluster
import Code2Cloud.Worker.Deploy
import Code2Cloud.Worker.Isolation
import Code2Cloud.Worker.Labels
import Code2Cloud.Worker.Routing
import Code2Cloud.Worker.Domains
import Code2Cloud.Base.Deque
import Code2Cloud.Base.Relay
import Code2Cloud.System.Redis
import Code2Cloud.System.Wire
import Code2Cloud.Base.Hex
import Code2Cloud.Base.Json
import Code2Cloud.Base.Number
import Code2Cloud.Base.Unmarshal
import Code2Cloud.Base.Dto
import Code2Cloud.Api.Encryption
import Code2Cloud.Api.Database
import Code2Cloud.Api.EnvVars
import Code2Cloud.Api.Projects
import Code2Cloud.System.World
import Code2Cloud.System.Services
import Code2Cloud.System.BuildWorker
import Code2Cloud.System.Sweeps
import Code2Cloud.Base.Reach
import Code2Cloud.Base.Log
import Code2Cloud.Base.Fresh
import Code2Cloud.System.Machine
import Code2Cloud.System.Entitlement
import Code2Cloud.System.Turns
import Code2Cloud.System.Tickets
import Code2Cloud.System.Signals
import Code2Cloud.System.Cancel
import Code2Cloud.System.Rows
import Code2Cloud.System.Writes
import Code2Cloud.System.Lifecycle
import Code2Cloud.Worker.Clone
import Code2Cloud.System.Built
import Code2Cloud.Base.Base64
import Code2Cloud.Api.Auth
import Code2Cloud.Api.Sessions
import Code2Cloud.Api.GithubCallback
import Code2Cloud.Api.Logs
import Code2Cloud.System.IngressRace
import Code2Cloud.System.Builds
import Code2Cloud.System.InFlight
import Code2Cloud.System.Expiry
import Code2Cloud.System.Backed
import Code2Cloud.System.Carried
import Code2Cloud.System.Objects
import Code2Cloud.System.Routed
import Code2Cloud.System.Removal
import Code2Cloud.System.Hosts
import Code2Cloud.System.Live
import Code2Cloud.System.Teardown
import Code2Cloud.System.Pushes
import Code2Cloud.System.Rollouts
import Code2Cloud.System.Timing
import Code2Cloud.System.Sequence
import Code2Cloud.System.LatestPush
import Code2Cloud.System.Producers
import Code2Cloud.System.Survival
import Code2Cloud.System.Arrivals
import Code2Cloud.System.Failure
import Code2Cloud.System.Commands
import Code2Cloud.System.Keys
import Code2Cloud.System.Renames
import Code2Cloud.System.Online
import Code2Cloud.Base.Resumption
import Code2Cloud.Base.Register
import Code2Cloud.Api.Settings
import Code2Cloud.Api.Analytics
import Code2Cloud.Api.Methods
import Code2Cloud.Api.Deeds
import Code2Cloud.Api.Discretion
import Code2Cloud.Api.Discreet
import Code2Cloud.System.Tenants
import Code2Cloud.System.Titles
import Code2Cloud.Api.Internal
import Code2Cloud.Worker.Builder
import Code2Cloud.System.Ports
import Code2Cloud.Base.Slices
import Code2Cloud.Base.Sorting
import Code2Cloud.Base.Chunks
import Code2Cloud.Worker.Scanner
import Code2Cloud.Api.Nest
import Code2Cloud.Api.InternalController
import Code2Cloud.Worker.ApiClient
import Code2Cloud.Worker.Spaces
import Code2Cloud.Worker.StreamLogger
import Code2Cloud.Worker.Closing
import Code2Cloud.Worker.LogOrder
import Code2Cloud.Worker.PodLogs
import Code2Cloud.Worker.Chunking
import Code2Cloud.Worker.Cleanup
import Code2Cloud.Worker.DomainManager
import Code2Cloud.Worker.Ready
import Code2Cloud.Worker.ProgressFilter
import Code2Cloud.System.Triggers
import Code2Cloud.System.Streams
import Code2Cloud.System.Addresses
import Code2Cloud.Base.Paths
import Code2Cloud.Worker.Images
import Code2Cloud.Worker.SourcePath
import Code2Cloud.Worker.LogStreamer
import Code2Cloud.Api.LogPages
import Code2Cloud.Base.Rounding
import Code2Cloud.Base.OrderedMap
import Code2Cloud.System.SuccessRate
import Code2Cloud.Api.Series
import Code2Cloud.System.Retries
import Code2Cloud.Base.ReadCommitted
import Code2Cloud.Api.ConcurrentSaves
import Code2Cloud.Web.FinishedLogs
import Code2Cloud.System.Configuration
import Code2Cloud.Base.Search
import Code2Cloud.Worker.Timestamps
import Code2Cloud.Worker.LoggedUrl
import Code2Cloud.Api.StoredSettings
import Code2Cloud.Web.Selections
import Code2Cloud.Web.FetchClient
import Code2Cloud.Web.TokenRefresh
import Code2Cloud.Base.Regex
import Code2Cloud.Base.Trim
import Code2Cloud.Web.EnvFile
import Code2Cloud.Web.Importers
import Code2Cloud.Web.EnvImport
import Code2Cloud.Api.Holdings
import Code2Cloud.System.Estates
import Code2Cloud.System.Owners
import Code2Cloud.System.Custody
import Code2Cloud.System.Secrecy
import Code2Cloud.System.Views
import Code2Cloud.System.TenantIsolation
import Code2Cloud.System.InternalApi
import Code2Cloud.System.Provenance
import Code2Cloud.System.PodVariables
import Code2Cloud.System.Fences
import Code2Cloud.Api.Accounts
import Code2Cloud.Api.ProjectRequests
import Code2Cloud.Web.NewProject
import Code2Cloud.System.FirstBuild
import Code2Cloud.Api.Notifications
import Code2Cloud.System.Notices
import Code2Cloud.Base.Assignments
import Code2Cloud.Worker.BuildCommands
