import Defing.State.Isolation
import Defing.State.History
import Defing.State.Atomic
import Defing.State.Pending
import Defing.State.Numbering
import Defing.State.Gray
import Defing.State.References
import Defing.State.Types
import Defing.State.Conform
import Defing.State.Append
import Defing.State.Affected
import Defing.State.Warnings
import Defing.State.Retry
import Defing.State.Origin
import Defing.State.Sessions
import Defing.State.Owners
import Defing.Core.Login
import Defing.Core.Inverse
import Defing.State.Names
import Defing.State.Drafts
import Defing.Core.Rewrap
import Defing.State.Renewal
import Defing.State.Upgrade
import Defing.Raft.Delivery
import Defing.State.Restore
import Defing.Crypto.Damage
import Defing.Crypto.Cluster
import Defing.Api.RequestId
import Defing.Sdk.Watch
import Defing.Watch.Resume
import Defing.Watch.Gapless
import Defing.Raft.LogRun
import Defing.Raft.Checksum
import Defing.State.Audit
import Defing.State.Retention
import Defing.State.GrayRules
import Defing.Render.Env
import Defing.Api.Membership
import Defing.Api.Principal
import Defing.Api.Cutoff
import Defing.Lib.Routes
import Defing.Api.Routes
import Defing.Api.Authorize
import Defing.Api.DataPlane
import Defing.Cli.Seeds
import Defing.Api.Throttle
import Defing.Sdk.Backoff
import Defing.Sdk.Identity
import Defing.Api.Promote
import Defing.Api.Logout
import Defing.Raft.Catchup
