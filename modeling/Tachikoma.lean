import Tachikoma.Lib.Program
import Tachikoma.Lib.Logs
import Tachikoma.Lib.Threads
import Tachikoma.Lib.Discipline
import Tachikoma.Lib.Simulation
import Tachikoma.Lib.Drain
import Tachikoma.Lib.Unordered
import Tachikoma.Lib.Versioned
import Tachikoma.Lib.Changes
import Tachikoma.Lib.Leases
import Tachikoma.Lib.Decimal
import Tachikoma.Lib.Hex
import Tachikoma.Lib.Text
import Tachikoma.Lib.Fallible
import Tachikoma.Lib.Serde
import Tachikoma.Lib.LdapFilter
import Tachikoma.Lib.DistinguishedName
import Tachikoma.Lib.Joins
import Tachikoma.Lib.Duration
import Tachikoma.Lib.Markup
import Tachikoma.Db.Models
import Tachikoma.Db.Registry
import Tachikoma.Db.Tx
import Tachikoma.Db.Serde
import Tachikoma.Ldap.UsersInfo
import Tachikoma.Ldap.Supervision
import Tachikoma.Db.ApiTokens
import Tachikoma.Logic.Hosts
import Tachikoma.Logic.Notifications
import Tachikoma.Logic.MessageSenders
import Tachikoma.Logic.Release
import Tachikoma.Logic.ReleaseTimer
import Tachikoma.Logic.Users
import Tachikoma.Logic.ApiTokens
import Tachikoma.Bot.Handlers
import Tachikoma.Web.Auth
import Tachikoma.Web.Bearer
import Tachikoma.Web.Templates
import Tachikoma.Web.HostInfo
import Tachikoma.Web.Durations
import Tachikoma.Web.Pages
import Tachikoma.Web.Api
import Tachikoma.System
import Tachikoma.Requests
import Tachikoma.Web.Handlers
import Tachikoma.Server
import Tachikoma.Listings
import Tachikoma.Tokens
import Tachikoma.Proof.Statements
import Tachikoma.Proof.Ordered
import Tachikoma.Proof.Steps
import Tachikoma.Proof.Tasks
import Tachikoma.Proof.Calls
import Tachikoma.Proof.Coupling
import Tachikoma.Proof.Handlers
import Tachikoma.Proof.Discipline
import Tachikoma.Proof.Atomic
import Tachikoma.Proof.LeaseRegistry
import Tachikoma.Proof.Answers
import Tachikoma.Proof.EntryPoints
import Tachikoma.Proof.Progress
import Tachikoma.Proof.Credentials
import Tachikoma.Proof.Links
import Tachikoma.Web.HostsPages
import Tachikoma.Proof.Visits
import Tachikoma.Proof.PlainPages
import Tachikoma.Proof.Holders
import Tachikoma.Proof.Gap
import Tachikoma.Proof.ReleaseGap
import Tachikoma.Proof.ExtendGap
import Tachikoma.Proof.Notice
import Tachikoma.Proof.NotifyGap
import Tachikoma.Proof.LeaseRandom
import Tachikoma.Proof.Limit
import Tachikoma.Proof.Lease
import Tachikoma.Proof.Total
import Tachikoma.Proof.Settled
import Tachikoma.Proof.LeaseExact
import Tachikoma.Proof.LeaseAtomic
import Tachikoma.Proof.LeaseGrants
import Tachikoma.Proof.Releases
import Tachikoma.Proof.Telegram
import Tachikoma.Proof.Passes
import Tachikoma.Proof.Memory
import Tachikoma.Proof.Announce
import Tachikoma.Proof.Maximum
import Tachikoma.Proof.Accounts
import Tachikoma.Proof.HostIds
import Tachikoma.Proof.LoginFilter
import Tachikoma.Proof.Supervision
import Tachikoma.Proof.TokenSteps
import Tachikoma.Proof.TokenTasks
import Tachikoma.Proof.ApiTokenLimit
import Tachikoma.Proof.Bearer
import Tachikoma.Proof.ApiTokens
import Tachikoma.Proof.Records
import Tachikoma.Proof.ReleasePass
import Tachikoma.Proof.Extension
import Tachikoma.Proof.Stacking
import Tachikoma.Proof.Overdue
import Tachikoma.Proof.CommonName
import Tachikoma.Proof.Listing
import Tachikoma.Proof.Newcomers
import Tachikoma.Proof.Durations
import Tachikoma.Proof.SoonPass
import Tachikoma.Proof.LeaseLimits
import Tachikoma.Proof.Pages
