import Tachikoma.Bot.Handlers
import Tachikoma.Logic.Hosts
import Tachikoma.Logic.Users
import Tachikoma.Web.Auth

/-!
# The whole system

The calls that tasks make, and the machine of all tasks over one database. The timer is one task of
its own (`Pid.timer`) and keeps its `ReleaseTimer` from one pass to the next; every other task keeps
the result of its last call. A pass that panics takes the timer down, and the server with it: the
timer makes no further pass.
-/

set_option autoImplicit false

namespace Tachikoma

open Interleaving

inductive Call where
  | lease (service : HostsService) (userId : UserId) (userGroups : List String)
      (hostsIds : List HostId) (leaseFor : TimeDelta)
  | leaseRandom (service : HostsService) (userId : UserId) (userGroups : List String)
      (leaseFor : TimeDelta) (groupId : GroupId)
  | free (userId : UserId) (hostsIds : List HostId)
  | freeAll (userId : UserId)
  | extendUserHosts (tgHandle : String) (hours : Int32)
  | linkUser (link tgUserId : String)
  | authenticate (username password : String)
  | release
  | notifyReleasedHosts (notifier : Notifier) (releasedHosts : List LeasedHost)
  | notifySoonRelease (notifier : Notifier)

/-- What a task keeps between its calls. -/
inductive Local where
  | idle
  | leased (userId : UserId) (result : Exit HostError (List LeasedHost))
  | leasedRandom (userId : UserId) (result : Exit HostError LeasedHost)
  | freed (userId : UserId) (result : Exit HostError Unit)
  | extended (tgHandle : String) (result : Exit AnyError Extended)
  | linked (link tgUserId : String) (result : Exit UserError (Option User))
  | authenticated (result : Exit AuthError (Option AuthUser))
  | timer (self : ReleaseTimer)
  | crashed

/-- The timer that a pass of this task works on. -/
def Local.releaseTimer : Local → ReleaseTimer
  | .timer self => self
  | _ => ReleaseTimer.new

/-- The panic of a pass ended the task. -/
def Local.isCrashed : Local → Bool
  | .crashed => true
  | _ => false

theorem Local.isCrashed_iff {l : Local} : l.isCrashed = true ↔ l = .crashed := by
  cases l <;> simp [isCrashed]

def afterRelease (self : ReleaseTimer) : Exit AnyError (List LeasedHost × ReleaseTimer) → Local
  | .ok r => .timer r.2
  | .err _ => .timer self
  | .panic _ => .crashed

def afterNotifyReleased (self : ReleaseTimer) : Exit AnyError Unit → Local
  | .ok _ => .timer self
  | .err _ => .timer self
  | .panic _ => .crashed

/-- After a pass: an error leaves the timer as it was. -/
def afterPass (self : ReleaseTimer) : Exit AnyError ReleaseTimer → Local
  | .ok self' => .timer self'
  | .err _ => .timer self
  | .panic _ => .crashed

/-- What a call runs; `self` is the timer that a pass works on. -/
def Call.program (self : ReleaseTimer) : Call → Prog Effect Effect.Res Local
  | .lease service userId userGroups hostsIds leaseFor =>
    Prog.bind (service.lease userId userGroups hostsIds leaseFor) fun r => .ret (.leased userId r)
  | .leaseRandom service userId userGroups leaseFor groupId =>
    Prog.bind (service.leaseRandom userId userGroups leaseFor groupId) fun r =>
      .ret (.leasedRandom userId r)
  | .free userId hostsIds =>
    Prog.bind (HostsService.free userId hostsIds) fun r => .ret (.freed userId r)
  | .freeAll userId => Prog.bind (HostsService.freeAll userId) fun r => .ret (.freed userId r)
  | .extendUserHosts tgHandle hours =>
    Prog.bind (Tachikoma.extendUserHosts tgHandle hours) fun r => .ret (.extended tgHandle r)
  | .linkUser link tgUserId =>
    Prog.bind (UsersService.linkUser link tgUserId) fun r => .ret (.linked link tgUserId r)
  | .authenticate username password =>
    Prog.bind (Tachikoma.authenticate username password) fun r => .ret (.authenticated r)
  | .release => Prog.bind self.release fun r => .ret (afterRelease self r)
  | .notifyReleasedHosts notifier releasedHosts =>
    Prog.bind (ReleaseTimer.notifyReleasedHosts notifier releasedHosts) fun r =>
      .ret (afterNotifyReleased self r)
  | .notifySoonRelease notifier =>
    Prog.bind (self.notifySoonRelease notifier) fun r => .ret (afterPass self r)

/-- A task that has crashed does nothing any more. -/
def Call.body (κ : Call) : Local → Prog Effect Effect.Res Local
  | .crashed => .ret .crashed
  | l => κ.program l.releaseTimer

/-- All tasks over one database. -/
def machine : Machine Pid Effect Effect.Res Env World Call Local := ⟨act, Call.body⟩

/-- The calls that are passes of the timer. -/
def Call.isPass : Call → Bool
  | .release | .notifyReleasedHosts .. | .notifySoonRelease .. => true
  | _ => false

/-- The timer makes the passes, and the other tasks do everything else. -/
def proper : Pid → Call → Prop
  | .timer, κ => κ.isPass = true
  | .task _, κ => κ.isPass = false

instance : ∀ p κ, Decidable (proper p κ)
  | .timer, κ => inferInstanceAs (Decidable (κ.isPass = true))
  | .task _, κ => inferInstanceAs (Decidable (κ.isPass = false))

abbrev Trace : Type := List (Event Pid Effect Effect.Res World Call)

abbrev History : Type := Hist Pid Effect Effect.Res World Call

abbrev System : Type := Config Pid Effect Effect.Res World Call Local

/-! ## Databases that satisfy the schema, and the system started on one -/

/-- The contents of the tables, between transactions: the primary keys and the foreign keys hold. -/
structure Tables where
  users : List User
  hosts : List Host
  groups : List Group
  leaseLimits : List AdGroupLeaseLimit
  /-- Where the sequence behind `users.id` stands. -/
  nextUserId : Nat
  users_pkey : (users.map (·.id)).Nodup
  hosts_pkey : (hosts.map (·.id)).Nodup
  leaseLimits_pkey : (leaseLimits.map (·.group)).Nodup
  hosts_user_id_fkey : ∀ h ∈ hosts, ∀ u, h.userId = some u → ∃ x ∈ users, x.id = u
  hosts_group_id_fkey : ∀ h ∈ hosts, ∃ g ∈ groups, g.id = h.groupId

namespace Tables

theorem users_rows_nodup (t : Tables) :
    ((t.users.map fun u => (u.id, u.toUserRow)).map Prod.fst).Nodup := by
  simpa [Function.comp_def] using t.users_pkey

theorem hosts_rows_nodup (t : Tables) :
    ((t.hosts.map fun h => (h.id, h.toHostRow)).map Prod.fst).Nodup := by
  simpa [Function.comp_def] using t.hosts_pkey

/-- The database of these tables, with no transaction open. -/
def db (t : Tables) : Db where
  users := .ofRows (t.users.map fun u => (u.id, u.toUserRow)) t.users_rows_nodup
  hosts := .ofRows (t.hosts.map fun h => (h.id, h.toHostRow)) t.hosts_rows_nodup
  groups := t.groups
  leaseLimits := t.leaseLimits
  nextUserId := t.nextUserId

def world (t : Tables) : World := ⟨t.db, 0⟩

/-- Nobody is running; the timer is between two passes. -/
def systemWith (t : Tables) (timer : ReleaseTimer) : System where
  hist := ⟨t.world, []⟩
  threads
    | .timer => ⟨0, .ret (.timer timer)⟩
    | .task _ => ⟨0, .ret .idle⟩

/-- Nobody is running, and the timer has made no pass. -/
def system (t : Tables) : System := t.systemWith ReleaseTimer.new

end Tables

/-! ## A small database

Two users, one of them linked to a Telegram account, one group and two hosts of it; the first host
may be leased. -/

def alice : User := ⟨⟨"CN=alice", some "7", "alice@example.org", "link-alice"⟩, ⟨1⟩⟩

def bob : User := ⟨⟨"CN=bob", none, "bob@example.org", "link-bob"⟩, ⟨2⟩⟩

def host1 (lease : Option (Bool × Time)) : Host :=
  ⟨⟨"host1", ⟨false, 1, 32⟩, lease.map (·.2),
    lease.map fun l => if l.1 then alice.id else bob.id, ⟨1⟩⟩, ⟨1⟩⟩

def host2 : Host := ⟨⟨"host2", ⟨false, 2, 32⟩, none, none, ⟨1⟩⟩, ⟨2⟩⟩

theorem nodup_alice_bob : ([alice, bob].map User.id).Nodup := by decide

/-- The first host is leased to `alice` (`true`) or to `bob` until the given time. -/
def small (lease : Option (Bool × Time)) : Tables where
  users := [alice, bob]
  hosts := [host1 lease, host2]
  groups := [⟨⟨1⟩, "group"⟩]
  leaseLimits := []
  nextUserId := 3
  users_pkey := nodup_alice_bob
  hosts_pkey := by simp [host1, host2]
  leaseLimits_pkey := by decide
  hosts_user_id_fkey := by
    rcases lease with _ | ⟨_ | _, d⟩ <;> simp [host1, host2]
  hosts_group_id_fkey := by simp [host1, host2]

end Tachikoma
