import Tachikoma.Logic.Notifications

/-!
# The release timer (`src/logic/release.rs`)

One task runs the timer. Between its passes it remembers, for every user, which hosts it has already
announced as expiring (`sentHostsNotification`); a pass that reports an error has not changed it.
-/

set_option autoImplicit false

namespace Tachikoma

open Unordered

/-- How far ahead to look for soon-to-expire hosts. -/
def EXPIRATION_NOTIFY_WINDOW : TimeDelta := TimeDelta.minutes 30

structure ReleaseTimer where
  sentHostsNotification : UserId → Option (List HostId)
  expirationNotifyDelayTime : TimeDelta

namespace ReleaseTimer

/-- The timer as `hosts_release_timer` starts it. -/
def new : ReleaseTimer := ⟨fun _ => none, EXPIRATION_NOTIFY_WINDOW⟩

/-- What is remembered for a user. -/
def sentHostIds (sent : UserId → Option (List HostId)) (userId : UserId) : List HostId :=
  (sent userId).getD []

/-- The hosts by their holders, each host once. -/
def usersHosts (hosts : List LeasedHost) : List (UserId × List HostId) :=
  collect (fun id ids => ids.insert id) (fun id => [id]) (hosts.map fun h => (h.user.id, h.id))

/-- `entry(user).and_modify(retain)`, for every user that lost a host. -/
def forget (sent : UserId → Option (List HostId)) :
    List (UserId × List HostId) → UserId → Option (List HostId)
  | [] => sent
  | (userId, expired) :: rest =>
    forget (Function.update sent userId
      ((sent userId).map fun hostsIds => hostsIds.filter (· ∉ expired))) rest

/-- `retain`: only hosts in `allExpiringIds` stay, and only users for whom one stays. -/
def retain (allExpiringIds : List HostId) (sent : UserId → Option (List HostId)) :
    UserId → Option (List HostId) := fun userId =>
  match sent userId with
  | none => none
  | some hostIds =>
    if hostIds.filter (· ∈ allExpiringIds) = [] then none
    else some (hostIds.filter (· ∈ allExpiringIds))

def release (self : ReleaseTimer) : Task AnyError (List LeasedHost × ReleaseTimer) :=
  withTx .sqlx fun tx => do
    let now ← utcNow
    let expiredHosts ← (tx.getLeasedUntilHosts now).mapErr .sqlx
    if expiredHosts = [] then
      return (expiredHosts, self)
    else do
      (tx.freeHosts (expiredHosts.map (·.id))).mapErr .sqlx
      tx.commit.mapErr .sqlx
      let order ← hashOrder
      let sent := forget self.sentHostsNotification (arrange order (usersHosts expiredHosts))
      return (expiredHosts, { self with sentHostsNotification := sent })

/-- The loop of `notify_released_hosts`: an error of one user is logged and the next one served. -/
def notifyReleased (notifier : Notifier) : List (UserId × List HostId) → Task AnyError Unit
  | [] => return ()
  | (userId, hostsIds) :: rest => do
    let _ ← (notifier.notify userId (.hostsReleased hostsIds)).attempt
    notifyReleased notifier rest

def notifyReleasedHosts (notifier : Notifier) (releasedHosts : List LeasedHost) :
    Task AnyError Unit := do
  let expiredNotifications := collect (fun id ids => ids ++ [id]) (fun id => [id])
    (releasedHosts.map fun h => (h.user.id, h.id))
  let order ← hashOrder
  notifyReleased notifier (arrange order expiredNotifications)

/-- The loop of `notify_soon_release` over the users, in the order of the hash map. -/
def notifySoon (notifier : Notifier) (sent : UserId → Option (List HostId)) :
    List (UserId × List HostId) → Task AnyError (UserId → Option (List HostId))
  | [] => return sent
  | (userId, hostsIds) :: rest => do
    let sent := Function.update sent userId (some (sentHostIds sent userId))
    let order ← hashOrder
    let hostsIds := arrange order (hostsIds.filter (· ∉ sentHostIds sent userId))
    if hostsIds = [] then
      notifySoon notifier sent rest
    else do
      match ← (notifier.notify userId (.expirationSoon hostsIds)).attempt with
      | .error _ => notifySoon notifier sent rest
      | .ok () =>
        notifySoon notifier
          (Function.update sent userId (some (sentHostIds sent userId ++ hostsIds))) rest

def notifySoonRelease (self : ReleaseTimer) (notifier : Notifier) : Task AnyError ReleaseTimer :=
  withTx .sqlx fun tx => do
    let now ← utcNow
    let nextExpirationDate := now + self.expirationNotifyDelayTime
    let expireSoonHosts ← (tx.getLeasedUntilHosts nextExpirationDate).mapErr .sqlx
    let expireSoonNotifications := usersHosts expireSoonHosts
    let allExpiringIds := expireSoonNotifications.flatMap (·.2)
    let sent := retain allExpiringIds self.sentHostsNotification
    let order ← hashOrder
    let sent ← notifySoon notifier sent (arrange order expireSoonNotifications)
    return { self with sentHostsNotification := sent }

end ReleaseTimer

end Tachikoma
