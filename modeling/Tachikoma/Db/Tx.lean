import Tachikoma.Db.Registry
import Tachikoma.Lib.Threads

/-!
# Effects, and programs over them

The `async` functions of the source are programs (`Prog`) over the effects below: one effect is one
exchange with the database, the clock, Telegram or the directory, and these exchanges are the only
points where another task can get a word in. What the surroundings choose at an effect is `Env`:
whether it fails, what the clock says, which of the orders left open a statement takes. There is no
schedule here and no probability; whatever is proved holds for all of them.

A transaction is a handle, `RegistryTx`, as in the source. Its statements run as the transaction of
the task that holds the handle, so one task cannot touch what another has pending.
-/

set_option autoImplicit false

namespace Tachikoma

open Interleaving

/-- `RegistryTx`: the number of an open transaction. -/
structure RegistryTx where
  no : Nat
  deriving DecidableEq, Repr

/-- The messages to users (`src/logic/notifications.rs`). -/
inductive Notification where
  | hostsReleased (hostsIds : List HostId)
  | expirationSoon (hostsIds : List HostId)
  deriving DecidableEq, Repr

/-- One numbered line of a message: a host, and for an expiring one the minutes it has left. -/
structure Line where
  idx : Nat
  hostname : String
  ip : IpNetwork
  minutesLeft : Option Int
  deriving DecidableEq, Repr

/-- The text of a message and its buttons (label and callback data), with the notification that it
    puts into words. -/
structure Message where
  notification : Notification
  heading : String
  lines : List Line
  buttons : List (String × String)
  deriving DecidableEq, Repr

/-- `Box<dyn SendMessage>`: what `get_message_sender` makes for a user. -/
structure MsgSender where
  user : User
  chatId : Int
  deriving DecidableEq, Repr

/-- What the directory knows of a user (`src/ldap/mod.rs`). -/
structure AdUserInfo where
  dn : String
  email : String
  groups : List String
  deriving DecidableEq, Repr

inductive Effect where
  | begin
  | fetch (tx : RegistryTx) (q : Select)
  | execute (tx : RegistryTx) (w : Write)
  | commit (tx : RegistryTx)
  /-- The transaction is dropped. It is rolled back unless it was committed. -/
  | drop (tx : RegistryTx)
  | now
  /-- The order in which a hash map or a hash set is iterated. -/
  | hashOrder
  | send (sender : MsgSender) (msg : Message)
  /-- A call of `Notifier::notify`. Nothing happens; the trace has a line for it. -/
  | notify (userId : UserId) (notification : Notification)
  | findUserInfo (loginOrMail : String)
  | simpleBind (userDn password : String)
  deriving DecidableEq

def Effect.Res : Effect → Type
  | .begin => Except SqlxError RegistryTx
  | .fetch _ q => Except SqlxError q.Rows
  | .execute _ w => Except SqlxError w.Res
  | .commit _ => Except SqlxError Unit
  | .drop _ => Unit
  | .now => Time
  | .hashOrder => List Nat
  | .send _ _ => Except Unit Unit
  | .notify _ _ => Unit
  | .findUserInfo _ => Except Unit (Option AdUserInfo)
  | .simpleBind _ _ => Except Unit Unit

/-- What the surroundings choose when an effect is performed. -/
structure Env where
  fails : Bool := false
  time : Time := 0
  order : List Nat := []
  uuid : String := ""
  userInfo : Option AdUserInfo := none
  deriving DecidableEq, Repr

/-- What all tasks share. -/
structure World where
  db : Db
  nextTx : Nat

/-- One effect of the task `p`. A statement that fails changes nothing; a commit that fails commits
    nothing, and the transaction is gone. -/
def act (p : Pid) (e : Effect) (env : Env) (w : World) : Option (e.Res × World) :=
  match e with
  | .begin => some <|
      if env.fails then (.error .io, w) else (.ok ⟨w.nextTx⟩, { w with nextTx := w.nextTx + 1 })
  | .fetch tx q => some
      (if env.fails then .error .io else q.run env.order (w.db.view ⟨p, tx.no⟩), w)
  | .execute tx x =>
      if env.fails then some (.error .io, w)
      else (w.db.execute ⟨p, tx.no⟩ env.uuid x).map fun r => (r.1, { w with db := r.2 })
  | .commit tx => some <|
      if env.fails then (.error .io, { w with db := w.db.rollback ⟨p, tx.no⟩ })
      else (.ok (), { w with db := w.db.commit ⟨p, tx.no⟩ })
  | .drop tx => some ((), { w with db := w.db.rollback ⟨p, tx.no⟩ })
  | .now => some (env.time, w)
  | .hashOrder => some (env.order, w)
  | .send _ _ => some (if env.fails then .error () else .ok (), w)
  | .notify _ _ => some ((), w)
  | .findUserInfo _ => some (if env.fails then .error () else .ok env.userInfo, w)
  | .simpleBind _ _ => some (if env.fails then .error () else .ok (), w)

/-! ## Tasks -/

/-- How a function ends: it returns a value or an error, or it panics. -/
inductive Exit (ε α : Type) where
  | ok (a : α)
  | err (e : ε)
  | panic (msg : String)
  deriving DecidableEq, Repr

/-- An `async fn` that returns `Result<α, ε>`. -/
def Task (ε α : Type) : Type := Prog Effect Effect.Res (Exit ε α)

namespace Task

variable {ε ε' α β : Type}

/-- `?`: an error or a panic ends the function. -/
def bind (x : Task ε α) (f : α → Task ε β) : Task ε β :=
  Prog.bind x fun
    | .ok a => f a
    | .err e => .ret (.err e)
    | .panic msg => .ret (.panic msg)

instance : Monad (Task ε) where
  pure a := .ret (.ok a)
  bind := bind

def throw (e : ε) : Task ε α := .ret (.err e)

def panic (msg : String) : Task ε α := .ret (.panic msg)

/-- The error conversion that `?` and `context` insert. -/
def mapErr (f : ε → ε') (x : Task ε α) : Task ε' α :=
  Prog.bind x fun
    | .ok a => .ret (.ok a)
    | .err e => .ret (.err (f e))
    | .panic msg => .ret (.panic msg)

/-- The result as a value, an error not ending the caller; a panic still does. -/
def attempt (x : Task ε α) : Task ε' (Except ε α) :=
  Prog.bind x fun
    | .ok a => .ret (.ok (.ok a))
    | .err e => .ret (.ok (.error e))
    | .panic msg => .ret (.panic msg)

end Task

def Exit.ofExcept {ε α : Type} : Except ε α → Exit ε α
  | .ok a => .ok a
  | .error e => .err e

/-- `Utc::now()`. -/
def utcNow {ε : Type} : Task ε Time := .op .now fun t => .ret (.ok t)

/-- `+` of a `DateTime<Utc>` and a `TimeDelta`: it panics when the sum is not in the calendar. The
    half hour that the timer and the extend button look ahead is added to the clock without this
    check: it matters in the last half hour of the calendar only. -/
def addTimeDelta {ε : Type} (t : Time) (d : TimeDelta) : Task ε Time :=
  if InCalendar (t + d) then return t + d else Task.panic "`DateTime + TimeDelta` overflowed"

/-- The order of an iteration over a hash map or a hash set. -/
def hashOrder {ε : Type} : Task ε (List Nat) := .op .hashOrder fun o => .ret (.ok o)

namespace RegistryTx

def fetch (tx : RegistryTx) (q : Select) : Task SqlxError q.Rows :=
  .op (.fetch tx q) fun r => .ret (Exit.ofExcept r)

def execute (tx : RegistryTx) (w : Write) : Task SqlxError w.Res :=
  .op (.execute tx w) fun r => .ret (Exit.ofExcept r)

def commit (tx : RegistryTx) : Task SqlxError Unit :=
  .op (.commit tx) fun r => .ret (Exit.ofExcept r)

def leaseHosts (tx : RegistryTx) (userId : UserId) (hostsIds : List HostId) (untill : Time) :
    Task SqlxError Unit := tx.execute (.hosts (.leaseHosts userId hostsIds untill))

def freeHostsForUser (tx : RegistryTx) (hostsIds : List HostId) (userId : UserId) :
    Task SqlxError Unit := tx.execute (.hosts (.freeHostsForUser hostsIds userId))

def freeHosts (tx : RegistryTx) (hostsIds : List HostId) : Task SqlxError Unit :=
  tx.execute (.hosts (.freeHosts hostsIds))

def freeAll (tx : RegistryTx) (userId : UserId) : Task SqlxError Unit :=
  tx.execute (.hosts (.freeAll userId))

def extendHostsLease (tx : RegistryTx) (hostsIds : List HostId) (hours : Int32) :
    Task SqlxError Unit := tx.execute (.hosts (.extendHostsLease hostsIds hours))

def getAllHosts (tx : RegistryTx) : Task SqlxError (List Host) := tx.fetch .getAllHosts

def getLeasedHosts (tx : RegistryTx) (userId : UserId) : Task SqlxError (List LeasedHost) :=
  tx.fetch (.getLeasedHosts userId)

def getLeasedHost (tx : RegistryTx) (hostId : HostId) : Task SqlxError LeasedHost :=
  tx.fetch (.getLeasedHost hostId)

def getHosts (tx : RegistryTx) (hostsIds : List HostId) : Task SqlxError (List Host) :=
  tx.fetch (.getHosts hostsIds)

def getFirstAvailableGroupHost (tx : RegistryTx) (groupId : GroupId) :
    Task SqlxError (Option Host) := tx.fetch (.getFirstAvailableGroupHost groupId)

def getLeasedUntilHosts (tx : RegistryTx) (until_ : Time) : Task SqlxError (List LeasedHost) :=
  tx.fetch (.getLeasedUntilHosts until_)

def getExpiringHostsForUser (tx : RegistryTx) (userId : UserId) (expiringBefore : Time) :
    Task SqlxError (List LeasedHost) := tx.fetch (.getExpiringHostsForUser userId expiringBefore)

def getAllUsers (tx : RegistryTx) : Task SqlxError (List User) := tx.fetch .getAllUsers

def getAdGroupsLeaseLimits (tx : RegistryTx) (groups : List String) :
    Task SqlxError (List AdGroupLeaseLimit) := tx.fetch (.getAdGroupsLeaseLimits groups)

def getUserById (tx : RegistryTx) (userId : UserId) : Task SqlxError (Option User) :=
  tx.fetch (.getUserById userId)

def getUserByDn (tx : RegistryTx) (dn : String) : Task SqlxError (Option User) :=
  tx.fetch (.getUserByDn dn)

def getUserByLink (tx : RegistryTx) (link : String) : Task SqlxError (Option User) :=
  tx.fetch (.getUserByLink link)

def getUserByTgHandle (tx : RegistryTx) (tgHandle : String) : Task SqlxError (Option User) :=
  tx.fetch (.getUserByTgHandle tgHandle)

def setUserTgHandle (tx : RegistryTx) (userId : UserId) (tgHandle : String) :
    Task SqlxError Unit := tx.execute (.setUserTgHandle userId tgHandle)

def addUser (tx : RegistryTx) (dn : String) (tgHandle : Option String) (email : String) :
    Task SqlxError UserId := tx.execute (.addUser dn tgHandle email)

end RegistryTx

/-- `let mut tx = registry.begin().await?` and what follows in its scope. The transaction is dropped
    when the scope is left, whichever way. -/
def withTx {ε α : Type} (ofSqlx : SqlxError → ε) (scope : RegistryTx → Task ε α) : Task ε α :=
  .op .begin fun
    | .error e => .ret (.err (ofSqlx e))
    | .ok tx => Prog.bind (scope tx) fun r => .op (.drop tx) fun _ => .ret r

end Tachikoma
