import Tachikoma.Db.Models
import Tachikoma.Lib.Unordered
import Tachikoma.Lib.Versioned

/-!
# The statements (`src/db/mod.rs`)

One `RegistryTx` method of the source is one statement. The statements that read are the
constructors of `Select`, answered from what the transaction sees (`View`); the ones that write are
the constructors of `Write`. Five of the writes are an `UPDATE hosts`, and these are one type of
their own, `HostWrite`, given by the rows it hits (`sel`, the `WHERE`) and by what it makes of them
(`set`, the `SET`): everything a proof has to know about an update of `hosts` is in these two.

Isolation is `READ COMMITTED`, and it is the tables' business (`Tachikoma/Lib/Versioned.lean`): a
statement is atomic, reads the newest committed rows and its own transaction's, and waits
(`none`) while a row it would write is being written by another transaction.
-/

set_option autoImplicit false

namespace Tachikoma

open Versioned Unordered

/-- Who runs a transaction: the release timer, or one of any number of other tasks (requests over
    the web, the JSON API or MCP, updates from Telegram). -/
inductive Pid where
  | timer
  | task (n : Nat)
  deriving DecidableEq, Repr

/-- A transaction: the task that began it, and a number no other transaction has. -/
structure TxId where
  pid : Pid
  no : Nat
  deriving DecidableEq, Repr

/-- The database. No code writes `groups` and `lease_limits_by_ad_group`. -/
structure Db where
  users : Table UserId TxId UserRow
  hosts : Table HostId TxId HostRow
  groups : List Group
  leaseLimits : List AdGroupLeaseLimit
  /-- The sequence behind `users.id`. -/
  nextUserId : Nat

/-- The rows a statement reads. -/
structure View where
  users : List User
  hosts : List Host
  groups : List Group
  leaseLimits : List AdGroupLeaseLimit

/-- What the transaction `x` sees. -/
def Db.view (x : TxId) (db : Db) : View where
  users := (db.users.rows x).map fun r => { r.2 with id := r.1 }
  hosts := (db.hosts.rows x).map fun r => { r.2 with id := r.1 }
  groups := db.groups
  leaseLimits := db.leaseLimits

/-- What everybody sees. -/
def Db.committed (db : Db) : View where
  users := db.users.committedRows.map fun r => { r.2 with id := r.1 }
  hosts := db.hosts.committedRows.map fun r => { r.2 with id := r.1 }
  groups := db.groups
  leaseLimits := db.leaseLimits

/-! ## Reading -/

/-- `ORDER BY`: rows that compare equal stay in the order the database happened to read them in. -/
def orderBy {α : Type} (cmp : α → α → Ordering) (order : List Nat) (rows : List α) : List α :=
  (arrange order rows).insertionSort fun a b => cmp a b ≠ .gt

/-- Ascending order of a nullable column, `NULL` last. -/
def cmpNullable (a b : Option Time) : Ordering :=
  match a, b with
  | some a, some b => compare a b
  | some _, none => .lt
  | none, some _ => .gt
  | none, none => .eq

/-- `hosts JOIN users ON hosts.user_id = users.id`. -/
def View.join (v : View) : List (Host × User) :=
  v.hosts.flatMap fun h => (v.users.filter fun u => h.userId = some u.id).map fun u => (h, u)

/-- A joined row as a `LeasedHost`; `leased_until` is not nullable there. -/
def LeasedHost.ofRow (r : Host × User) : Except SqlxError LeasedHost :=
  match r.1.leasedUntil with
  | some until_ => .ok
    { id := r.1.id, hostname := r.1.hostname, ipAddress := r.1.ipAddress,
      leasedUntil := until_, group := none, user := r.2 }
  | none => .error .decode

/-- Decoding stops at the first row that does not decode. -/
def decodeAll : List (Host × User) → Except SqlxError (List LeasedHost)
  | [] => .ok []
  | r :: rs =>
    match LeasedHost.ofRow r with
    | .error e => .error e
    | .ok h =>
      match decodeAll rs with
      | .error e => .error e
      | .ok hs => .ok (h :: hs)

/-- `ORDER BY hosts.leased_until, hosts.ip_address ASC`. -/
def cmpDeadline (a b : Host × User) : Ordering :=
  (cmpNullable a.1.leasedUntil b.1.leasedUntil).then (a.1.ipAddress.cmp b.1.ipAddress)

def cmpIpAddress (a b : Host) : Ordering := a.ipAddress.cmp b.ipAddress

/-- `hosts.leased_until < until`, which a `NULL` is not. -/
def expiresBefore (until_ : Time) (h : HostRow) : Bool :=
  match h.leasedUntil with
  | some d => decide (d < until_)
  | none => false

/-- The statements that read. -/
inductive Select where
  | getAllHosts
  | getAvailableGroupHosts (groupId : GroupId)
  | getAvailableHosts
  | getFirstAvailableGroupHost (groupId : GroupId)
  | getHosts (hostsIds : List HostId)
  | getLeasedHost (hostId : HostId)
  | getLeasedHosts (userId : UserId)
  | getLeasedUntilHosts (until_ : Time)
  | getExpiringHostsForUser (userId : UserId) (expiringBefore : Time)
  | getUserById (userId : UserId)
  | getUserByDn (dn : String)
  | getUserByLink (link : String)
  | getUserByTgHandle (tgHandle : String)
  | getAllUsers
  | getAdGroupsLeaseLimits (groups : List String)
  deriving DecidableEq

/-- What a statement yields. -/
def Select.Rows : Select → Type
  | .getAllHosts => List Host
  | .getAvailableGroupHosts _ => List Host
  | .getAvailableHosts => List Host
  | .getFirstAvailableGroupHost _ => Option Host
  | .getHosts _ => List Host
  | .getLeasedHost _ => LeasedHost
  | .getLeasedHosts _ => List LeasedHost
  | .getLeasedUntilHosts _ => List LeasedHost
  | .getExpiringHostsForUser _ _ => List LeasedHost
  | .getUserById _ => Option User
  | .getUserByDn _ => Option User
  | .getUserByLink _ => Option User
  | .getUserByTgHandle _ => Option User
  | .getAllUsers => List User
  | .getAdGroupsLeaseLimits _ => List AdGroupLeaseLimit

/-- The answer to a statement on the rows it reads; `order` is the order that the statement leaves
    open, which also decides which row `LIMIT 1` and `fetch_optional` take. -/
def Select.run (order : List Nat) (v : View) : (q : Select) → Except SqlxError q.Rows
  | .getAllHosts => .ok (orderBy cmpIpAddress order v.hosts)
  | .getAvailableGroupHosts groupId => .ok (orderBy cmpIpAddress order
      (v.hosts.filter fun h => h.userId = none ∧ h.groupId = groupId))
  | .getAvailableHosts => .ok (orderBy cmpIpAddress order (v.hosts.filter fun h => h.userId = none))
  | .getFirstAvailableGroupHost groupId =>
      .ok (arrange order (v.hosts.filter fun h => h.userId = none ∧ h.groupId = groupId)).head?
  | .getHosts hostsIds => .ok (arrange order (v.hosts.filter fun h => h.id ∈ hostsIds))
  | .getLeasedHost hostId =>
      match (arrange order (v.join.filter fun r => r.1.id = hostId)).head? with
      | some r => LeasedHost.ofRow r
      | none => .error .rowNotFound
  | .getLeasedHosts userId => decodeAll (orderBy cmpDeadline order
      (v.join.filter fun r => r.1.userId = some userId))
  | .getLeasedUntilHosts until_ =>
      decodeAll (arrange order (v.join.filter fun r => expiresBefore until_ r.1.toHostRow))
  | .getExpiringHostsForUser userId expiringBefore => decodeAll (orderBy cmpDeadline order
      (v.join.filter fun r =>
        r.1.userId = some userId ∧ expiresBefore expiringBefore r.1.toHostRow))
  | .getUserById userId => .ok (arrange order (v.users.filter fun u => u.id = userId)).head?
  | .getUserByDn dn => .ok (arrange order (v.users.filter fun u => u.dn = dn)).head?
  | .getUserByLink link => .ok (arrange order (v.users.filter fun u => u.link = link)).head?
  | .getUserByTgHandle tgHandle =>
      .ok (arrange order (v.users.filter fun u => u.tgHandle = some tgHandle)).head?
  | .getAllUsers => .ok (arrange order v.users)
  | .getAdGroupsLeaseLimits groups =>
      .ok (arrange order (v.leaseLimits.filter fun l => l.group ∈ groups))

/-! ## Writing -/

/-- The updates of `hosts`. -/
inductive HostWrite where
  | leaseHosts (userId : UserId) (hostsIds : List HostId) (untill : Time)
  | freeHostsForUser (hostsIds : List HostId) (userId : UserId)
  | freeHosts (hostsIds : List HostId)
  | freeAll (userId : UserId)
  | extendHostsLease (hostsIds : List HostId) (hours : Int32)
  deriving DecidableEq

namespace HostWrite

/-- The rows the update hits. -/
def sel : HostWrite → HostId → HostRow → Bool
  | .leaseHosts _ hostsIds _, id, _ => decide (id ∈ hostsIds)
  | .freeHostsForUser hostsIds userId, id, r => decide (id ∈ hostsIds ∧ r.userId = some userId)
  | .freeHosts hostsIds, id, _ => decide (id ∈ hostsIds)
  | .freeAll userId, _, r => decide (r.userId = some userId)
  | .extendHostsLease hostsIds _, id, r => decide (id ∈ hostsIds ∧ r.leasedUntil ≠ none)

/-- What it makes of a row. -/
def set : HostWrite → HostRow → HostRow
  | .leaseHosts userId _ untill, r => { r with userId := some userId, leasedUntil := some untill }
  | .freeHostsForUser _ _, r => { r with userId := none, leasedUntil := none }
  | .freeHosts _, r => { r with userId := none, leasedUntil := none }
  | .freeAll _, r => { r with userId := none, leasedUntil := none }
  | .extendHostsLease _ hours, r =>
      -- Postgres refuses a sum after the year 294276; an `i32` of hours is some 245000 years.
      { r with leasedUntil := r.leasedUntil.map (· + TimeDelta.hours hours.toInt) }

/-- The user the update writes into `user_id`, which the foreign key looks up. -/
def grantee : HostWrite → Option UserId
  | .leaseHosts userId _ _ => some userId
  | _ => none

/-- The deadline that is sent along with the update. -/
def deadline : HostWrite → Option Time
  | .leaseHosts _ _ untill => some untill
  | _ => none

end HostWrite

/-- The statements that write. -/
inductive Write where
  | hosts (w : HostWrite)
  | setUserTgHandle (userId : UserId) (tgHandle : String)
  | addUser (dn : String) (tgHandle : Option String) (email : String)
  deriving DecidableEq

/-- `add_user` returns the id of the new row. -/
def Write.Res : Write → Type
  | .hosts _ => Unit
  | .setUserTgHandle _ _ => Unit
  | .addUser _ _ _ => UserId

namespace Db

/-- The row `u` of `users`, as the transaction `x` sees it. -/
def seesUser (x : TxId) (u : UserId) (db : Db) : Bool := ((db.users.cell u).view x).isSome

/-- `UPDATE hosts`. A deadline that is no `timestamptz` is turned down when it comes in. The foreign
    key is checked once the rows are written, and only if there are any. -/
def updateHosts (x : TxId) (w : HostWrite) (db : Db) : Option (Except SqlxError Unit × Db) :=
  if w.deadline.any (· < MIN_TIMESTAMP) then some (.error .datetimeFieldOverflow, db)
  else (db.hosts.update x w.sel w.set).map fun t =>
    if (db.hosts.rows x).any (fun r => w.sel r.1 r.2) && w.grantee.any (fun u => !db.seesUser x u)
    then (.error .foreignKeyViolation, db)
    else (.ok (), { db with hosts := t })

/-- Some version of the row, committed or pending, has this `dn` or this `link`. -/
def clashes (dn link : String) (c : Cell TxId UserRow) : Bool :=
  let hit (r : Option UserRow) := r.any fun r => r.dn = dn ∨ r.link = link
  hit c.committed || (c.pending.any fun v => hit v.2)

/-- `INSERT INTO users`: `id` comes from the sequence, which a rollback does not turn back, and
    `link` from `gen_random_uuid()`. A row with the same `dn` or `link` that somebody else is
    writing makes the insert wait; one that is there makes it fail. -/
def insertUser (x : TxId) (uuid dn : String) (tgHandle : Option String) (email : String) (db : Db) :
    Option (Except SqlxError UserId × Db) :=
  let id : UserId := ⟨Int32.ofNat db.nextUserId⟩
  let db' := { db with nextUserId := db.nextUserId + 1 }
  if db.users.cells.any fun c => c.2.locked x && clashes dn uuid c.2 then none
  else if db.users.cells.any fun c => (c.2.view x).any fun r => r.dn = dn ∨ r.link = uuid then
    some (.error .uniqueViolation, db')
  else
    match db.users.insert x id ⟨dn, tgHandle, email, uuid⟩ with
    | none => some (.error .uniqueViolation, db')
    | some t => some (.ok id, { db' with users := t })

/-- A statement that writes, run by the transaction `x`. -/
def execute (x : TxId) (uuid : String) (db : Db) :
    (w : Write) → Option (Except SqlxError w.Res × Db)
  | .hosts w => db.updateHosts x w
  | .setUserTgHandle userId tgHandle =>
      (db.users.update x (fun id _ => id = userId)
        fun r => { r with tgHandle := some tgHandle }).map fun t =>
          (.ok (), { db with users := t })
  | .addUser dn tgHandle email => db.insertUser x uuid dn tgHandle email

def commit (x : TxId) (db : Db) : Db :=
  { db with users := db.users.commit x, hosts := db.hosts.commit x }

def rollback (x : TxId) (db : Db) : Db :=
  { db with users := db.users.rollback x, hosts := db.hosts.rollback x }

end Db

end Tachikoma
