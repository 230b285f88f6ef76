import Mathlib

/-!
# The rows (`src/db/models.rs`)

The ids are the `i32` newtypes of the source. A row is kept apart from its id: what a table stores
under an id is a `HostRow` or a `UserRow`, and no statement can change the id of a row it updates.

Times are microseconds since the epoch, the resolution of `timestamptz`; a time that the program
reads from the clock is cut to it when it is bound to a statement.
-/

set_option autoImplicit false

namespace Tachikoma

structure UserId where
  val : Int32
  deriving DecidableEq, Repr

structure HostId where
  val : Int32
  deriving DecidableEq, Repr

structure GroupId where
  val : Int32
  deriving DecidableEq, Repr

/-- `DateTime<Utc>` as Postgres stores it, in microseconds. -/
abbrev Time := Int

/-- `chrono::TimeDelta`, in microseconds. -/
abbrev TimeDelta := Int

def TimeDelta.minutes (n : Int) : TimeDelta := n * 60000000

def TimeDelta.hours (n : Int) : TimeDelta := n * 3600000000

/-- `DateTime::<Utc>::MIN_UTC`, the beginning of the year −262143. -/
def MIN_UTC : Time := -8334601228800000000

/-- `DateTime::<Utc>::MAX_UTC`, the end of the year 262142. -/
def MAX_UTC : Time := 8210266876799999999

/-- A `DateTime<Utc>` can be this moment. -/
def InCalendar (t : Time) : Prop := MIN_UTC ≤ t ∧ t ≤ MAX_UTC

instance (t : Time) : Decidable (InCalendar t) := inferInstanceAs (Decidable (_ ∧ _))

/-- The earliest `timestamptz` of Postgres, in the year 4714 BC. The latest one is after
    `MAX_UTC`. -/
def MIN_TIMESTAMP : Time := -210866803200000000

/-- A `DateTime<Utc>` can be this moment, and a column can hold it. -/
def Storable (t : Time) : Prop := InCalendar t ∧ MIN_TIMESTAMP ≤ t

instance (t : Time) : Decidable (Storable t) := inferInstanceAs (Decidable (_ ∧ _))

/-- `IpNetwork`: an address of 32 or of 128 bits and the length of its network part. -/
structure IpNetwork where
  v6 : Bool
  addr : Nat
  bits : Nat
  deriving DecidableEq, Repr

/-- The order of Postgres' `inet`: the family, the common network bits, the length of the network
    part, the whole address. -/
def IpNetwork.cmp (a b : IpNetwork) : Ordering :=
  let width := if a.v6 then 128 else 32
  let common := width - min a.bits b.bits
  (compare a.v6 b.v6).then <|
    (compare (a.addr / 2 ^ common) (b.addr / 2 ^ common)).then <|
      (compare a.bits b.bits).then (compare a.addr b.addr)

/-- A row of `users`, without its id. -/
structure UserRow where
  dn : String
  tgHandle : Option String
  email : String
  link : String
  deriving DecidableEq, Repr

structure User extends UserRow where
  id : UserId
  deriving DecidableEq, Repr

/-- A row of `hosts`, without its id. -/
structure HostRow where
  hostname : String
  ipAddress : IpNetwork
  leasedUntil : Option Time
  userId : Option UserId
  groupId : GroupId
  deriving DecidableEq, Repr

structure Host extends HostRow where
  id : HostId
  deriving DecidableEq, Repr

structure Group where
  id : GroupId
  name : String
  deriving DecidableEq, Repr

/-- A row of `hosts JOIN users`, decoded. No query that yields one selects a column `group`, so
    `group` always has its default. -/
structure LeasedHost where
  id : HostId
  hostname : String
  ipAddress : IpNetwork
  leasedUntil : Time
  group : Option Group
  user : User
  deriving DecidableEq, Repr

/-- A row of the page of all hosts: a host, with the group and the user it is joined with. -/
structure HostListing where
  id : HostId
  hostname : String
  ipAddress : IpNetwork
  leasedUntil : Option Time
  group : Option Group
  userId : Option UserId
  dn : Option String
  tgHandle : Option String
  email : Option String
  link : Option String
  deriving DecidableEq, Repr

/-- A row of `lease_limits_by_ad_group`; the column `limit` is a `smallint`, decoded to `i32`. -/
structure AdGroupLeaseLimit where
  group : String
  limit : Int
  deriving DecidableEq, Repr

/-- What `sqlx` reports. -/
inductive SqlxError where
  /-- The statement did not reach the database, or its answer did not come back. -/
  | io
  /-- A row does not decode to the type asked for. -/
  | decode
  | rowNotFound
  | datetimeFieldOverflow
  | foreignKeyViolation
  | uniqueViolation
  deriving DecidableEq, Repr

end Tachikoma
