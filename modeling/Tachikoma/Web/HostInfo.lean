import Tachikoma.Lib.Joins
import Tachikoma.Logic.Hosts
import Tachikoma.Logic.Users
import Tachikoma.Web.Templates

/-!
# Views of hosts (`src/web/templates.rs`, `src/db/mod.rs`, `src/web/api.rs`)

Three kinds of rows become a `HostInfo`: a host with the user that the program has looked up, a
leased host, and a row of the filtered listing. The clock is read for every lease that is shown; the
conversions are for one reading of it, and the listing of all hosts reads it as the source does.
-/

set_option autoImplicit false

namespace Tachikoma

open Joins Serde Unordered

/-! ## Addresses and durations as text -/

/-- `Display` of `Ipv4Addr`. -/
def displayIpv4 (addr : Nat) : String :=
  s!"{addr / 2 ^ 24 % 256}.{addr / 2 ^ 16 % 256}.{addr / 2 ^ 8 % 256}.{addr % 256}"

/-- The `u16` segments of an `Ipv6Addr`. -/
def ipv6Segments (addr : Nat) : List Nat :=
  (List.range 8).map fun i => addr / 2 ^ (16 * (7 - i)) % 65536

/-- Where the longest run of zeros begins, the first of several, and how long it is. -/
def longestZeros (segments : List Nat) : Nat × Nat :=
  let step (acc : (Nat × Nat) × (Nat × Nat)) (x : Nat × Nat) :=
    let (longest, current) := acc
    if x.1 = 0 then
      let current := (if current.2 = 0 then x.2 else current.1, current.2 + 1)
      (if longest.2 < current.2 then current else longest, current)
    else (longest, (0, 0))
  (segments.zipIdx.foldl step ((0, 0), (0, 0))).1

def displaySegments (segments : List Nat) : String :=
  ":".intercalate (segments.map fun n => String.ofList (Nat.toDigits 16 n))

/-- `Display` of `Ipv6Addr`. -/
def displayIpv6 (addr : Nat) : String :=
  if addr / 2 ^ 32 = 0xffff then s!"::ffff:{displayIpv4 (addr % 2 ^ 32)}"
  else
    let segments := ipv6Segments addr
    let zeros := longestZeros segments
    if 1 < zeros.2 then
      displaySegments (segments.take zeros.1) ++ "::" ++
        displaySegments (segments.drop (zeros.1 + zeros.2))
    else displaySegments segments

/-- `ip_address.ip().to_string()`. -/
def IpNetwork.ipText (a : IpNetwork) : String :=
  if a.v6 then displayIpv6 a.addr else displayIpv4 a.addr

def TimeDelta.days (n : Int) : TimeDelta := n * 86400000000

/-- `format_duration`; `num_days` and its kin cut towards zero. -/
def formatDuration (duration : TimeDelta) : String :=
  let days := duration.tdiv (TimeDelta.days 1)
  let hours := (duration - TimeDelta.days days).tdiv (TimeDelta.hours 1)
  let minutes := (duration - TimeDelta.days days - TimeDelta.hours hours).tdiv (TimeDelta.minutes 1)
  s!"{days} days, {hours} hours, {minutes} minutes"

/-! ## Conversions -/

def GroupInfo.ofGroup (value : Group) : GroupInfo := ⟨value.id, value.name⟩

/-- `From<(UserDb, DateTime<Utc>)>`. -/
def LeaseInfo.of (now : Time) (user : User) (leasedUntil : Time) : LeaseInfo :=
  { leasedUntil, validFor := formatDuration (leasedUntil - now), leasedBy := user.email }

/-- What is shown of a lease: it takes a holder and a deadline. -/
def leaseInfoOf (now : Time) (user : Option User) (leasedUntil : Option Time) : Option LeaseInfo :=
  match user, leasedUntil with
  | some user, some leasedUntil => some (.of now user leasedUntil)
  | _, _ => none

namespace HostInfo

/-- `From<(Host, Option<UserDb>)>`. -/
def ofHost (now : Time) (host : Host) (user : Option User) : HostInfo where
  id := host.id
  hostname := host.hostname
  ipAddress := host.ipAddress.ipText
  leaseInfo := leaseInfoOf now user host.leasedUntil
  group := none

/-- `From<LeasedHost>`. -/
def ofLeasedHost (now : Time) (value : LeasedHost) : HostInfo where
  id := value.id
  hostname := value.hostname
  ipAddress := value.ipAddress.ipText
  leaseInfo := some (.of now value.user value.leasedUntil)
  group := value.group.map GroupInfo.ofGroup

/-- The user of a row, if none of the columns is missing that a user has. -/
def userOfListing (value : HostListing) : Option User :=
  match value.userId, value.dn, value.email, value.link with
  | some id, some dn, some email, some link =>
    some { id, dn, tgHandle := value.tgHandle, email, link }
  | _, _, _, _ => none

/-- `From<HostListing>`. -/
def ofListing (now : Time) (value : HostListing) : HostInfo where
  id := value.id
  hostname := value.hostname
  ipAddress := value.ipAddress.ipText
  leaseInfo := leaseInfoOf now (userOfListing value) value.leasedUntil
  group := value.group.map GroupInfo.ofGroup

end HostInfo

/-! ## The filtered listing -/

/-- A row of `hosts LEFT JOIN users … LEFT JOIN groups …`. -/
structure ListingRow where
  host : Host
  user : Option User
  group : Option Group

/-- The joined rows. -/
def View.leftJoins (v : View) : List ListingRow :=
  v.hosts.flatMap fun host =>
    (leftMatches User.id v.users host.userId).flatMap fun user =>
      (leftMatches Group.id v.groups (some host.groupId)).map fun group => ⟨host, user, group⟩

/-- `json_build_object('id', groups.id, 'name', groups.name)`. -/
def groupJson (group : Group) : Json :=
  .object [("id", .int group.id.val.toInt), ("name", .string group.name)]

/-- The columns of a row as a `HostListing`. The column `group` is JSON, or `NULL`. -/
def HostListing.ofRow (r : ListingRow) : Except SqlxError HostListing :=
  match decodeOption Group.codec.decode ((r.group.map groupJson).getD .null) with
  | .error _ => .error .decode
  | .ok group => .ok
    { id := r.host.id, hostname := r.host.hostname, ipAddress := r.host.ipAddress,
      leasedUntil := r.host.leasedUntil, group, userId := r.user.map (·.id),
      dn := r.user.map (·.dn), tgHandle := r.user.bind (·.tgHandle),
      email := r.user.map (·.email), link := r.user.map (·.link) }

/-- `WHERE ($1 IS NULL OR users.email = $1) AND ($2 IS NULL OR hosts.group_id = $2)`; a comparison
    with a `NULL` is not true. -/
def listingFilter (email : Option String) (groupId : Option GroupId) (r : ListingRow) : Bool :=
  (email.isNone || (r.user.map (·.email)).any fun e => email = some e) &&
    (groupId.isNone || groupId = some r.host.groupId)

/-- `get_hosts_filtered`. -/
def View.getHostsFiltered (order : List Nat) (v : View) (email : Option String)
    (groupId : Option GroupId) : Except SqlxError (List HostListing) :=
  (orderBy (fun a b => cmpIpAddress a.host b.host) order
    (v.leftJoins.filter (listingFilter email groupId))).mapM HostListing.ofRow

/-! ## The listing of all hosts -/

/-- A host with its holder, if the map knows one: the pairs that `list_all_hosts` converts. -/
def pairHosts (users : List User) (hosts : List Host) : List (Host × Option User) :=
  let users := indexBy User.id users
  hosts.map fun host => (host, host.userId.bind users)

/-- `From<(Host, Option<UserDb>)>`, with the reading of the clock that it takes for a lease. -/
def HostInfo.read {ε : Type} (host : Host) (user : Option User) : Task ε HostInfo :=
  match user, host.leasedUntil with
  | some _, some _ => do
    let now ← utcNow
    return HostInfo.ofHost now host user
  | _, _ => return ⟨host.id, host.hostname, host.ipAddress.ipText, none, none⟩

def HostInfo.readAll {ε : Type} : List (Host × Option User) → Task ε (List HostInfo)
  | [] => return []
  | (host, user) :: rest => do
    let info ← HostInfo.read host user
    let infos ← readAll rest
    return info :: infos

/-- Which of the two readings failed. -/
inductive ListingError where
  | users (e : UserError)
  | hosts (e : HostError)
  deriving DecidableEq, Repr

/-- Who lists: the page `/hosts/all` (`src/web/hosts.rs`), `GET /api/v1/hosts` (`src/web/api.rs`) or
    the tool `list_all_hosts` (`src/mcp/mod.rs`). -/
inductive Front where
  | page
  | api
  | tool
  deriving DecidableEq, Repr

/-- What the front makes of an error: the page unwraps, the other two answer with it. -/
def Front.unwrap {ε α : Type} (front : Front) (ofError : ε → ListingError) (x : Task ε α) :
    Task ListingError α := do
  match ← x.attempt with
  | .ok a => return a
  | .error e =>
    match front with
    | .page => Task.panic "called `Result::unwrap()` on an `Err` value"
    | .api => Task.throw (ofError e)
    | .tool => Task.throw (ofError e)

/-- `list_all_hosts`, which the page calls `get_all_hosts`. -/
def listAllHosts (front : Front) : Task ListingError (List HostInfo) := do
  let users ← front.unwrap .users UsersService.getAllUsers
  let hosts ← front.unwrap .hosts HostsService.getAllHosts
  HostInfo.readAll (pairHosts users hosts)

end Tachikoma
