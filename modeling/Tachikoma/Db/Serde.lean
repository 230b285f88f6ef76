import Tachikoma.Db.Models
import Tachikoma.Lib.Decimal
import Tachikoma.Lib.Serde

/-!
# The rows as JSON (`src/db/models.rs`)

`Serialize` and `Deserialize` of the models. All of them are derived, with one exception: a `HostId`
is read by way of `TryFrom<String>`, which is what the HTML forms send. It is written like the other
ids, as a number.

How a time and an address are written is up to `chrono` and `ipnetwork` (`Formats`).
-/

set_option autoImplicit false

namespace Tachikoma

open Serde

/-- `serde` of the crates that define the two types. -/
structure Formats where
  dateTime : Codec Time
  ipNetwork : Codec IpNetwork

/-- Times and addresses are read back as they were written. -/
structure Formats.Lawful (fmt : Formats) : Prop where
  dateTime : ∀ t, fmt.dateTime.RoundTrips t
  ipNetwork : ∀ ip, fmt.ipNetwork.RoundTrips ip

/-! ## Ids -/

def UserId.codec : Codec UserId where
  encode id := i32.encode id.val
  decode v := (i32.decode v).map UserId.mk
  encode_ne_null _ := nofun

def GroupId.codec : Codec GroupId where
  encode id := i32.encode id.val
  decode v := (i32.decode v).map GroupId.mk
  encode_ne_null _ := nofun

/-- `Display`. -/
def HostId.display (id : HostId) : String := toString id.val.toInt

/-- `TryFrom<String>`. -/
def HostId.tryFrom (value : String) : Except String HostId :=
  match Decimal.parse (-2 ^ 31) (2 ^ 31) value with
  | some v => .ok ⟨Int32.ofInt v⟩
  | none => .error s!"Wrong value {value}, can not parse to as i32"

def HostId.codec : Codec HostId where
  encode id := i32.encode id.val
  decode := viaString HostId.tryFrom
  encode_ne_null _ := nofun

theorem UserId.roundTrips (id : UserId) : UserId.codec.RoundTrips id := by
  show (i32.decode (i32.encode id.val)).map UserId.mk = _
  rw [i32_roundTrips id.val]
  rfl

theorem GroupId.roundTrips (id : GroupId) : GroupId.codec.RoundTrips id := by
  show (i32.decode (i32.encode id.val)).map GroupId.mk = _
  rw [i32_roundTrips id.val]
  rfl

/-- A printed id is read back from the string it is printed as. -/
theorem HostId.tryFrom_display (id : HostId) : HostId.tryFrom id.display = .ok id := by
  have hlo : -2 ^ 31 ≤ id.val.toInt := id.val.le_toInt
  have hhi : id.val.toInt < 2 ^ 31 := id.val.toInt_lt
  rw [HostId.tryFrom, HostId.display, Decimal.parse_toString hlo hhi]
  show Except.ok (⟨Int32.ofInt id.val.toInt⟩ : HostId) = _
  rw [Int32.ofInt_toInt]

theorem HostId.decode_display (id : HostId) :
    HostId.codec.decode (.string id.display) = .ok id :=
  viaString_string id.tryFrom_display

/-- **What is written is not read back**: it is a number, and a string is expected. -/
theorem HostId.decode_encode (id : HostId) :
    HostId.codec.decode (HostId.codec.encode id) = .error .invalidType := rfl

/-! ## Rows -/

def Group.codec : Codec Group where
  encode group := .object [("id", GroupId.codec.encode group.id), ("name", .string group.name)]
  decode := record ["id", "name"] fun entries => do
    let id ← field GroupId.codec.decode "id" entries
    let name ← field decodeString "name" entries
    return { id, name }
  encode_ne_null _ := nofun

def User.codec : Codec User where
  encode user := .object [("id", UserId.codec.encode user.id), ("dn", .string user.dn),
    ("tg_handle", encodeOption string user.tgHandle), ("email", .string user.email),
    ("link", .string user.link)]
  decode := record ["id", "dn", "tg_handle", "email", "link"] fun entries => do
    let id ← field UserId.codec.decode "id" entries
    let dn ← field decodeString "dn" entries
    let tgHandle ← optionField decodeString "tg_handle" entries
    let email ← field decodeString "email" entries
    let link ← field decodeString "link" entries
    return { id, dn, tgHandle, email, link }
  encode_ne_null _ := nofun

def Host.codec (fmt : Formats) : Codec Host where
  encode host := .object [("id", HostId.codec.encode host.id), ("hostname", .string host.hostname),
    ("ip_address", fmt.ipNetwork.encode host.ipAddress),
    ("leased_until", encodeOption fmt.dateTime host.leasedUntil),
    ("user_id", encodeOption UserId.codec host.userId),
    ("group_id", GroupId.codec.encode host.groupId)]
  decode := record ["id", "hostname", "ip_address", "leased_until", "user_id", "group_id"]
    fun entries => do
      let id ← field HostId.codec.decode "id" entries
      let hostname ← field decodeString "hostname" entries
      let ipAddress ← field fmt.ipNetwork.decode "ip_address" entries
      let leasedUntil ← optionField fmt.dateTime.decode "leased_until" entries
      let userId ← optionField UserId.codec.decode "user_id" entries
      let groupId ← field GroupId.codec.decode "group_id" entries
      return { id, hostname, ipAddress, leasedUntil, userId, groupId }
  encode_ne_null _ := nofun

def LeasedHost.codec (fmt : Formats) : Codec LeasedHost where
  encode host := .object [("id", HostId.codec.encode host.id), ("hostname", .string host.hostname),
    ("ip_address", fmt.ipNetwork.encode host.ipAddress),
    ("leased_until", fmt.dateTime.encode host.leasedUntil),
    ("group", encodeOption Group.codec host.group), ("user", User.codec.encode host.user)]
  decode := record ["id", "hostname", "ip_address", "leased_until", "group", "user"]
    fun entries => do
      let id ← field HostId.codec.decode "id" entries
      let hostname ← field decodeString "hostname" entries
      let ipAddress ← field fmt.ipNetwork.decode "ip_address" entries
      let leasedUntil ← field fmt.dateTime.decode "leased_until" entries
      let group ← optionField Group.codec.decode "group" entries
      let user ← field User.codec.decode "user" entries
      return { id, hostname, ipAddress, leasedUntil, group, user }
  encode_ne_null _ := nofun

def HostListing.codec (fmt : Formats) : Codec HostListing where
  encode host := .object [("id", HostId.codec.encode host.id), ("hostname", .string host.hostname),
    ("ip_address", fmt.ipNetwork.encode host.ipAddress),
    ("leased_until", encodeOption fmt.dateTime host.leasedUntil),
    ("group", encodeOption Group.codec host.group),
    ("user_id", encodeOption UserId.codec host.userId), ("dn", encodeOption string host.dn),
    ("tg_handle", encodeOption string host.tgHandle), ("email", encodeOption string host.email),
    ("link", encodeOption string host.link)]
  decode := record ["id", "hostname", "ip_address", "leased_until", "group", "user_id", "dn",
    "tg_handle", "email", "link"] fun entries => do
      let id ← field HostId.codec.decode "id" entries
      let hostname ← field decodeString "hostname" entries
      let ipAddress ← field fmt.ipNetwork.decode "ip_address" entries
      let leasedUntil ← optionField fmt.dateTime.decode "leased_until" entries
      let group ← optionField Group.codec.decode "group" entries
      let userId ← optionField UserId.codec.decode "user_id" entries
      let dn ← optionField decodeString "dn" entries
      let tgHandle ← optionField decodeString "tg_handle" entries
      let email ← optionField decodeString "email" entries
      let link ← optionField decodeString "link" entries
      return { id, hostname, ipAddress, leasedUntil, group, userId, dn, tgHandle, email, link }
  encode_ne_null _ := nofun

-- What reading a record comes to, for the lemmas on the rows below.
attribute [local simp] record entriesOf field optionField valueAt? decodeString

theorem decode_text (text : Option String) :
    decodeOption decodeString (encodeOption string text) = .ok text :=
  decodeOption_encodeOption fun s _ => string_roundTrips s

theorem Group.roundTrips (group : Group) : Group.codec.RoundTrips group := by
  have hid : GroupId.codec.decode (GroupId.codec.encode group.id) = .ok group.id :=
    GroupId.roundTrips group.id
  simp [Codec.RoundTrips, Group.codec, hid]

theorem User.roundTrips (user : User) : User.codec.RoundTrips user := by
  have hid : UserId.codec.decode (UserId.codec.encode user.id) = .ok user.id :=
    UserId.roundTrips user.id
  simp [Codec.RoundTrips, User.codec, hid, decode_text]

/-! ## Rows with the id of a host

They are not read back, for the sake of their id alone: with the id as a string they are. -/

theorem Host.decode_encode (fmt : Formats) (host : Host) :
    (Host.codec fmt).decode ((Host.codec fmt).encode host) = .error .invalidType := by
  simp [Host.codec, HostId.decode_encode]

theorem LeasedHost.decode_encode (fmt : Formats) (host : LeasedHost) :
    (LeasedHost.codec fmt).decode ((LeasedHost.codec fmt).encode host) = .error .invalidType := by
  simp [LeasedHost.codec, HostId.decode_encode]

theorem HostListing.decode_encode (fmt : Formats) (host : HostListing) :
    (HostListing.codec fmt).decode ((HostListing.codec fmt).encode host) =
      .error .invalidType := by
  simp [HostListing.codec, HostId.decode_encode]

section Lawful

variable {fmt : Formats}

theorem Formats.Lawful.leasedUntil (h : fmt.Lawful) (t : Option Time) :
    decodeOption fmt.dateTime.decode (encodeOption fmt.dateTime t) = .ok t :=
  decodeOption_encodeOption fun t _ => h.dateTime t

theorem decode_userId (id : Option UserId) :
    decodeOption UserId.codec.decode (encodeOption UserId.codec id) = .ok id :=
  decodeOption_encodeOption fun id _ => id.roundTrips

theorem decode_group (group : Option Group) :
    decodeOption Group.codec.decode (encodeOption Group.codec group) = .ok group :=
  decodeOption_encodeOption fun group _ => group.roundTrips

theorem Host.decode_set_id (h : fmt.Lawful) (host : Host) :
    (Host.codec fmt).decode (((Host.codec fmt).encode host).set "id" (.string host.id.display)) =
      .ok host := by
  have hip : fmt.ipNetwork.decode (fmt.ipNetwork.encode host.ipAddress) = .ok host.ipAddress :=
    h.ipNetwork host.ipAddress
  have hgroup : GroupId.codec.decode (GroupId.codec.encode host.groupId) = .ok host.groupId :=
    host.groupId.roundTrips
  simp [Host.codec, Json.set, HostId.decode_display, hip, hgroup, h.leasedUntil, decode_userId]

theorem LeasedHost.decode_set_id (h : fmt.Lawful) (host : LeasedHost) :
    (LeasedHost.codec fmt).decode
      (((LeasedHost.codec fmt).encode host).set "id" (.string host.id.display)) = .ok host := by
  have hip : fmt.ipNetwork.decode (fmt.ipNetwork.encode host.ipAddress) = .ok host.ipAddress :=
    h.ipNetwork host.ipAddress
  have huntil : fmt.dateTime.decode (fmt.dateTime.encode host.leasedUntil) = .ok host.leasedUntil :=
    h.dateTime host.leasedUntil
  have huser : User.codec.decode (User.codec.encode host.user) = .ok host.user :=
    host.user.roundTrips
  simp [LeasedHost.codec, Json.set, HostId.decode_display, hip, huntil, huser, decode_group]

theorem HostListing.decode_set_id (h : fmt.Lawful) (host : HostListing) :
    (HostListing.codec fmt).decode
      (((HostListing.codec fmt).encode host).set "id" (.string host.id.display)) = .ok host := by
  have hip : fmt.ipNetwork.decode (fmt.ipNetwork.encode host.ipAddress) = .ok host.ipAddress :=
    h.ipNetwork host.ipAddress
  simp [HostListing.codec, Json.set, HostId.decode_display, hip, h.leasedUntil, decode_userId,
    decode_group, decode_text]

end Lawful

end Tachikoma
