import Tachikoma.Db.Serde

/-!
# What the server shows (`src/web/templates.rs`)

The views of hosts that pages and JSON answers are made of. They are `Serialize` for the JSON API,
and `Deserialize` as well.
-/

set_option autoImplicit false

namespace Tachikoma

open Serde

structure GroupInfo where
  id : GroupId
  name : String
  deriving DecidableEq, Repr

structure LeaseInfo where
  leasedUntil : Time
  validFor : String
  leasedBy : String
  deriving DecidableEq, Repr

structure HostInfo where
  id : HostId
  hostname : String
  ipAddress : String
  leaseInfo : Option LeaseInfo
  group : Option GroupInfo
  deriving DecidableEq, Repr

def GroupInfo.codec : Codec GroupInfo where
  encode group := .object [("id", GroupId.codec.encode group.id), ("name", .string group.name)]
  decode := record ["id", "name"] fun entries => do
    let id ← field GroupId.codec.decode "id" entries
    let name ← field decodeString "name" entries
    return { id, name }
  encode_ne_null _ := nofun

def LeaseInfo.codec (fmt : Formats) : Codec LeaseInfo where
  encode lease := .object [("leased_until", fmt.dateTime.encode lease.leasedUntil),
    ("valid_for", .string lease.validFor), ("leased_by", .string lease.leasedBy)]
  decode := record ["leased_until", "valid_for", "leased_by"] fun entries => do
    let leasedUntil ← field fmt.dateTime.decode "leased_until" entries
    let validFor ← field decodeString "valid_for" entries
    let leasedBy ← field decodeString "leased_by" entries
    return { leasedUntil, validFor, leasedBy }
  encode_ne_null _ := nofun

def HostInfo.codec (fmt : Formats) : Codec HostInfo where
  encode host := .object ([("id", HostId.codec.encode host.id), ("hostname", .string host.hostname),
    ("ip_address", .string host.ipAddress),
    ("lease_info", encodeOption (LeaseInfo.codec fmt) host.leaseInfo)] ++
      -- `skip_serializing_if = "Option::is_none"`
      match host.group with
      | none => []
      | some group => [("group", GroupInfo.codec.encode group)])
  decode := record ["id", "hostname", "ip_address", "lease_info", "group"] fun entries => do
    let id ← field HostId.codec.decode "id" entries
    let hostname ← field decodeString "hostname" entries
    let ipAddress ← field decodeString "ip_address" entries
    let leaseInfo ← optionField (LeaseInfo.codec fmt).decode "lease_info" entries
    let group ← optionField GroupInfo.codec.decode "group" entries
    return { id, hostname, ipAddress, leaseInfo, group }
  encode_ne_null _ := nofun

attribute [local simp] record entriesOf field optionField valueAt? decodeString

theorem GroupInfo.roundTrips (group : GroupInfo) : GroupInfo.codec.RoundTrips group := by
  have hid : GroupId.codec.decode (GroupId.codec.encode group.id) = .ok group.id :=
    GroupId.roundTrips group.id
  simp [Codec.RoundTrips, GroupInfo.codec, hid]

theorem LeaseInfo.roundTrips {fmt : Formats} (h : fmt.Lawful) (lease : LeaseInfo) :
    (LeaseInfo.codec fmt).RoundTrips lease := by
  have huntil : fmt.dateTime.decode (fmt.dateTime.encode lease.leasedUntil) =
      .ok lease.leasedUntil := h.dateTime lease.leasedUntil
  simp [Codec.RoundTrips, LeaseInfo.codec, huntil]

theorem HostInfo.decode_encode (fmt : Formats) (host : HostInfo) :
    (HostInfo.codec fmt).decode ((HostInfo.codec fmt).encode host) = .error .invalidType := by
  cases hgroup : host.group <;>
    simp [HostInfo.codec, hgroup, HostId.decode_encode]

/-- But for the id a view of a host is read back, and also where its group was left out. -/
theorem HostInfo.decode_set_id {fmt : Formats} (h : fmt.Lawful) (host : HostInfo) :
    (HostInfo.codec fmt).decode
      (((HostInfo.codec fmt).encode host).set "id" (.string host.id.display)) = .ok host := by
  have hlease : decodeOption (LeaseInfo.codec fmt).decode
      (encodeOption (LeaseInfo.codec fmt) host.leaseInfo) = .ok host.leaseInfo :=
    decodeOption_encodeOption fun lease _ => lease.roundTrips h
  obtain ⟨id, hostname, ipAddress, leaseInfo, group⟩ := host
  cases group with
  | none =>
    simp [HostInfo.codec, Json.set, HostId.decode_display, hlease, pure, Except.pure]
  | some group =>
    have hgroup : decodeOption GroupInfo.codec.decode (GroupInfo.codec.encode group) =
        .ok (some group) :=
      decodeOption_encodeOption (c := GroupInfo.codec) (a := some group)
        fun group _ => group.roundTrips
    simp [HostInfo.codec, Json.set, HostId.decode_display, hlease, hgroup]

/-- The JSON value that stands for the id of a host in an answer of the API. -/
theorem HostInfo.get?_id (fmt : Formats) (host : HostInfo) :
    ((HostInfo.codec fmt).encode host).get? "id" = some (HostId.codec.encode host.id) := by
  simp [HostInfo.codec, Json.get?]

end Tachikoma
