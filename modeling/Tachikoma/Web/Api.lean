import Tachikoma.Web.Templates

/-!
# Requests (`src/web/api.rs`, `src/web/hosts.rs`, `src/mcp/mod.rs`)

What the three ways to lease over HTTP are sent: the bodies of the JSON API, the forms of the pages
and the arguments of the MCP tools. The ids of hosts are a `Vec<HostId>` in the first two and a
`Vec<i32>` in the third.
-/

set_option autoImplicit false

namespace Tachikoma

open Serde

/-! ## The JSON API -/

structure LeaseRequest where
  hostsIds : List HostId
  days : UInt8
  hours : UInt8
  deriving DecidableEq

def LeaseRequest.fields : List String := ["hosts_ids", "days", "hours"]

def LeaseRequest.decode : Decoder LeaseRequest :=
  record LeaseRequest.fields fun entries => do
    let hostsIds ← defaultField [] (decodeVec HostId.codec.decode) "hosts_ids" entries
    let days ← field decodeU8 "days" entries
    let hours ← field decodeU8 "hours" entries
    return { hostsIds, days, hours }

structure LeaseRandomRequest where
  groupId : GroupId
  days : UInt8
  hours : UInt8
  deriving DecidableEq

def LeaseRandomRequest.decode : Decoder LeaseRandomRequest :=
  record ["group_id", "days", "hours"] fun entries => do
    let groupId ← field GroupId.codec.decode "group_id" entries
    let days ← field decodeU8 "days" entries
    let hours ← field decodeU8 "hours" entries
    return { groupId, days, hours }

structure ReleaseRequest where
  hostsIds : List HostId
  deriving DecidableEq

def ReleaseRequest.fields : List String := ["hosts_ids"]

def ReleaseRequest.decode : Decoder ReleaseRequest :=
  record ReleaseRequest.fields fun entries => do
    let hostsIds ← field (decodeVec HostId.codec.decode) "hosts_ids" entries
    return { hostsIds }

/-- `lease_duration`, of the API and of the tools. -/
def leaseDuration (days hours : UInt8) : Except String TimeDelta :=
  if days > 63 then .error "days must be between 0 and 63"
  else if hours > 23 then .error "hours must be between 0 and 23"
  else .ok (TimeDelta.hours (hours.toNat + days.toNat * 24))

/-! ## The tools -/

structure LeaseHostsArgs where
  hostsIds : List Int32
  days : UInt8
  hours : UInt8
  deriving DecidableEq

def LeaseHostsArgs.decode : Decoder LeaseHostsArgs :=
  record ["hosts_ids", "days", "hours"] fun entries => do
    let hostsIds ← defaultField [] (decodeVec decodeI32) "hosts_ids" entries
    let days ← field decodeU8 "days" entries
    let hours ← field decodeU8 "hours" entries
    return { hostsIds, days, hours }

structure LeaseRandomArgs where
  groupId : Int32
  days : UInt8
  hours : UInt8
  deriving DecidableEq

def LeaseRandomArgs.decode : Decoder LeaseRandomArgs :=
  record ["group_id", "days", "hours"] fun entries => do
    let groupId ← field decodeI32 "group_id" entries
    let days ← field decodeU8 "days" entries
    let hours ← field decodeU8 "hours" entries
    return { groupId, days, hours }

structure ReleaseHostsArgs where
  hostsIds : List Int32
  deriving DecidableEq

def ReleaseHostsArgs.decode : Decoder ReleaseHostsArgs :=
  record ["hosts_ids"] fun entries => do
    let hostsIds ← field (decodeVec decodeI32) "hosts_ids" entries
    return { hostsIds }

/-! ## The forms

A form is a list of fields and their values, all of them strings. -/

abbrev Form : Type := List (String × String)

/-- The value of a field that has to stand once. -/
def Form.field {α : Type} (convert : String → Except String α) (name : String) (form : Form) :
    Except DecodeError α :=
  match form.filter (fun entry => entry.1 = name) with
  | [] => .error (.missingField name)
  | [entry] =>
    match convert entry.2 with
    | .ok a => .ok a
    | .error msg => .error (.custom msg)
  | _ => .error (.duplicateField name)

/-- The values of a field that may be repeated. -/
def Form.values {α : Type} (convert : String → Except String α) (name : String) (form : Form) :
    Except DecodeError (List α) :=
  decodeElements (viaString convert)
    ((form.filter fun entry => entry.1 = name).map fun entry => .string entry.2)

/-- `TryFrom<String>` of `Days` and of `Hours`: a `u8` up to `max`. -/
def tryFromU8 (max : Int) (value : String) : Except String Int :=
  match Decimal.parse 0 256 value with
  | some v => if v ≤ max then .ok v else .error s!"Value must be between 0 and {max}"
  | none => .error s!"Wrong value {value}, can not parse as u8"

def Days.tryFrom : String → Except String Int := tryFromU8 63

def Hours.tryFrom : String → Except String Int := tryFromU8 23

structure LeaseForm where
  days : Int
  hours : Int
  hostsIds : List HostId
  deriving DecidableEq

def LeaseForm.decode (form : Form) : Except DecodeError LeaseForm := do
  let days ← form.field Days.tryFrom "days"
  let hours ← form.field Hours.tryFrom "hours"
  let hostsIds ← form.values HostId.tryFrom "hosts_ids"
  return { days, hours, hostsIds }

structure ReleaseForm where
  hostsIds : List HostId
  deriving DecidableEq

/-- `hosts_ids` has no default here: it has to be there at least once. -/
def ReleaseForm.decode (form : Form) : Except DecodeError ReleaseForm :=
  if form.all fun entry => entry.1 ≠ "hosts_ids" then .error (.missingField "hosts_ids")
  else do
    let hostsIds ← form.values HostId.tryFrom "hosts_ids"
    return { hostsIds }

end Tachikoma
