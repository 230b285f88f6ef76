import Tachikoma.System
import Tachikoma.Logic.MessageSenders
import Tachikoma.Web.Api

/-!
# What comes in from outside

The handlers of the pages, of the JSON API, of the tools and of the extend button read what they are
sent, refuse what they do not like and call the service with the rest. Here a handler is the call it
makes, if it makes one; what it renders afterwards is left out.

The three ways over HTTP check the duration of a lease, each on its own, and agree on the longest
one. The button has no such check.
-/

set_option autoImplicit false

namespace Tachikoma

/-- A request of a user who has logged in, or a button pressed in a chat. -/
inductive Request where
  /-- `POST /hosts/lease`, `/hosts/lease/random`, `/hosts/release`, `/hosts/release/all`
      (`src/web/hosts.rs`). -/
  | pageLeaseHosts (form : Form)
  | pageLeaseRandom (groupId : GroupId) (form : Form)
  | pageReleaseHosts (form : Form)
  | pageReleaseAll
  /-- The same under `/api/v1` (`src/web/api.rs`). -/
  | apiLeaseHosts (body : Serde.Json)
  | apiLeaseRandom (body : Serde.Json)
  | apiReleaseHosts (body : Serde.Json)
  | apiReleaseAll
  /-- The tools (`src/mcp/mod.rs`). -/
  | toolLeaseHosts (args : Serde.Json)
  | toolLeaseRandomHost (args : Serde.Json)
  | toolReleaseHosts (args : Serde.Json)
  | toolReleaseAllHosts
  /-- A button, pressed by an account with whatever data (`src/bot/handlers.rs`). -/
  | extendCallback (tgAccount : UInt64) (data : Option String)

namespace Request

/-- The duration of a form that was read. -/
def formDuration (data : LeaseForm) : TimeDelta := TimeDelta.hours (data.hours + data.days * 24)

/-- The call that the handler makes for the user; `none` when it refuses. -/
def call (service : HostsService) (user : AuthUser) : Request → Option Call
  | pageLeaseHosts form => do
    let data ← (LeaseForm.decode form).toOption
    return .lease service user.id user.groups data.hostsIds (formDuration data)
  | pageLeaseRandom groupId form => do
    let data ← (LeaseForm.decode form).toOption
    return .leaseRandom service user.id user.groups (formDuration data) groupId
  | pageReleaseHosts form => do
    let data ← (ReleaseForm.decode form).toOption
    return .free user.id data.hostsIds
  | pageReleaseAll => some (.freeAll user.id)
  | apiLeaseHosts body => do
    let body ← (LeaseRequest.decode body).toOption
    let duration ← (leaseDuration body.days body.hours).toOption
    return .lease service user.id user.groups body.hostsIds duration
  | apiLeaseRandom body => do
    let body ← (LeaseRandomRequest.decode body).toOption
    let duration ← (leaseDuration body.days body.hours).toOption
    return .leaseRandom service user.id user.groups duration body.groupId
  | apiReleaseHosts body => do
    let body ← (ReleaseRequest.decode body).toOption
    return .free user.id body.hostsIds
  | apiReleaseAll => some (.freeAll user.id)
  | toolLeaseHosts args => do
    let args ← (LeaseHostsArgs.decode args).toOption
    let duration ← (leaseDuration args.days args.hours).toOption
    return .lease service user.id user.groups (args.hostsIds.map .mk) duration
  | toolLeaseRandomHost args => do
    let args ← (LeaseRandomArgs.decode args).toOption
    let duration ← (leaseDuration args.days args.hours).toOption
    return .leaseRandom service user.id user.groups duration ⟨args.groupId⟩
  | toolReleaseHosts args => do
    let args ← (ReleaseHostsArgs.decode args).toOption
    return .free user.id (args.hostsIds.map .mk)
  | toolReleaseAllHosts => some (.freeAll user.id)
  | extendCallback tgAccount data =>
    (handleExtendCallback (tgUserId tgAccount) data).map fun x => .extendUserHosts x.1 x.2

end Request

/-! ## The longest lease -/

/-- How long a call leases for. -/
def Call.leaseFor : Call → Option TimeDelta
  | .lease _ _ _ _ leaseFor => some leaseFor
  | .leaseRandom _ _ _ leaseFor _ => some leaseFor
  | _ => none

/-- 63 days and 23 hours. -/
def MAX_LEASE : TimeDelta := TimeDelta.hours (63 * 24 + 23)

theorem TimeDelta.hours_le {m n : Int} (h : m ≤ n) : TimeDelta.hours m ≤ TimeDelta.hours n :=
  Int.mul_le_mul_of_nonneg_right h (by decide)

theorem leaseDuration_le {days hours : UInt8} {d : TimeDelta}
    (h : leaseDuration days hours = .ok d) : d ≤ MAX_LEASE := by
  unfold leaseDuration at h
  split at h
  · cases h
  rename_i hdays
  split at h
  · cases h
  rename_i hhours
  have hdays' : days.toNat ≤ 63 := UInt8.le_iff_toNat_le.mp (UInt8.not_lt.mp hdays)
  have hhours' : hours.toNat ≤ 23 := UInt8.le_iff_toNat_le.mp (UInt8.not_lt.mp hhours)
  cases Except.ok.inj h
  exact TimeDelta.hours_le (by omega)

theorem tryFromU8_le {max v : Int} {value : String} (h : tryFromU8 max value = .ok v) :
    v ≤ max := by
  unfold tryFromU8 at h
  split at h
  · split at h
    · rename_i hle
      cases Except.ok.inj h
      exact hle
    · cases h
  · cases h

theorem Form.field_eq_ok {α : Type} {convert : String → Except String α} {name : String}
    {form : Form} {a : α} (h : form.field convert name = .ok a) :
    ∃ value, convert value = .ok a := by
  unfold Form.field at h
  split at h
  · cases h
  · rename_i entry _
    split at h
    · rename_i b hb
      exact ⟨entry.2, (Except.ok.inj h) ▸ hb⟩
    · cases h
  · cases h

namespace Request

theorem formDuration_le {form : Form} {data : LeaseForm} (h : LeaseForm.decode form = .ok data) :
    formDuration data ≤ MAX_LEASE := by
  obtain ⟨days, hdays, h⟩ := Serde.exists_of_bind_eq_ok h
  obtain ⟨hours, hhours, h⟩ := Serde.exists_of_bind_eq_ok h
  obtain ⟨hostsIds, -, h⟩ := Serde.exists_of_bind_eq_ok h
  cases Except.ok.inj h
  obtain ⟨_, hdays⟩ := Form.field_eq_ok hdays
  obtain ⟨_, hhours⟩ := Form.field_eq_ok hhours
  have hdays : days ≤ 63 := tryFromU8_le hdays
  have hhours : hours ≤ 23 := tryFromU8_le hhours
  exact TimeDelta.hours_le (by show hours + days * 24 ≤ 63 * 24 + 23; omega)

theorem eq_ok_of_toOption {ε α : Type} {x : Except ε α} {a : α} (h : x.toOption = some a) :
    x = .ok a := by
  cases x with
  | error e => cases h
  | ok b => exact congrArg Except.ok (Option.some.inj h)

/-- Every way to lease checks the duration; the ways to release grant nothing. -/
theorem call_leaseFor_le {service : HostsService} {user : AuthUser} {request : Request} {κ : Call}
    (h : request.call service user = some κ) {d : TimeDelta} (hd : κ.leaseFor = some d) :
    d ≤ MAX_LEASE := by
  cases request with
  | pageLeaseHosts form =>
    obtain ⟨data, hdata, hκ⟩ := Option.bind_eq_some_iff.mp h
    cases Option.some.inj hκ
    cases Option.some.inj hd
    exact formDuration_le (eq_ok_of_toOption hdata)
  | pageLeaseRandom groupId form =>
    obtain ⟨data, hdata, hκ⟩ := Option.bind_eq_some_iff.mp h
    cases Option.some.inj hκ
    cases Option.some.inj hd
    exact formDuration_le (eq_ok_of_toOption hdata)
  | apiLeaseHosts body =>
    obtain ⟨_, -, h⟩ := Option.bind_eq_some_iff.mp h
    obtain ⟨duration, hduration, hκ⟩ := Option.bind_eq_some_iff.mp h
    cases Option.some.inj hκ
    cases Option.some.inj hd
    exact leaseDuration_le (eq_ok_of_toOption hduration)
  | apiLeaseRandom body =>
    obtain ⟨_, -, h⟩ := Option.bind_eq_some_iff.mp h
    obtain ⟨duration, hduration, hκ⟩ := Option.bind_eq_some_iff.mp h
    cases Option.some.inj hκ
    cases Option.some.inj hd
    exact leaseDuration_le (eq_ok_of_toOption hduration)
  | toolLeaseHosts args =>
    obtain ⟨_, -, h⟩ := Option.bind_eq_some_iff.mp h
    obtain ⟨duration, hduration, hκ⟩ := Option.bind_eq_some_iff.mp h
    cases Option.some.inj hκ
    cases Option.some.inj hd
    exact leaseDuration_le (eq_ok_of_toOption hduration)
  | toolLeaseRandomHost args =>
    obtain ⟨_, -, h⟩ := Option.bind_eq_some_iff.mp h
    obtain ⟨duration, hduration, hκ⟩ := Option.bind_eq_some_iff.mp h
    cases Option.some.inj hκ
    cases Option.some.inj hd
    exact leaseDuration_le (eq_ok_of_toOption hduration)
  | pageReleaseHosts form =>
    obtain ⟨_, -, hκ⟩ := Option.bind_eq_some_iff.mp h
    cases Option.some.inj hκ
    cases hd
  | apiReleaseHosts body =>
    obtain ⟨_, -, hκ⟩ := Option.bind_eq_some_iff.mp h
    cases Option.some.inj hκ
    cases hd
  | toolReleaseHosts args =>
    obtain ⟨_, -, hκ⟩ := Option.bind_eq_some_iff.mp h
    cases Option.some.inj hκ
    cases hd
  | pageReleaseAll => cases Option.some.inj h; cases hd
  | apiReleaseAll => cases Option.some.inj h; cases hd
  | toolReleaseAllHosts => cases Option.some.inj h; cases hd
  | extendCallback tgAccount data =>
    obtain ⟨_, -, rfl⟩ := Option.map_eq_some_iff.mp h
    cases hd

end Request

end Tachikoma
