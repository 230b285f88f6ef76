import Tachikoma.Web.Api

/-!
# Which ids come back

An id of a host leaves the server in the JSON of an answer and comes back in the body of a request.
It leaves as a number (`derive(Serialize)` of the new type). `HostId` is read by
`try_from = "String"`, which suits the forms, and so the body of the JSON API has to name a host by
a string: **no printed id is accepted**, and only the empty list comes back.

The two other ways in are the measure. The forms read back what `Display` prints
(`values_hostsIds`), and the tools, whose ids are plain `i32`, read what the API printed
(`decodeI32_printedIds`).
-/

set_option autoImplicit false

namespace Tachikoma

open Serde

/-- The JSON values that stand for the ids in an answer that lists these hosts. -/
def printedIds (fmt : Formats) (hosts : List HostInfo) : List Json :=
  hosts.filterMap fun host => ((HostInfo.codec fmt).encode host).get? "id"

theorem printedIds_eq (fmt : Formats) (hosts : List HostInfo) :
    printedIds fmt hosts = hosts.map fun host => HostId.codec.encode host.id := by
  unfold printedIds
  induction hosts with
  | nil => rfl
  | cons host hosts ih => rw [List.filterMap_cons, HostInfo.get?_id, ih, List.map_cons]

/-! ## The two other ways in -/

/-- The tools read the ids that the API prints. -/
theorem decodeI32_printedIds (fmt : Formats) (hosts : List HostInfo) :
    decodeVec decodeI32 (.array (printedIds fmt hosts)) = .ok
      (hosts.map fun host => host.id.val) := by
  have hmap : printedIds fmt hosts =
      (hosts.map fun host => host.id.val).map fun n => i32.encode n := by
    rw [printedIds_eq, List.map_map]
    rfl
  rw [hmap]
  exact decodeElements_map fun n _ => i32_roundTrips n

/-- The forms read the ids that the pages show. -/
theorem values_hostsIds (ids : List HostId) :
    Form.values HostId.tryFrom "hosts_ids" (ids.map fun id => ("hosts_ids", id.display)) =
      .ok ids := by
  have hfilter : (ids.map fun id => ("hosts_ids", id.display)).filter
      (fun entry => decide (entry.1 = "hosts_ids")) = ids.map fun id =>
        ("hosts_ids", id.display) := by
    rw [List.filter_eq_self]
    intro entry hentry
    obtain ⟨id, -, rfl⟩ := List.mem_map.mp hentry
    rfl
  rw [Form.values, hfilter, List.map_map]
  exact decodeElements_map fun id _ => HostId.decode_display id

/-! ## The JSON API -/

/-- A list of printed ids is accepted only when it is empty. -/
theorem decodeVec_printedIds (fmt : Formats) (hosts : List HostInfo) {ids : List HostId} :
    decodeVec HostId.codec.decode (.array (printedIds fmt hosts)) = .ok ids ↔
      hosts = [] ∧ ids = [] := by
  have hrefused : ∀ v ∈ printedIds fmt hosts, ∃ e, HostId.codec.decode v = .error e := by
    intro v hv
    rw [printedIds_eq] at hv
    obtain ⟨host, -, rfl⟩ := List.mem_map.mp hv
    exact ⟨_, HostId.decode_encode host.id⟩
  rw [decodeVec, decodeElements_eq_ok_iff hrefused, printedIds_eq, List.map_eq_nil_iff]

theorem LeaseRequest.hosts_of_decode {fmt : Formats} {hosts : List HostInfo} {body : Json}
    {entries : Entries} {r : LeaseRequest}
    (hentries : entriesOf LeaseRequest.fields body = .ok entries)
    (hhosts : valueAt? "hosts_ids" entries = .ok (some (.array (printedIds fmt hosts))))
    (h : LeaseRequest.decode body = .ok r) : hosts = [] ∧ r.hostsIds = [] := by
  rw [LeaseRequest.decode, record, hentries, ok_bind, defaultField_of_entry hhosts] at h
  obtain ⟨ids, hids, h⟩ := exists_of_bind_eq_ok h
  obtain ⟨days, -, h⟩ := exists_of_bind_eq_ok h
  obtain ⟨hours, -, h⟩ := exists_of_bind_eq_ok h
  cases h
  exact (decodeVec_printedIds fmt hosts).mp hids

theorem ReleaseRequest.hosts_of_decode {fmt : Formats} {hosts : List HostInfo} {body : Json}
    {entries : Entries} {r : ReleaseRequest}
    (hentries : entriesOf ReleaseRequest.fields body = .ok entries)
    (hhosts : valueAt? "hosts_ids" entries = .ok (some (.array (printedIds fmt hosts))))
    (h : ReleaseRequest.decode body = .ok r) : hosts = [] ∧ r.hostsIds = [] := by
  rw [ReleaseRequest.decode, record, hentries, ok_bind, field_of_entry hhosts] at h
  obtain ⟨ids, hids, h⟩ := exists_of_bind_eq_ok h
  cases h
  exact (decodeVec_printedIds fmt hosts).mp hids

/-- **Which bodies are accepted with the hosts they name.** A body whose `hosts_ids` are printed ids
    is accepted, and names those hosts, exactly when it names none and the rest of it is right; and
    no view, no row of a host comes back from its JSON. -/
theorem printedIds_accepted_iff (fmt : Formats) :
    (∀ (hosts : List HostInfo) (body : Json) (entries : Entries),
      entriesOf LeaseRequest.fields body = .ok entries →
      valueAt? "hosts_ids" entries = .ok (some (.array (printedIds fmt hosts))) →
      ((∃ r, LeaseRequest.decode body = .ok r ∧ r.hostsIds = hosts.map (·.id)) ↔
        hosts = [] ∧ ∃ r, LeaseRequest.decode body = .ok r)) ∧
    (∀ (hosts : List HostInfo) (body : Json) (entries : Entries),
      entriesOf ReleaseRequest.fields body = .ok entries →
      valueAt? "hosts_ids" entries = .ok (some (.array (printedIds fmt hosts))) →
      ((∃ r, ReleaseRequest.decode body = .ok r ∧ r.hostsIds = hosts.map (·.id)) ↔
        hosts = [] ∧ ∃ r, ReleaseRequest.decode body = .ok r)) ∧
    (∀ host, ¬ (HostInfo.codec fmt).RoundTrips host) ∧
      (∀ host, ¬ (Host.codec fmt).RoundTrips host) ∧
    (∀ host, ¬ (LeasedHost.codec fmt).RoundTrips host) ∧
    ∀ host, ¬ (HostListing.codec fmt).RoundTrips host := by
  -- The two requests, and then the four printed records.
  refine ⟨?_, ?_, ?_, ?_, ?_, ?_⟩
  · intro hosts body entries hentries hhosts
    constructor
    · intro h
      obtain ⟨r, hr, -⟩ := h
      exact ⟨(LeaseRequest.hosts_of_decode hentries hhosts hr).1, r, hr⟩
    · intro h
      obtain ⟨rfl, r, hr⟩ := h
      exact ⟨r, hr, (LeaseRequest.hosts_of_decode hentries hhosts hr).2⟩
  · intro hosts body entries hentries hhosts
    constructor
    · intro h
      obtain ⟨r, hr, -⟩ := h
      exact ⟨(ReleaseRequest.hosts_of_decode hentries hhosts hr).1, r, hr⟩
    · intro h
      obtain ⟨rfl, r, hr⟩ := h
      exact ⟨r, hr, (ReleaseRequest.hosts_of_decode hentries hhosts hr).2⟩
  · intro host h
    rw [Codec.RoundTrips, HostInfo.decode_encode] at h
    cases h
  · intro host h
    rw [Codec.RoundTrips, Host.decode_encode] at h
    cases h
  · intro host h
    rw [Codec.RoundTrips, LeasedHost.decode_encode] at h
    cases h
  · intro host h
    rw [Codec.RoundTrips, HostListing.decode_encode] at h
    cases h

/-! A free host, and requests for it. Its view has no time and no address of a network in it, so it
does not matter how these are written. -/

def freeHost : HostInfo := ⟨⟨1⟩, "host1", "10.0.0.1", none, none⟩

def plainFormats : Formats where
  dateTime := ⟨fun t => .int t, decodeInt (-2 ^ 63) (2 ^ 63), fun _ => nofun⟩
  ipNetwork := ⟨fun ip => .array [.bool ip.v6, .int ip.addr, .int ip.bits],
    fun
      | .array [.bool v6, .int addr, .int bits] => .ok ⟨v6, addr.toNat, bits.toNat⟩
      | _ => .error .invalidType,
    fun _ => nofun⟩

def leaseBody (hosts : List HostInfo) : Json :=
  .object [("hosts_ids", .array (printedIds plainFormats hosts)), ("days", .int 1),
    ("hours", .int 0)]

def releaseBody (hosts : List HostInfo) : Json :=
  .object [("hosts_ids", .array (printedIds plainFormats hosts))]

theorem printedIds_accepted_iff_small :
    ((∃ r, LeaseRequest.decode (leaseBody [freeHost]) = .ok r ∧
        r.hostsIds = [freeHost].map (·.id)) ↔
      [freeHost] = [] ∧ ∃ r, LeaseRequest.decode (leaseBody [freeHost]) = .ok r) ∧
    ((∃ r, ReleaseRequest.decode (releaseBody []) = .ok r ∧
        r.hostsIds = ([] : List HostInfo).map (·.id)) ↔
      ([] : List HostInfo) = [] ∧ ∃ r, ReleaseRequest.decode (releaseBody []) = .ok r) :=
  ⟨(printedIds_accepted_iff plainFormats).1 [freeHost] (leaseBody [freeHost]) _ rfl
      (valueAt?_cons_self (by decide)),
    (printedIds_accepted_iff plainFormats).2.1 [] (releaseBody []) _ rfl
      (valueAt?_cons_self (by decide))⟩

/-- The host that the API has just shown cannot be asked for by the id it was shown with. -/
theorem not_printedIds_accepted :
    ¬ ∃ r, LeaseRequest.decode (leaseBody [freeHost]) = .ok r ∧
      r.hostsIds = [freeHost].map (·.id) := by
  intro h
  obtain ⟨r, hr, -⟩ := h
  have hrefused : LeaseRequest.decode (leaseBody [freeHost]) = .error .invalidType := by
    decide +kernel
  rw [hrefused] at hr
  cases hr

end Tachikoma
