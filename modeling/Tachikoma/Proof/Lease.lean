import Mathlib.Data.List.Dedup
import Tachikoma.Proof.Steps

/-!
# What a request for hosts reads

The tables between transactions, as `lease` and `lease_random` read them: the hosts of a user, the
limit, and what has to be so for a request to get past its checks. A request names hosts by their
ids; whose they are is asked only of those of its own user (`Tables.NoneOwn`).
-/

set_option autoImplicit false

namespace Tachikoma

open Interleaving Versioned Unordered

/-! ## Reading the tables between transactions -/

namespace Tables

variable (t : Tables)

theorem view_db (x : TxId) : t.db.view x = ⟨t.users, t.hosts, t.groups, t.leaseLimits⟩ := by
  simp only [Db.view, db, Table.ofRows_rows, List.map_map, Function.comp_def, List.map_id']

/-- The hosts of a user. -/
def hostsOf (u : UserId) : List Host := t.hosts.filter fun h => h.userId = some u

variable {t}

@[simp] theorem mem_hostsOf {u : UserId} {h : Host} :
    h ∈ t.hostsOf u ↔ h ∈ t.hosts ∧ h.userId = some u := by
  simp [hostsOf]

theorem mem_join_view {x : TxId} {r : Host × User} :
    r ∈ (t.db.view x).join ↔ r.1 ∈ t.hosts ∧ r.2 ∈ t.users ∧ r.1.userId = some r.2.id := by
  rw [mem_join, view_db]

theorem exists_join {x : TxId} {u : UserId} {h : Host} (hh : h ∈ t.hostsOf u) :
    ∃ r ∈ (t.db.view x).join, r.1 = h ∧ r.1.userId = some u := by
  obtain ⟨hmem, hu⟩ := mem_hostsOf.mp hh
  obtain ⟨user, huser, rfl⟩ := t.hosts_user_id_fkey h hmem u hu
  exact ⟨(h, user), mem_join_view.mpr ⟨hmem, huser, hu⟩, rfl, hu⟩

/-- The hosts of a user are read if all of them have a deadline. -/
theorem exists_getLeasedHosts {x : TxId} {order : List Nat} {u : UserId}
    (h : ∀ h ∈ t.hostsOf u, h.leasedUntil ≠ none) :
    ∃ ls, Select.run order (t.db.view x) (.getLeasedHosts u) = .ok ls := by
  refine exists_decodeAll fun r hr => ?_
  simp only [mem_orderBy, List.mem_filter, decide_eq_true_eq, mem_join_view] at hr
  exact h r.1 (mem_hostsOf.mpr ⟨hr.1.1, hr.2⟩)

/-- And if they are read, all of them do, and they are the ones that were read. -/
theorem of_getLeasedHosts {x : TxId} {order : List Nat} {u : UserId} {ls : List LeasedHost}
    (h : Select.run order (t.db.view x) (.getLeasedHosts u) = .ok ls) :
    (∀ h ∈ t.hostsOf u, h.leasedUntil ≠ none) ∧
      (ls.map (·.id)).Perm ((t.hostsOf u).map (·.id)) := by
  have hmem : ∀ {r : Host × User}, r ∈ orderBy cmpDeadline order
      ((t.db.view x).join.filter fun r => r.1.userId = some u) ↔
        r ∈ (t.db.view x).join ∧ r.1.userId = some u := by
    simp
  -- Every host of the user is read (its holder is a user, by the foreign key), so it decodes.
  refine ⟨fun host hhost => ?_, ?_⟩
  · obtain ⟨⟨host, user⟩, hr, rfl, -⟩ := exists_join (x := x) hhost
    obtain ⟨hh, hu, hheld⟩ := mem_join.mp hr
    have hrow := mem_view_hosts.mp hh
    have hdec := decoded_getLeasedHosts h
    obtain ⟨l, hl, hid, -⟩ :=
      hdec.complete _ _ user hrow (mem_hostsOf.mp hhost).2 hheld hu
    obtain ⟨r, hr', -, -, huntil, -⟩ := hdec.sound l hl
    rw [hid, hrow] at hr'
    cases hr'
    rw [huntil]
    exact nofun
  · rw [ids_of_decodeAll h]
    refine (List.perm_ext_iff_of_nodup (filter_join_nodup (orderBy_perm _ _ _)) ?_).mpr fun id => ?_
    · exact (t.hosts_pkey.sublist ((List.filter_sublist).map _))
    · simp only [List.mem_map]
      constructor
      · rintro ⟨r, hr, rfl⟩
        obtain ⟨hjoin, hu⟩ := hmem.mp hr
        exact ⟨r.1, mem_hostsOf.mpr ⟨(mem_join_view.mp hjoin).1, hu⟩, rfl⟩
      · rintro ⟨host, hhost, rfl⟩
        obtain ⟨r, hr, rfl, hu⟩ := exists_join (x := x) hhost
        exact ⟨r, hmem.mpr ⟨hr, hu⟩, rfl⟩

end Tables

/-! ## A request -/

/-- The limit of a user, by the names of the user's groups. -/
def Tables.limit (t : Tables) (service : HostsService) (groups : List String) : Option Nat :=
  service.limitOf (t.leaseLimits.filter fun l => l.group ∈ groups)

/-- The request names no host of its user, and all hosts of its user have a deadline. -/
def Tables.NoneOwn (t : Tables) (u : UserId) (ids : List HostId) : Prop :=
  ∀ h ∈ t.hostsOf u, h.leasedUntil ≠ none ∧ h.id ∉ ids

/-- The request fits under the limit. -/
def Tables.Fits (t : Tables) (service : HostsService) (groups : List String) (u : UserId)
    (ids : List HostId) : Prop :=
  ∃ limit, t.limit service groups = some limit ∧ (t.hostsOf u).length + ids.dedup.length ≤ limit

theorem Tables.Fits.le {t : Tables} {service : HostsService} {groups : List String} {u : UserId}
    {ids : List HostId} (h : t.Fits service groups u ids) {limit : Nat}
    (hlimit : t.limit service groups = some limit) :
    (t.hostsOf u).length + ids.dedup.length ≤ limit := by
  obtain ⟨limit', hlimit', hle⟩ := h
  rw [hlimit] at hlimit'
  cases hlimit'
  exact hle

/-- Everybody sees the hosts as they were. -/
def SameHosts (w w' : World) : Prop := ∀ id, w'.host id = w.host id

section SameHosts

variable {p : Pid} {w w' : World}

theorem sameHosts_of_acts {w₀ : World} (h : SameHosts w₀ w) {e : Effect} {r : e.Res}
    (hacts : Acts p w e r w') (he : ∀ tx, e ≠ .commit tx) : SameHosts w₀ w' :=
  fun id => (hacts.host_of_ne_commit he id).trans (h id)

theorem sameHosts_rollback {w₀ : World} (h : SameHosts w₀ w) (x : TxId) :
    SameHosts w₀ { w with db := w.db.rollback x } :=
  fun id => (by simp [World.host, Db.rollback] : _ = w.host id).trans (h id)

end SameHosts

end Tachikoma
