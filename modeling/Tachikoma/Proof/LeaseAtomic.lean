import Tachikoma.Proof.LeaseExact
import Tachikoma.Proof.Limit

/-!
# Leasing is atomic and exact

The outcomes of `lease` and `lease_random`, read as promises to the caller: which answer comes when,
what an answer says about the table, and that any answer but success means that nothing has changed.
Two things are in the way. A host of the user may have **no deadline**: the schema allows it, no
statement of the program writes it, and `LeasedHost` has no room for it. And the deadline of the
request may lie **beyond the calendar** of `chrono`, where the call panics, or before the first one
that Postgres has, where the update fails.
-/

set_option autoImplicit false

namespace Tachikoma

open Interleaving Versioned Unordered

/-- What a lease of `ids` until `until_` has done, and the list that it returned. -/
structure Granted (t : Tables) (limit : Nat) (u : UserId) (ids : List HostId) (until_ : Time)
    (leased : List LeasedHost) (w' : World) : Prop where
  others : ∀ id, id ∉ ids → w'.host id = t.world.host id
  requested : ∀ id ∈ ids, w'.host id =
    (t.world.host id).map fun r => { r with userId := some u, leasedUntil := some until_ }
  rest : w'.db = { t.db with hosts := w'.db.hosts }
  holdings : held u w' =
    held u t.world ∪ ids.toFinset.filter fun id => (t.world.host id).isSome = true
  atMost : (held u w').card ≤ limit
  /-- The list is the holdings: their rows, joined with the user. -/
  list : ∀ l, l ∈ leased ↔ ∃ h ∈ w'.db.committed.hosts, ∃ user ∈ t.users,
    h.userId = some u ∧ user.id = u ∧ LeasedHost.ofRow (h, user) = .ok l
  nodup : (leased.map (·.id)).Nodup
  holds : (leased.map (·.id)).toFinset = held u w'
  sorted : leased.Pairwise fun a b => a.cmpDeadline b ≠ .gt

/-- **What `lease` promises**: its answer, by what the user holds and asks for. -/
structure LeaseExact (t : Tables) (limit : Nat) (u : UserId) (ids : List HostId) (until_ : Time)
    (r : Exit HostError (List LeasedHost)) (w' : World) : Prop where
  undated : ¬ t.Dated u → r = .err (.databaseError .decode)
  alreadyLeased : t.Dated u → t.ownOf u ids ≠ [] →
    ∃ own, r = .err (.alreadyLeased own) ∧ own.Perm (t.ownOf u ids)
  leaseLimit : t.Dated u → t.ownOf u ids = [] →
    limit < (t.hostsOf u).length + ids.dedup.length → r = .err .leaseLimit
  granted : t.Dated u → t.ownOf u ids = [] → (t.hostsOf u).length + ids.dedup.length ≤ limit →
    Storable until_ → ∃ leased, r = .ok leased ∧ Granted t limit u ids until_ leased w'
  overflow : t.Dated u → t.ownOf u ids = [] → (t.hostsOf u).length + ids.dedup.length ≤ limit →
    ¬ InCalendar until_ → r = .panic "`DateTime + TimeDelta` overflowed"
  early : t.Dated u → t.ownOf u ids = [] → (t.hostsOf u).length + ids.dedup.length ≤ limit →
    InCalendar until_ → until_ < MIN_TIMESTAMP → ∃ e, r = .err (.databaseError e)
  refused : (∀ leased, r ≠ .ok leased) → w'.db = t.db

/-- **What `lease_random` promises.** -/
structure LeaseRandomExact (t : Tables) (limit : Nat) (u : UserId) (groupId : GroupId)
    (until_ : Time) (r : Exit HostError LeasedHost) (w' : World) : Prop where
  undated : ¬ t.Dated u → r = .err (.databaseError .decode)
  leaseLimit : t.Dated u → limit ≤ (t.hostsOf u).length → r = .err .leaseLimit
  thereIsNoFreeHosts : t.Dated u → (t.hostsOf u).length < limit →
    (∀ h ∈ t.hosts, h.groupId = groupId → h.userId ≠ none) → r = .err .thereIsNoFreeHosts
  overflow : t.Dated u → (t.hostsOf u).length < limit →
    (∃ h ∈ t.hosts, h.groupId = groupId ∧ h.userId = none) → ¬ InCalendar until_ →
    r = .panic "`DateTime + TimeDelta` overflowed"
  early : t.Dated u → (t.hostsOf u).length < limit →
    (∃ h ∈ t.hosts, h.groupId = groupId ∧ h.userId = none) → InCalendar until_ →
    until_ < MIN_TIMESTAMP → ∃ e, r = .err (.databaseError e)
  granted : t.Dated u → (t.hostsOf u).length < limit →
    (∃ h ∈ t.hosts, h.groupId = groupId ∧ h.userId = none) → Storable until_ →
    ∃ host ∈ t.hosts, host.groupId = groupId ∧ host.userId = none ∧
      (∃ user ∈ t.users, user.id = u ∧
        r = .ok ⟨host.id, host.hostname, host.ipAddress, until_, none, user⟩) ∧
      w'.host host.id =
        some { host.toHostRow with userId := some u, leasedUntil := some until_ } ∧
      (∀ id, id ≠ host.id → w'.host id = t.world.host id) ∧
      w'.db = { t.db with hosts := w'.db.hosts }
  refused : (∀ leased, r ≠ .ok leased) → w'.db = t.db

section Requests

variable {t : Tables} {service : HostsService} {u : UserId} {groups : List String}
  {ids : List HostId} {groupId : GroupId} {until_ : Time} {limit : Nat}

theorem mem_held_world {id : HostId} :
    id ∈ held u t.world ↔ ∃ h ∈ t.hostsOf u, h.id = id := by
  rw [mem_held]
  simp only [Tables.host_eq_some (t := t) (w := t.world) rfl, Tables.mem_hostsOf]
  constructor
  · intro hyp
    obtain ⟨r, ⟨h, hh, hid, hrow⟩, hu⟩ := hyp
    exact ⟨h, ⟨hh, hrow ▸ hu⟩, hid⟩
  · intro hyp
    obtain ⟨h, ⟨hh, hu⟩, hid⟩ := hyp
    exact ⟨h.toHostRow, ⟨h, hh, hid, rfl⟩, hu⟩

/-- The user holds as many hosts as there are rows. -/
theorem card_held_world : (held u t.world).card ≤ (t.hostsOf u).length := by
  have hsub : held u t.world ⊆ ((t.hostsOf u).map (·.id)).toFinset := by
    intro id hid
    rw [List.mem_toFinset, List.mem_map]
    exact mem_held_world.mp hid
  have hcard := (Finset.card_le_card hsub).trans (List.toFinset_card_le _)
  rwa [List.length_map] at hcard

theorem granted_of_outcome (hx : t.Grantable (.leaseHosts u ids until_)) {order : List Nat}
    {leased : List LeasedHost}
    (hleased : Select.run order (t.update _ hx).view (.getLeasedHosts u) = .ok leased) {w' : World}
    (hw' : w'.db = (t.update _ hx).db)
    (hle : (t.hostsOf u).length + ids.dedup.length ≤ limit) :
    Granted t limit u ids until_ leased w' := by
  have hrow : ∀ id, w'.host id = (t.world.host id).map fun r =>
      if id ∈ ids then { r with userId := some u, leasedUntil := some until_ } else r := by
    intro id
    rw [Tables.host_update (w := t.world) rfl hw']
    simp only [HostWrite.sel, HostWrite.set, decide_eq_true_eq]
  have hread : Select.run order ((t.update _ hx).db.view ⟨.timer, 0⟩) (.getLeasedHosts u) =
      .ok leased := by rw [Tables.view_db]; exact hleased
  have hholdings : held u w' =
      held u t.world ∪ ids.toFinset.filter fun id => (t.world.host id).isSome = true := by
    ext id
    rw [Finset.mem_union, mem_held, mem_held, Finset.mem_filter, List.mem_toFinset, hrow]
    by_cases hid : id ∈ ids
    · cases t.world.host id <;> simp [hid]
    · simp [hid]
  have hids : (leased.map (·.id)).Perm (((t.update _ hx).hostsOf u).map (·.id)) :=
    (Tables.of_getLeasedHosts hread).2
  refine ⟨fun id hid => ?_, fun id hid => ?_, ?_, hholdings, ?_, fun l => ?_, ?_, ?_,
    getLeasedHosts_sorted hleased⟩
  · rw [hrow]
    cases t.world.host id <;> simp [hid]
  · rw [hrow]
    simp [hid]
  · rw [hw']
    rfl
  · -- What it holds now is what it held and some of what it asked for.
    rw [hholdings]
    have hasked := (Finset.card_filter_le ids.toFinset fun id => (t.world.host id).isSome = true)
    rw [List.card_toFinset] at hasked
    have hunion := Finset.card_union_le (held u t.world)
      (ids.toFinset.filter fun id => (t.world.host id).isSome = true)
    have hheld := card_held_world (t := t) (u := u)
    omega
  · rw [mem_of_decodeAll hleased, hw', Tables.committed_db]
    simp only [mem_orderBy, List.mem_filter, decide_eq_true_eq, mem_join, Prod.exists]
    constructor
    · intro hyp
      obtain ⟨h, user, ⟨⟨hh, huser, hheld⟩, hu⟩, hl⟩ := hyp
      exact ⟨h, hh, user, huser, hu, Option.some.inj (hheld.symm.trans hu), hl⟩
    · intro hyp
      obtain ⟨h, hh, user, huser, hu, hid, hl⟩ := hyp
      exact ⟨h, user, ⟨⟨hh, huser, hid ▸ hu⟩, hu⟩, hl⟩
  · exact hids.nodup_iff.mpr ((t.update _ hx).hosts_pkey.sublist (List.filter_sublist.map _))
  · ext id
    rw [List.mem_toFinset, hids.mem_iff, List.mem_map, held_congr (w := (t.update _ hx).world),
      mem_held_world]
    intro id
    rw [World.host, World.host, hw']
    rfl

theorem leaseExact_of_outcome (hlimit : t.limit service groups = some limit)
    (hu : ∃ user ∈ t.users, user.id = u) {r : Exit HostError (List LeasedHost)} {w' : World}
    (h : LeaseOutcome t service u groups ids until_ r w'.db) :
    LeaseExact t limit u ids until_ r w' := by
  generalize hdb : w'.db = db at h
  -- One outcome satisfies its own clause; the condition of each other clause is false of it.
  cases h with
  | undated hno =>
    exact {
      undated := fun _ => rfl
      alreadyLeased := fun hdated => absurd hdated hno
      leaseLimit := fun hdated => absurd hdated hno
      granted := fun hdated => absurd hdated hno
      overflow := fun hdated => absurd hdated hno
      early := fun hdated => absurd hdated hno
      refused := fun _ => hdb }
  | alreadyLeased hdated own hown hne =>
    have hsome : t.ownOf u ids ≠ [] := fun hnil => hne (by rw [hnil] at hown; exact hown.eq_nil)
    exact {
      undated := fun hno => absurd hdated hno
      alreadyLeased := fun _ _ => ⟨own, rfl, hown⟩
      leaseLimit := fun _ hnone => absurd hnone hsome
      granted := fun _ hnone => absurd hnone hsome
      overflow := fun _ hnone => absurd hnone hsome
      early := fun _ hnone => absurd hnone hsome
      refused := fun _ => hdb }
  | badLimit hown hlimit' =>
    rw [hlimit] at hlimit'
    cases hlimit'
  | leaseLimit hown limit' hlimit' hlt =>
    rw [hlimit] at hlimit'
    cases hlimit'
    obtain ⟨hdated, hnone⟩ := Tables.noneOwn_iff.mp hown
    exact {
      undated := fun hno => absurd hdated hno
      alreadyLeased := fun _ hsome => absurd hnone hsome
      leaseLimit := fun _ _ _ => rfl
      granted := fun _ _ hle => absurd hlt (not_lt.mpr hle)
      overflow := fun _ _ hle => absurd hlt (not_lt.mpr hle)
      early := fun _ _ hle => absurd hlt (not_lt.mpr hle)
      refused := fun _ => hdb }
  | overflow hown hfits hout =>
    have hle := hfits.le hlimit
    obtain ⟨hdated, hnone⟩ := Tables.noneOwn_iff.mp hown
    exact {
      undated := fun hno => absurd hdated hno
      alreadyLeased := fun _ hsome => absurd hnone hsome
      leaseLimit := fun _ _ hlt => absurd hlt (not_lt.mpr hle)
      granted := fun _ _ _ hin => absurd hin.1 hout
      overflow := fun _ _ _ _ => rfl
      early := fun _ _ _ hin => absurd hin hout
      refused := fun _ => hdb }
  | refused hown hfits hin hno e =>
    have hle := hfits.le hlimit
    obtain ⟨hdated, hnone⟩ := Tables.noneOwn_iff.mp hown
    exact {
      undated := fun hno => absurd hdated hno
      alreadyLeased := fun _ hsome => absurd hnone hsome
      leaseLimit := fun _ _ hlt => absurd hlt (not_lt.mpr hle)
      granted := fun _ _ _ hin => absurd (Tables.grantable_of_user hu hin.2) hno
      overflow := fun _ _ _ hout => absurd hin hout
      early := fun _ _ _ _ _ => ⟨e, rfl⟩
      refused := fun _ => hdb }
  | granted hown hfits hin hx order leased hleased =>
    have hle := hfits.le hlimit
    obtain ⟨hdated, hnone⟩ := Tables.noneOwn_iff.mp hown
    exact {
      undated := fun hno => absurd hdated hno
      alreadyLeased := fun _ hsome => absurd hnone hsome
      leaseLimit := fun _ _ hlt => absurd hlt (not_lt.mpr hle)
      granted := fun _ _ _ _ => ⟨leased, rfl, granted_of_outcome hx hleased hdb hle⟩
      overflow := fun _ _ _ hout => absurd hin hout
      early := fun _ _ _ _ hlt => absurd hlt (not_lt.mpr (hx.deadline _ rfl))
      refused := fun hno => absurd rfl (hno leased) }

theorem leaseRandomExact_of_outcome (hlimit : t.limit service groups = some limit)
    (hu : ∃ user ∈ t.users, user.id = u) {r : Exit HostError LeasedHost} {w' : World}
    (h : LeaseRandomOutcome t service u groups groupId until_ r w'.db) :
    LeaseRandomExact t limit u groupId until_ r w' := by
  generalize hdb : w'.db = db at h
  -- As for `lease`: each outcome has its clause, and contradicts the condition of the others.
  cases h with
  | badLimit hlimit' =>
    rw [hlimit] at hlimit'
    cases hlimit'
  | undated hlimit' hno =>
    exact {
      undated := fun _ => rfl
      leaseLimit := fun hdated => absurd hdated hno
      thereIsNoFreeHosts := fun hdated => absurd hdated hno
      overflow := fun hdated => absurd hdated hno
      early := fun hdated => absurd hdated hno
      granted := fun hdated => absurd hdated hno
      refused := fun _ => hdb }
  | leaseLimit hdated limit' hlimit' hle =>
    rw [hlimit] at hlimit'
    cases hlimit'
    exact {
      undated := fun hno => absurd hdated hno
      leaseLimit := fun _ _ => rfl
      thereIsNoFreeHosts := fun _ hlt => absurd hle (not_le.mpr hlt)
      overflow := fun _ hlt => absurd hle (not_le.mpr hlt)
      early := fun _ hlt => absurd hle (not_le.mpr hlt)
      granted := fun _ hlt => absurd hle (not_le.mpr hlt)
      refused := fun _ => hdb }
  | thereIsNoFreeHosts hdated limit' hlimit' hlt hnone =>
    rw [hlimit] at hlimit'
    cases hlimit'
    exact {
      undated := fun hno => absurd hdated hno
      leaseLimit := fun _ hle => absurd hle (not_le.mpr hlt)
      thereIsNoFreeHosts := fun _ _ _ => rfl
      overflow := fun _ _ ⟨h, hh, hgroup, hfree⟩ => absurd hfree (hnone h hh hgroup)
      early := fun _ _ ⟨h, hh, hgroup, hfree⟩ => absurd hfree (hnone h hh hgroup)
      granted := fun _ _ ⟨h, hh, hgroup, hfree⟩ => absurd hfree (hnone h hh hgroup)
      refused := fun _ => hdb }
  | overflow hdated limit' hlimit' hlt hfree hout =>
    rw [hlimit] at hlimit'
    cases hlimit'
    obtain ⟨host, hmem, hgroup, hfree⟩ := hfree
    exact {
      undated := fun hno => absurd hdated hno
      leaseLimit := fun _ hle => absurd hle (not_le.mpr hlt)
      thereIsNoFreeHosts := fun _ _ hnone => absurd hfree (hnone host hmem hgroup)
      overflow := fun _ _ _ _ => rfl
      early := fun _ _ _ hin => absurd hin hout
      granted := fun _ _ _ hin => absurd hin.1 hout
      refused := fun _ => hdb }
  | refused hdated limit' hlimit' hlt hfree hin hno e =>
    rw [hlimit] at hlimit'
    cases hlimit'
    obtain ⟨host, hmem, hgroup, hfree⟩ := hfree
    obtain ⟨user, huser, hid⟩ := hu
    have hearly : until_ < MIN_TIMESTAMP := hno.resolve_right fun hnobody => hnobody user huser hid
    exact {
      undated := fun hno => absurd hdated hno
      leaseLimit := fun _ hle => absurd hle (not_le.mpr hlt)
      thereIsNoFreeHosts := fun _ _ hnone => absurd hfree (hnone host hmem hgroup)
      overflow := fun _ _ _ hout => absurd hin hout
      early := fun _ _ _ _ _ => ⟨e, rfl⟩
      granted := fun _ _ _ hin => absurd hearly (not_lt.mpr hin.2)
      refused := fun _ => hdb }
  | granted hdated limit' hlimit' hlt host hmem hfree hgroup hin hx user huser hid =>
    rw [hlimit] at hlimit'
    cases hlimit'
    have hrow : ∀ id, w'.host id = (t.world.host id).map fun r =>
        if id = host.id then { r with userId := some u, leasedUntil := some until_ } else r := by
      intro id
      rw [Tables.host_update (w := t.world) rfl hdb]
      simp only [HostWrite.sel, HostWrite.set, decide_eq_true_eq, List.mem_singleton]
    exact {
      undated := fun hno => absurd hdated hno
      leaseLimit := fun _ hle => absurd hle (not_le.mpr hlt)
      thereIsNoFreeHosts := fun _ _ hnone => absurd hfree (hnone host hmem hgroup)
      overflow := fun _ _ _ hout => absurd hin hout
      early := fun _ _ _ _ hearly => absurd hearly (not_lt.mpr (hx.deadline _ rfl))
      granted := by
        intro _ _ _ _
        refine ⟨host, hmem, hgroup, hfree, ⟨user, huser, hid, rfl⟩, ?_, fun id hne => ?_, ?_⟩
        · rw [hrow, Tables.host_of_mem (w := t.world) rfl hmem, Option.map_some, if_pos rfl]
        · rw [hrow]
          cases t.world.host id <;> simp [hne]
        · rw [hdb]
          rfl
      refused := fun hno => absurd rfl (hno _) }

/-- With limits that are none of them negative there is a limit. -/
theorem Tables.exists_limit (service : HostsService)
    (h : ∀ l ∈ t.leaseLimits, l.group ∈ groups → 0 ≤ l.limit) :
    ∃ limit, t.limit service groups = some limit := by
  refine ⟨_, HostsService.limitOf_eq_some.mpr ⟨fun l hl => ?_, rfl⟩⟩
  obtain ⟨hmem, hgroup⟩ := List.mem_filter.mp hl
  exact h l hmem (of_decide_eq_true hgroup)

end Requests

/-! ## The promises -/

/-- A call that has ended in a failure of the database: it returns the failure, and everything is as
    it was. -/
def FailedUnchanged {α : Type} (t : Tables) (r : Exit HostError α) (w' : World) : Prop :=
  (r = .err (.databaseError .io) ∨ r = .err (.unexpectedError .io)) ∧ w'.db = t.db

/-- `alice` holds the first host and has no deadline for it. -/
def undatedSmall : Tables where
  users := [alice, bob]
  hosts := [⟨⟨"host1", ⟨false, 1, 32⟩, none, some alice.id, ⟨1⟩⟩, ⟨1⟩⟩, host2]
  groups := [⟨⟨1⟩, "group"⟩]
  leaseLimits := []
  nextUserId := 3
  users_pkey := nodup_alice_bob
  hosts_pkey := by decide
  leaseLimits_pkey := List.nodup_nil
  hosts_user_id_fkey := by simp [host2]
  hosts_group_id_fkey := by simp [host2]

end Tachikoma
