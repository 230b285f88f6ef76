import Tachikoma.Proof.Calls

/-!
# The two lease columns

`user_id` and `leased_until` are written by five different updates, one of them arithmetic on a
deadline that may be missing. Row by row each of them keeps the columns **coupled**: both `NULL` or
neither. Since a version of a row is only ever made from a version that its transaction sees, this
is an invariant of *all* versions, committed or pending (`Sound`), and it holds after every effect
of every call, however the tasks interleave and whatever fails.

What a coupled table is good for is the second half: every host is in exactly one list, the
available ones or those of one user, and a leased row always decodes.
-/

set_option autoImplicit false

namespace Tachikoma

open Interleaving Versioned Unordered

/-- `user_id` is `NULL` exactly when `leased_until` is. -/
def HostRow.Coupled (r : HostRow) : Prop := r.userId = none ↔ r.leasedUntil = none

instance (r : HostRow) : Decidable r.Coupled := inferInstanceAs (Decidable (_ ↔ _))

/-- Every update of `hosts` keeps the columns of a row coupled, whether its `WHERE` looks at them or
    not. -/
theorem HostWrite.set_coupled (x : HostWrite) {r : HostRow} (h : r.Coupled) :
    (x.set r).Coupled := by
  cases x with
  | leaseHosts => simp [HostWrite.set, HostRow.Coupled]
  | freeHostsForUser => simp [HostWrite.set, HostRow.Coupled]
  | freeHosts => simp [HostWrite.set, HostRow.Coupled]
  | freeAll => simp [HostWrite.set, HostRow.Coupled]
  | extendHostsLease => simpa [HostWrite.set, HostRow.Coupled] using h

theorem HostWrite.set_groupId (x : HostWrite) (r : HostRow) : (x.set r).groupId = r.groupId := by
  cases x <;> rfl

/-- The holder after an update is the grantee, or the holder before it. -/
theorem HostWrite.set_userId (x : HostWrite) {r : HostRow} {u : UserId}
    (h : (x.set r).userId = some u) : x.grantee = some u ∨ r.userId = some u := by
  cases x with
  | leaseHosts userId hostsIds untill => exact .inl h
  | freeHostsForUser => cases h
  | freeHosts => cases h
  | freeAll => cases h
  | extendHostsLease => exact .inr h

/-! ## The invariant -/

/-- The calls that leave `users` alone. -/
def Call.onHosts : Call → Bool
  | .linkUser _ _ => false
  | .authenticate _ _ => false
  | _ => true

theorem Call.hosts_of_writes {κ : Call} (h : κ.onHosts = true) {x : Write} (hx : κ.writes x) :
    ∃ hw, x = .hosts hw := by
  cases κ with
  | linkUser => cases h
  | authenticate => cases h
  | lease => obtain ⟨t, rfl⟩ := hx; exact ⟨_, rfl⟩
  | leaseRandom => obtain ⟨id, t, rfl⟩ := hx; exact ⟨_, rfl⟩
  | free => exact ⟨_, hx⟩
  | freeAll => exact ⟨_, hx⟩
  | extendUserHosts => obtain ⟨ids, rfl⟩ := hx; exact ⟨_, rfl⟩
  | release => obtain ⟨ids, rfl⟩ := hx; exact ⟨_, rfl⟩
  | notifyReleasedHosts => exact hx.elim
  | notifySoonRelease => exact hx.elim

/-- Nobody is writing `users`, and every version of every host satisfies the foreign keys. -/
structure Keyed (w : World) : Prop where
  users : w.db.users.Holds fun _ _ _ => False
  fkey : w.db.hosts.Everywhere fun _ r => ∀ u, r.userId = some u → ∃ row, w.user u = some row
  group : w.db.hosts.Everywhere fun _ r => ∃ g ∈ w.db.groups, g.id = r.groupId

theorem Keyed.view_user {w : World} (h : Keyed w) (x : TxId) (u : UserId) :
    (w.db.users.cell u).view x = w.user u :=
  Table.view_of_holds (h.users.mono fun _ _ _ hf => hf.elim) u

theorem Acts.user_of_keyed {p : Pid} {w w' : World} {e : Effect} {r : e.Res} (h : Acts p w e r w')
    (hk : Keyed w) (u : UserId) : w'.user u = w.user u := by
  rcases h.user 0 u with ⟨-, x, hp⟩ | heq
  · exact (hk.users u x _ hp).elim
  · exact heq

/-- What is true of the rows is true of them after an effect, if the updates keep it. -/
theorem Acts.hosts_everywhere {p : Pid} {w w' : World} {e : Effect} {r : e.Res}
    (h : Acts p w e r w') {Q : HostId → HostRow → Prop} (hQ : w.db.hosts.Everywhere Q)
    (hset : ∀ tx x id row, e = .execute tx (.hosts x) →
      (w.db.hosts.cell id).view ⟨p, tx.no⟩ = some row → x.sel id row = true → Q id row →
      (∀ u, x.grantee = some u → ∃ row, (w.db.users.cell u).view ⟨p, tx.no⟩ = some row) →
      Q id (x.set row)) : w'.db.hosts.Everywhere Q := by
  cases h with
  | quiet _ _ _ _ _ _ hhosts => rw [hhosts]; exact hQ
  | executeFails => exact hQ
  | updateHosts tx x t hupdate hfkey =>
    exact hQ.update hupdate fun id row hrow hq hsel =>
      hset tx x id row rfl hrow hsel hq fun u hu => hfkey u id row hu hrow hsel
  | setUserTgHandle => exact hQ
  | addUser => exact hQ
  | commit tx => exact hQ.commit _
  | commitFails tx => exact hQ.rollback _
  | drop tx => exact hQ.rollback _

theorem Acts.keyed {p : Pid} {w w' : World} {e : Effect} {r : e.Res} (h : Acts p w e r w')
    (he : ∀ tx x, e = .execute tx x → ∃ hw, x = .hosts hw) (hk : Keyed w) : Keyed w' where
  users := h.users_holds hk.users (fun _ _ _ _ hx => by obtain ⟨_, hx⟩ := he _ _ hx; cases hx)
    fun _ _ _ _ _ _ hx => by obtain ⟨_, hx⟩ := he _ _ hx; cases hx
  fkey := by
    simp only [h.user_of_keyed hk]
    refine h.hosts_everywhere hk.fkey fun tx x id row _ _ _ hq hseen u hu => ?_
    rcases x.set_userId hu with hgrant | hheld
    · obtain ⟨row, hrow⟩ := hseen u hgrant
      exact ⟨row, (hk.view_user _ u).symm.trans hrow⟩
    · exact hq u hheld
  group := by
    rw [h.groups_limits.1]
    refine h.hosts_everywhere hk.group fun tx x id row _ _ _ hq _ => ?_
    rw [x.set_groupId]
    exact hq

theorem Acts.coupled {p : Pid} {w w' : World} {e : Effect} {r : e.Res} (h : Acts p w e r w')
    (hc : w.db.hosts.Everywhere fun _ r => r.Coupled) :
    w'.db.hosts.Everywhere fun _ r => r.Coupled :=
  h.hosts_everywhere hc fun _ x _ _ _ _ _ hq _ => x.set_coupled hq

namespace Tables

variable (t : Tables)

theorem world_keyed : Keyed t.world where
  users := t.users_holds _
  fkey := t.hosts_everywhere fun h hh u hu => by
    obtain ⟨x, hx, rfl⟩ := t.hosts_user_id_fkey h hh u hu
    exact ⟨_, t.world_user.mpr ⟨x, hx, rfl, rfl⟩⟩
  group := t.hosts_everywhere fun h hh => t.hosts_group_id_fkey h hh

end Tables

/-! ## What follows for the lists -/

/-- The ids of the hosts that belong to nobody (`none`) or to a user, as the statements list
    them. -/
def listed (order : List Nat) (v : View) : Option UserId → Except SqlxError (List HostId)
  | none => (Select.run order v .getAvailableHosts).map fun hs : List Host => hs.map (·.id)
  | some u => (Select.run order v (.getLeasedHosts u)).map fun ls : List LeasedHost => ls.map (·.id)

/-- The hosts of a group that belong to nobody, as the statement lists them. -/
def listedInGroup (order : List Nat) (v : View) (g : GroupId) : Except SqlxError (List HostId) :=
  (Select.run order v (.getAvailableGroupHosts g)).map fun hs : List Host => hs.map (·.id)

/-- What coupled columns mean for the tables that everybody sees. Each list may come in an order of
    its own. -/
structure Partitioned (v : View) : Prop where
  coupled : ∀ h ∈ v.hosts, h.Coupled
  /-- A row that `get_leased_hosts` selects has a deadline. -/
  deadline : ∀ r ∈ v.join, r.1.leasedUntil ≠ none
  /-- So no list is an error, and none has a host twice. -/
  lists : ∀ order o, ∃ ids, listed order v o = .ok ids ∧ ids.Nodup
  /-- Every host is in exactly one of them. -/
  exactlyOne : ∀ order : Option UserId → List Nat, ∀ h ∈ v.hosts,
    ∃! o, ∃ ids, listed (order o) v o = .ok ids ∧ h.id ∈ ids
  /-- The lists of the groups' available hosts cover the list of all of them and are disjoint. -/
  cover : ∀ (order : List Nat) (order' : GroupId → List Nat) (available : List HostId),
    listed order v none = .ok available → ∀ id, id ∈ available ↔
      ∃ g ∈ v.groups, ∃ ids, listedInGroup (order' g.id) v g.id = .ok ids ∧ id ∈ ids
  disjoint : ∀ order order' g g' ids ids', listedInGroup order v g = .ok ids →
    listedInGroup order' v g' = .ok ids' → ∀ id, id ∈ ids → id ∈ ids' → g = g'

section Lists

variable {v : View}

theorem listed_ok (hcoupled : ∀ h ∈ v.hosts, h.Coupled) (order : List Nat) (o : Option UserId) :
    ∃ ids, listed order v o = .ok ids := by
  cases o with
  | none => exact ⟨_, rfl⟩
  | some u =>
    have hrows : ∀ r ∈ orderBy cmpDeadline order (v.join.filter fun r => r.1.userId = some u),
        r.1.leasedUntil ≠ none := by
      intro r hr hnone
      rw [mem_orderBy, List.mem_filter] at hr
      have hh := (hcoupled _ (mem_join.mp hr.1).1).mpr hnone
      rw [of_decide_eq_true hr.2] at hh
      cases hh
    obtain ⟨ls, hls⟩ := exists_decodeAll hrows
    exact ⟨ls.map (·.id), by simp only [listed, Select.run, hls]; rfl⟩

/-- A user's list is decoded row by row. -/
theorem listed_some {order : List Nat} {u : UserId} {ids : List HostId}
    (hl : listed order v (some u) = .ok ids) :
    ids = (orderBy cmpDeadline order
      (v.join.filter fun r => r.1.userId = some u)).map (·.1.id) := by
  simp only [listed, Select.run] at hl
  cases hls : decodeAll (orderBy cmpDeadline order
    (v.join.filter fun r => r.1.userId = some u)) with
  | error e => rw [hls] at hl; cases hl
  | ok ls =>
    rw [hls] at hl
    rw [← ids_of_decodeAll hls]
    exact (Except.ok.inj hl).symm

/-- A list has the hosts whose `user_id` is what it is the list of. -/
theorem mem_listed (hfkey : ∀ h ∈ v.hosts, ∀ u, h.userId = some u → ∃ x ∈ v.users, x.id = u)
    {order : List Nat} {o : Option UserId} {ids : List HostId} (hl : listed order v o = .ok ids)
    (id : HostId) : id ∈ ids ↔ ∃ h ∈ v.hosts, h.id = id ∧ h.userId = o := by
  cases o with
  | none =>
    cases Except.ok.inj hl
    simp only [List.mem_map, mem_orderBy, List.mem_filter, decide_eq_true_eq]
    constructor
    · rintro ⟨h, ⟨hh, hu⟩, rfl⟩; exact ⟨h, hh, rfl, hu⟩
    · rintro ⟨h, hh, rfl, hu⟩; exact ⟨h, ⟨hh, hu⟩, rfl⟩
  | some u =>
    rw [listed_some hl]
    simp only [List.mem_map, mem_orderBy, List.mem_filter, decide_eq_true_eq, mem_join]
    constructor
    · rintro ⟨r, ⟨⟨hh, _, _⟩, hu⟩, rfl⟩; exact ⟨r.1, hh, rfl, hu⟩
    · rintro ⟨h, hh, rfl, hu⟩
      obtain ⟨x, hx, rfl⟩ := hfkey h hh u hu
      exact ⟨(h, x), ⟨⟨hh, hx, hu⟩, hu⟩, rfl⟩

theorem listed_nodup (hhosts : (v.hosts.map (·.id)).Nodup) (husers : (v.users.map (·.id)).Nodup)
    {order : List Nat} {o : Option UserId} {ids : List HostId} (hl : listed order v o = .ok ids) :
    ids.Nodup := by
  cases o with
  | none =>
    cases Except.ok.inj hl
    rw [((orderBy_perm _ _ _).map _).nodup_iff]
    exact ((List.filter_sublist).map _).nodup hhosts
  | some u =>
    rw [listed_some hl, ((orderBy_perm _ _ _).map _).nodup_iff]
    exact ((List.filter_sublist).map _).nodup (join_nodup hhosts husers)

theorem mem_listedInGroup {order : List Nat} {g : GroupId} {ids : List HostId}
    (hl : listedInGroup order v g = .ok ids) (id : HostId) :
    id ∈ ids ↔ ∃ h ∈ v.hosts, h.id = id ∧ h.userId = none ∧ h.groupId = g := by
  cases Except.ok.inj hl
  simp only [List.mem_map, mem_orderBy, List.mem_filter, decide_eq_true_eq]
  constructor
  · rintro ⟨h, ⟨hh, hu⟩, rfl⟩; exact ⟨h, hh, rfl, hu⟩
  · rintro ⟨h, hh, rfl, hu⟩; exact ⟨h, ⟨hh, hu⟩, rfl⟩

theorem eq_of_id_eq (hhosts : (v.hosts.map (·.id)).Nodup) {h h' : Host} (hh : h ∈ v.hosts)
    (hh' : h' ∈ v.hosts) (he : h.id = h'.id) : h = h' :=
  List.inj_on_of_nodup_map hhosts hh hh' he

theorem partitioned (hhosts : (v.hosts.map (·.id)).Nodup) (husers : (v.users.map (·.id)).Nodup)
    (hcoupled : ∀ h ∈ v.hosts, h.Coupled)
    (hfkey : ∀ h ∈ v.hosts, ∀ u, h.userId = some u → ∃ x ∈ v.users, x.id = u)
    (hgroup : ∀ h ∈ v.hosts, ∃ g ∈ v.groups, g.id = h.groupId) : Partitioned v where
  coupled := hcoupled
  deadline r hr hnone := by
    obtain ⟨hh, _, hu⟩ := mem_join.mp hr
    rw [(hcoupled _ hh).mpr hnone] at hu
    cases hu
  lists order o := by
    obtain ⟨ids, hids⟩ := listed_ok hcoupled order o
    exact ⟨ids, hids, listed_nodup hhosts husers hids⟩
  exactlyOne order h hh := by
    -- Its own list has it, and one that has it is the list of its `user_id`.
    obtain ⟨ids, hids⟩ := listed_ok hcoupled (order h.userId) h.userId
    refine ⟨h.userId, ⟨ids, hids, (mem_listed hfkey hids h.id).mpr ⟨h, hh, rfl, rfl⟩⟩, ?_⟩
    rintro o ⟨ids', hids', hmem⟩
    obtain ⟨h', hh', he, rfl⟩ := (mem_listed hfkey hids' h.id).mp hmem
    rw [eq_of_id_eq hhosts hh' hh he]
  cover order order' available hl id := by
    rw [mem_listed hfkey hl]
    constructor
    · rintro ⟨h, hh, rfl, hu⟩
      obtain ⟨g, hg, hgid⟩ := hgroup h hh
      exact ⟨g, hg, _, rfl, (mem_listedInGroup rfl h.id).mpr ⟨h, hh, rfl, hu, hgid.symm⟩⟩
    · rintro ⟨g, _, ids, hids, hmem⟩
      obtain ⟨h, hh, he, hu, _⟩ := (mem_listedInGroup hids id).mp hmem
      exact ⟨h, hh, he, hu⟩
  disjoint order order' g g' ids ids' hl hl' id hmem hmem' := by
    obtain ⟨h, hh, rfl, _, rfl⟩ := (mem_listedInGroup hl id).mp hmem
    obtain ⟨h', hh', he, _, rfl⟩ := (mem_listedInGroup hl' h.id).mp hmem'
    rw [eq_of_id_eq hhosts hh' hh he]

end Lists

/-! ## Every run -/

/-- The operations on leases: a lease, a random lease, a release by its user, an extension, a pass
    of the timer that releases. -/
def Call.leasing : Call → Bool
  | .lease .. | .leaseRandom .. | .free .. | .freeAll .. | .extendUserHosts .. | .release => true
  | _ => false

theorem Call.onHosts_of_leasing {κ : Call} (h : κ.leasing = true) : κ.onHosts = true := by
  cases κ with
  | linkUser => cases h
  | authenticate => cases h
  | _ => rfl

/-- Started from coupled columns, every interleaving of operations on leases leaves, after each of
    its steps, committed tables whose columns are coupled and whose hosts are partitioned. -/
theorem partitioned_of_run (t : Tables) (timer : ReleaseTimer) (ht : ∀ h ∈ t.hosts, h.Coupled)
    {c : System}
    (hrun : machine.Run (Machine.Calling fun _ κ => κ.leasing = true) (t.systemWith timer) c) :
    Partitioned c.hist.state.db.committed := by
  have hinv : Keyed c.hist.state ∧ c.hist.state.db.hosts.Everywhere fun _ r => r.Coupled := by
    refine run_of_acts (fun w => Keyed w ∧ w.db.hosts.Everywhere fun _ r => r.Coupled) ?_
      (t.systemWith_idle timer)
      (fun _ hev => absurd hev List.not_mem_nil) ⟨t.world_keyed, t.hosts_everywhere ht⟩ hrun
    intro p κ w e r w' hκ he hacts hI
    have hwrites : ∀ tx x, e = .execute tx x → ∃ hw, x = .hosts hw :=
      fun tx x hx => Call.hosts_of_writes (Call.onHosts_of_leasing hκ) (he tx x hx)
    exact ⟨hacts.keyed hwrites hI.1, hacts.coupled hI.2⟩
  obtain ⟨hkeyed, hcoupled⟩ := hinv
  refine partitioned (committed_hosts_nodup _) (committed_users_nodup _) ?_ ?_ ?_
  · exact fun h hh => hcoupled.1 h.id _ (mem_committed_hosts.mp hh)
  · intro h hh u hu
    obtain ⟨row, hrow⟩ := hkeyed.fkey.1 h.id _ (mem_committed_hosts.mp hh) u hu
    exact ⟨{ row with id := u }, mem_committed_users.mpr hrow, rfl⟩
  · exact fun h hh => hkeyed.group.1 h.id _ (mem_committed_hosts.mp hh)

/-- `alice` leases the second host while the timer frees the first, which was `bob`'s. -/
theorem partitioned_of_run_small :
    ∃ c, machine.Run (Machine.Calling fun _ κ => κ.leasing = true)
      ((small (some (false, 5))).systemWith .new) c ∧ Partitioned c.hist.state.db.committed := by
  obtain ⟨c, hrun, -⟩ := machine.exists_run_of_exec
    (Machine.Calling fun _ κ => κ.leasing = true)
    ((small (some (false, 5))).systemWith .new)
    [.call (.task 0) (.lease ⟨3⟩ alice.id [] [⟨2⟩] 100), .call .timer .release,
      .act (.task 0) {}, .act .timer {}, .act .timer { time := 9 }, .act (.task 0) {},
      .act .timer {}, .act (.task 0) {}, .act .timer {}, .act (.task 0) { time := 9 },
      .act (.task 0) {}, .act .timer {}, .act (.task 0) {}, .act .timer {}, .act (.task 0) {},
      .act .timer {}, .act (.task 0) {}]
    (fun c => (c.threads .timer).prog.value?.isSome) (by decide +kernel)
  exact ⟨c, hrun, partitioned_of_run _ _ (by decide) hrun⟩

end Tachikoma
