import Tachikoma.Proof.Coupling
import Tachikoma.Proof.Lease
import Tachikoma.Proof.Ordered
import Tachikoma.Proof.Total

/-!
# Updates of a settled database

Between transactions a database *is* its tables (`Tables.db`), and a transaction that updates the
hosts, run alone, leads from tables to tables: `Tables.update` says which ones, and because the
result is a `Tables` again, the keys it promises are proved once and here. `Tables.execute_update`
connects the two levels: what the transaction sees after its update are the new tables, they are
what a commit leaves behind, and a rollback leaves the old ones.
-/

set_option autoImplicit false

namespace Tachikoma

open Interleaving Versioned

/-! ## What an update makes of a host -/

namespace HostWrite

/-- A host after the update. -/
def apply (x : HostWrite) (h : Host) : Host :=
  if x.sel h.id h.toHostRow then { x.set h.toHostRow with id := h.id } else h

variable (x : HostWrite)

@[simp] theorem apply_id (h : Host) : (x.apply h).id = h.id := by
  unfold apply
  split <;> rfl

@[simp] theorem apply_groupId (h : Host) : (x.apply h).groupId = h.groupId := by
  unfold apply
  split
  · exact x.set_groupId h.toHostRow
  · rfl

theorem apply_of_sel {h : Host} (hsel : x.sel h.id h.toHostRow = true) :
    x.apply h = { x.set h.toHostRow with id := h.id } := if_pos hsel

theorem apply_of_not_sel {h : Host} (hsel : x.sel h.id h.toHostRow = false) : x.apply h = h :=
  if_neg (by simp [hsel])

theorem apply_row (h : Host) :
    (x.apply h).toHostRow = if x.sel h.id h.toHostRow then x.set h.toHostRow else h.toHostRow := by
  unfold apply
  split <;> rfl

end HostWrite

namespace Tables

/-- The database lets the update pass: a column can hold its deadline, and it hits nothing, or the
    user it grants to exists. -/
structure Grantable (t : Tables) (x : HostWrite) : Prop where
  deadline : ∀ d, x.deadline = some d → MIN_TIMESTAMP ≤ d
  grantee : ∀ u, x.grantee = some u → ∀ h ∈ t.hosts, x.sel h.id h.toHostRow = true →
    ∃ user ∈ t.users, user.id = u

/-- The tables after the update. -/
def update (t : Tables) (x : HostWrite) (hx : t.Grantable x) : Tables where
  users := t.users
  hosts := t.hosts.map x.apply
  groups := t.groups
  leaseLimits := t.leaseLimits
  nextUserId := t.nextUserId
  users_pkey := t.users_pkey
  hosts_pkey := by simpa [Function.comp_def] using t.hosts_pkey
  leaseLimits_pkey := t.leaseLimits_pkey
  hosts_user_id_fkey := by
    intro h' hh' u hu
    obtain ⟨h, hh, rfl⟩ := List.mem_map.mp hh'
    unfold HostWrite.apply at hu
    split at hu
    · rename_i hsel
      rcases x.set_userId hu with hgrantee | hheld
      · exact hx.grantee u hgrantee h hh hsel
      · exact t.hosts_user_id_fkey h hh u hheld
    · exact t.hosts_user_id_fkey h hh u hu
  hosts_group_id_fkey := by
    intro h' hh'
    obtain ⟨h, hh, rfl⟩ := List.mem_map.mp hh'
    simpa using t.hosts_group_id_fkey h hh

variable {t : Tables} {x : HostWrite} {y : TxId}

/-- An update that grants nothing breaks no key, and has no deadline. -/
theorem grantable_of_grantee (h : x.grantee = none) : t.Grantable x := by
  refine ⟨fun d hd => ?_, fun u hu => ?_⟩
  · cases x with
    | leaseHosts => cases h
    | _ => cases hd
  · rw [h] at hu
    cases hu

/-- The deadline of an update that passes is not turned down. -/
theorem Grantable.not_early (hx : t.Grantable x) : ¬ x.deadline.any (· < MIN_TIMESTAMP) = true := by
  rw [Option.any_eq_true]
  intro hyp
  obtain ⟨d, hd, hlt⟩ := hyp
  exact absurd (of_decide_eq_true hlt) (not_lt.mpr (hx.deadline d hd))

@[simp] theorem db_rollback : t.db.rollback y = t.db := by
  simp [Db.rollback, db, Table.ofRows_rollback]

@[simp] theorem db_commit : t.db.commit y = t.db := by
  simp [Db.commit, db, Table.ofRows_commit]

/-- The rows under an update are the hosts under it. -/
theorem rewrite_rows (x : HostWrite) (hosts : List Host) :
    Table.rewrite x.sel x.set (hosts.map fun h => (h.id, h.toHostRow)) =
      (hosts.map x.apply).map fun h => (h.id, h.toHostRow) := by
  simp only [Table.rewrite, List.map_map]
  refine List.map_congr_left fun h _ => ?_
  simp only [Function.comp_apply, x.apply_id, x.apply_row]

/-- **An update of a settled database.** Its transaction sees the new tables, a commit leaves them
    behind and a rollback the old ones. -/
theorem execute_update (hx : t.Grantable x) :
    ∃ db, t.db.updateHosts y x = some (.ok (), db) ∧ db.view y = (t.update x hx).db.view y ∧
      db.commit y = (t.update x hx).db ∧ db.rollback y = t.db := by
  obtain ⟨hosts, hupdate, hrows, hcommit, hrollback⟩ := Table.exists_update_ofRows y x.sel x.set
    (t.hosts.map fun h => (h.id, h.toHostRow)) t.hosts_rows_nodup
  refine ⟨{ t.db with hosts := hosts }, ?_, ?_, ?_, ?_⟩
  -- The foreign key does not stop it: the grantee of a write that hits a row is a user.
  · have hfkey : ¬ (((t.db.hosts.rows y).any fun r => x.sel r.1 r.2) &&
        x.grantee.any fun u => !t.db.seesUser y u) = true := by
      rw [Bool.and_eq_true, List.any_eq_true, Option.any_eq_true]
      intro hyp
      obtain ⟨⟨⟨id, row⟩, hrow, hsel⟩, u, hu, hno⟩ := hyp
      have hmem : ({ row with id := id } : Host) ∈ (t.db.view y).hosts :=
        mem_view_hosts.mpr (Table.mem_rows.mp hrow)
      rw [t.view_db] at hmem
      obtain ⟨user, huser, rfl⟩ := hx.grantee u hu _ hmem hsel
      have hview : (t.db.users.cell user.id).view y = some user.toUserRow :=
        mem_view_users.mp (by rw [t.view_db]; exact huser)
      simp [Db.seesUser, hview] at hno
    have hupdate' : t.db.hosts.update y x.sel x.set = some hosts := hupdate
    rw [Db.updateHosts, if_neg hx.not_early, hupdate', Option.map_some, if_neg hfkey]
  · rw [view_db]
    simp only [Db.view, hrows, rewrite_rows, db, Table.ofRows_rows, List.map_map, Function.comp_def,
      List.map_id']
    rfl
  · simp only [Db.commit, hcommit]
    simp only [db, Table.ofRows_commit, rewrite_rows]
    rfl
  · simp only [Db.rollback, hrollback]
    simp [db, Table.ofRows_rollback]

/-- An update that the database refuses. -/
theorem execute_update_fails (hx : ¬ t.Grantable x) :
    ∃ e, t.db.updateHosts y x = some (.error e, t.db) := by
  by_cases hearly : x.deadline.any (· < MIN_TIMESTAMP) = true
  · exact ⟨.datetimeFieldOverflow, by rw [Db.updateHosts, if_pos hearly]⟩
  have hkey : ¬ ∀ u, x.grantee = some u → ∀ h ∈ t.hosts, x.sel h.id h.toHostRow = true →
      ∃ user ∈ t.users, user.id = u := by
    refine fun hkey => hx ⟨fun d hd => not_lt.mp fun hlt => hearly ?_, hkey⟩
    rw [hd, Option.any_some]
    exact decide_eq_true hlt
  obtain ⟨hosts, hupdate, -⟩ := Table.exists_update_ofRows y x.sel x.set
    (t.hosts.map fun h => (h.id, h.toHostRow)) t.hosts_rows_nodup
  have hupdate' : t.db.hosts.update y x.sel x.set = some hosts := hupdate
  refine ⟨.foreignKeyViolation, ?_⟩
  rw [Db.updateHosts, if_neg hearly, hupdate', Option.map_some, if_pos]
  push Not at hkey
  obtain ⟨u, hu, h, hh, hsel, hno⟩ := hkey
  rw [Bool.and_eq_true, List.any_eq_true, Option.any_eq_true]
  refine ⟨⟨(h.id, h.toHostRow), Table.mem_rows.mpr ?_, hsel⟩, u, hu, ?_⟩
  · exact mem_view_hosts.mp (by rw [t.view_db]; exact hh)
  · have hview : (t.db.users.cell u).view y = none := by
      rw [Option.eq_none_iff_forall_ne_some]
      intro row hrow
      have hmem : ({ row with id := u } : User) ∈ (t.db.view y).users := mem_view_users.mpr hrow
      rw [t.view_db] at hmem
      exact hno _ hmem rfl
    simp [Db.seesUser, hview]

/-! ## Rows -/

theorem committed_db (t : Tables) :
    t.db.committed = ⟨t.users, t.hosts, t.groups, t.leaseLimits⟩ := by
  simp only [Db.committed, db, Table.ofRows_committedRows, List.map_map, Function.comp_def,
    List.map_id']

/-- The committed rows of a settled database are its hosts. -/
theorem host_eq_some {w : World} (hw : w.db = t.db) {id : HostId} {r : HostRow} :
    w.host id = some r ↔ ∃ h ∈ t.hosts, h.id = id ∧ h.toHostRow = r := by
  rw [World.host, hw]
  exact t.world_host

theorem host_of_mem {w : World} (hw : w.db = t.db) {h : Host} (hh : h ∈ t.hosts) :
    w.host h.id = some h.toHostRow := (host_eq_some hw).mpr ⟨h, hh, rfl, rfl⟩

/-- What an update has made of a row. -/
theorem host_update {w w' : World} (hw : w.db = t.db) {hx : t.Grantable x}
    (hw' : w'.db = (t.update x hx).db) (id : HostId) :
    w'.host id = (w.host id).map fun r => if x.sel id r then x.set r else r := by
  cases hrow : w.host id with
  | none =>
    rw [Option.map_none, Option.eq_none_iff_forall_ne_some]
    intro r hr
    obtain ⟨h', hh', rfl, -⟩ := (host_eq_some hw').mp hr
    obtain ⟨h, hh, rfl⟩ := List.mem_map.mp hh'
    rw [x.apply_id, host_of_mem hw hh] at hrow
    cases hrow
  | some r =>
    obtain ⟨h, hh, rfl, rfl⟩ := (host_eq_some hw).mp hrow
    have hrow' := host_of_mem hw' (List.mem_map_of_mem (f := x.apply) hh)
    rw [x.apply_id, x.apply_row] at hrow'
    rw [hrow', Option.map_some]

end Tables

end Tachikoma
