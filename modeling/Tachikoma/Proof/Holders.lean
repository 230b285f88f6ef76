import Tachikoma.Proof.Coupling

/-!
# Who holds a host is a user

Nobody deletes a user, and the foreign key of `hosts.user_id` is checked where it is written. So who
holds a host is a user, **at every step of every interleaving**, for everybody who sees the row that
says so (`HoldersKnown`). Every query that joins the hosts with their holders needs this: a holder
that is no user would take the host out of its answer.
-/

set_option autoImplicit false

namespace Tachikoma

open Versioned

variable {p : Pid} {w w' : World} {e : Effect} {r : e.Res}

/-- Nobody deletes a user, and who holds a host is a user: for everybody if the row of the host is
    committed, and for the transaction that it is pending for otherwise. -/
structure HoldersKnown (w : World) : Prop where
  kept : w.db.users.Holds fun _ _ v => v ≠ none
  committed : ∀ id r u, w.host id = some r → r.userId = some u → w.user u ≠ none
  pending : w.db.hosts.Holds fun x _ v => ∀ r u, v = some r → r.userId = some u →
    (w.db.users.cell u).view x ≠ none

namespace HoldersKnown

theorem view_user (h : HoldersKnown w) {u : UserId} (hu : w.user u ≠ none) (x : TxId) :
    (w.db.users.cell u).view x ≠ none := Cell.view_ne_none (h.kept u) hu

/-- Who holds a host that a transaction sees is a user that it sees. -/
theorem view_holder (h : HoldersKnown w) {x : TxId} {id : HostId} {r : HostRow} {u : UserId}
    (hr : (w.db.hosts.cell id).view x = some r) (hu : r.userId = some u) :
    (w.db.users.cell u).view x ≠ none := by
  by_cases hheld : ∃ v, (w.db.hosts.cell id).pending = some (x, v)
  · obtain ⟨v, hv⟩ := hheld
    rw [Cell.view_of_held hv] at hr
    exact h.pending id x v hv r u hr hu
  · rw [Cell.view_of_not_held (not_exists.mp hheld)] at hr
    exact h.view_user (h.committed id r u hr hu) x

end HoldersKnown

theorem Acts.users_kept (h : Acts p w e r w') (hk : w.db.users.Holds fun _ _ v => v ≠ none) :
    w'.db.users.Holds fun _ _ v => v ≠ none :=
  h.users_holds hk (fun _ _ _ _ _ _ => nofun) fun _ _ _ _ _ _ => nofun

/-- A user that is there stays. -/
theorem Acts.user_ne_none (h : Acts p w e r w') (hk : w.db.users.Holds fun _ _ v => v ≠ none)
    {u : UserId} (hu : w.user u ≠ none) : w'.user u ≠ none := by
  rcases h.user 0 u with ⟨-, x, hp⟩ | heq
  · exact hk u x _ hp
  · rw [heq]
    exact hu

/-- A user that a transaction sees it sees until it ends. -/
theorem Acts.view_user_ne_none (h : Acts p w e r w')
    (hk : w.db.users.Holds fun _ _ v => v ≠ none) {x : TxId}
    (hx : ∀ tx : RegistryTx, e = .commit tx ∨ e = .drop tx → x ≠ ⟨p, tx.no⟩) {u : UserId}
    (hu : (w.db.users.cell u).view x ≠ none) : (w'.db.users.cell u).view x ≠ none := by
  cases h with
  | quiet _ _ _ _ _ _ _ husers => rw [husers]; exact hu
  | executeFails => exact hu
  | updateHosts => exact hu
  -- An update rewrites a row and takes none away, whoever makes it.
  | setUserTgHandle tx u' tgHandle t hupdate =>
    show (t.cell u).view x ≠ none
    rw [Table.cell_update hupdate]
    by_cases hxy : x = ⟨p, tx.no⟩
    · rw [hxy, Cell.write_view, Ne, Option.map_eq_none_iff, ← hxy]
      exact hu
    · rw [Cell.write_view_other hxy fun _ hr hsel => Table.update_free hupdate hr hsel]
      exact hu
  -- The new row takes an id that nobody had.
  | addUser tx dn tgHandle email link id t n hinsert =>
    show (t.cell u).view x ≠ none
    rw [Table.cell_insert hinsert]
    split
    · rename_i heq
      rw [heq, Table.cell_of_insert hinsert] at hu
      exact absurd rfl hu
    · exact hu
  | commit tx =>
    show ((w.db.users.commit _).cell u).view x ≠ none
    rw [Table.cell_commit]
    exact Cell.commit_view_ne_none (hx tx (.inl rfl)) (hk u) hu
  | commitFails tx =>
    show ((w.db.users.rollback _).cell u).view x ≠ none
    rw [Table.cell_rollback, Cell.rollback_view_other (hx tx (.inl rfl))]
    exact hu
  | drop tx =>
    show ((w.db.users.rollback _).cell u).view x ≠ none
    rw [Table.cell_rollback, Cell.rollback_view_other (hx tx (.inr rfl))]
    exact hu

/-- What a transaction that ends has written is gone, so the pending rows are those of others. -/
theorem Acts.hosts_of_others (h : Acts p w e r w') {P : TxId → HostId → Option HostRow → Prop}
    (hP : w.db.hosts.Holds P)
    (hwrite : ∀ tx x id row, e = .execute tx (.hosts x) →
      (w.db.hosts.cell id).view ⟨p, tx.no⟩ = some row → x.sel id row = true →
      (∀ u, x.grantee = some u → ∃ row, (w.db.users.cell u).view ⟨p, tx.no⟩ = some row) →
      P ⟨p, tx.no⟩ id (some (x.set row))) :
    w'.db.hosts.Holds fun x id v =>
      (∀ tx : RegistryTx, e = .commit tx ∨ e = .drop tx → x ≠ ⟨p, tx.no⟩) ∧ P x id v := by
  -- Of a transaction that ends nothing is pending any more.
  by_cases hends : ∃ tx, e = .commit tx ∨ e = .drop tx
  · obtain ⟨tx, htx⟩ := hends
    refine ((h.ended htx).1 hP).mono fun x id v hv => ⟨fun tx' htx' => ?_, hv.2⟩
    have heq : tx' = tx := by
      rcases htx with rfl | rfl
      · rcases htx' with htx' | htx' <;> cases htx'
        rfl
      · rcases htx' with htx' | htx' <;> cases htx'
        rfl
    rw [heq]
    exact hv.1
  · have hno : ∀ x : TxId, ∀ tx : RegistryTx, e = .commit tx ∨ e = .drop tx → x ≠ ⟨p, tx.no⟩ :=
      fun x tx htx => absurd ⟨tx, htx⟩ hends
    cases h with
    | quiet _ _ _ _ _ _ hhosts => rw [hhosts]; exact hP.mono fun x _ _ hv => ⟨hno x, hv⟩
    | executeFails => exact Table.Holds.mono hP fun x _ _ hv => ⟨hno x, hv⟩
    | updateHosts tx x t hupdate hfkey =>
      refine Table.Holds.mono (hP.update hupdate fun id row hrow hsel => ?_) fun x _ _ hv =>
        ⟨hno x, hv⟩
      exact hwrite tx x id row rfl hrow hsel fun u hu => hfkey u id row hu hrow hsel
    | setUserTgHandle => exact Table.Holds.mono hP fun x _ _ hv => ⟨hno x, hv⟩
    | addUser => exact Table.Holds.mono hP fun x _ _ hv => ⟨hno x, hv⟩
    | commit tx => exact absurd ⟨tx, .inl rfl⟩ hends
    | commitFails tx => exact absurd ⟨tx, .inl rfl⟩ hends
    | drop tx => exact absurd ⟨tx, .inr rfl⟩ hends

/-- **The foreign key, at every step**: an effect of any program keeps the holders known. -/
theorem Acts.holdersKnown (h : Acts p w e r w') (hk : HoldersKnown w) : HoldersKnown w' where
  kept := h.users_kept hk.kept
  committed := by
    intro id row u hrow hu
    rcases h.host 0 id with heq | ⟨-, heq⟩
    · obtain ⟨tx, rfl, hp⟩ := pending_of_committedRow (heq.symm.trans hrow)
      -- The row is committed with whatever its transaction has pending of the user.
      cases h with
      | quiet _ _ _ hcommit => exact absurd rfl (hcommit tx)
      | commit =>
        show ((w.db.users.commit _).cell u).committed ≠ none
        rw [Table.cell_commit, Cell.commit_committed]
        exact hk.pending id _ _ hp row u rfl hu
      | commitFails =>
        have hnone : none = some row := heq.symm.trans hrow
        cases hnone
    · exact h.user_ne_none hk.kept (hk.committed id row u (heq.symm.trans hrow) hu)
  pending := by
    refine Table.Holds.mono (h.hosts_of_others hk.pending ?_) ?_
    · intro tx x id row _ hview _ hgrantee row' u hrow' hu
      cases hrow'
      rcases x.set_userId hu with hgrant | hheld
      · obtain ⟨user, huser⟩ := hgrantee u hgrant
        rw [huser]
        nofun
      · exact hk.view_holder hview hheld
    · intro x id v hv row u hrow hu
      exact h.view_user_ne_none hk.kept hv.1 (hv.2 row u hrow hu)

theorem Tables.world_holdersKnown (t : Tables) : HoldersKnown t.world where
  kept := t.users_holds _
  committed id r u hr hu := by
    obtain ⟨x, hx, rfl, rfl⟩ := t.world_host.mp hr
    obtain ⟨user, huser, rfl⟩ := t.hosts_user_id_fkey x hx u hu
    rw [t.world_user.mpr ⟨user, huser, rfl, rfl⟩]
    nofun
  pending := t.hosts_holds _

end Tachikoma
