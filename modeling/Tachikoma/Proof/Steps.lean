import Tachikoma.Proof.Statements
import Tachikoma.System

/-!
# What one effect does

`Acts` says once what an effect of a task may do to the world; the lemmas after it say what that
means for the committed rows and for the pending ones. Everything that holds of whole runs is
derived from these lemmas: no later proof looks into `act`.

Two facts carry most of the weight. A committed row changes at a **commit** and nowhere else, and
it is then what the committing transaction had pending (`Acts.host`). And a task's pending rows are
its own: no effect of another task writes, commits or drops them (`Acts.hosts_holds`).
-/

set_option autoImplicit false

namespace Tachikoma

open Interleaving Versioned

abbrev Ev : Type := Event Pid Effect Effect.Res World Call

/-- The committed row of a host. -/
def World.host (w : World) (id : HostId) : Option HostRow := (w.db.hosts.cell id).committed

/-- The ids that were ever used. -/
def World.hostIds (w : World) : List HostId := w.db.hosts.cells.map Prod.fst

theorem World.mem_hostIds {w : World} {id : HostId} {r : HostRow} (h : w.host id = some r) :
    id ∈ w.hostIds := by
  rcases w.db.hosts.cell_cases id with hmem | ⟨_, hempty⟩
  · exact List.mem_map.mpr ⟨_, hmem, rfl⟩
  · rw [World.host, hempty] at h
    cases h

theorem World.mem_hostIds_of_pending {w : World} {id : HostId} {x : TxId × Option HostRow}
    (h : (w.db.hosts.cell id).pending = some x) : id ∈ w.hostIds := by
  rcases w.db.hosts.cell_cases id with hmem | ⟨_, hempty⟩
  · exact List.mem_map.mpr ⟨_, hmem, rfl⟩
  · rw [hempty] at h
    cases h

/-- The committed row of a user. -/
def World.user (w : World) (id : UserId) : Option UserRow := (w.db.users.cell id).committed

/-- What an effect of `p` in the world `w` may answer and lead to. -/
inductive Acts (p : Pid) (w : World) : (e : Effect) → e.Res → World → Prop where
  /-- The tables stay as they are; the sequences may move on. -/
  | quiet (e : Effect) (r : e.Res) (w' : World) (hcommit : ∀ tx, e ≠ .commit tx)
      (hexecute : ∀ tx x, e ≠ .execute tx x) (hdrop : ∀ tx, e ≠ .drop tx)
      (hhosts : w'.db.hosts = w.db.hosts) (husers : w'.db.users = w.db.users)
      (hgroups : w'.db.groups = w.db.groups) (hlimits : w'.db.leaseLimits = w.db.leaseLimits) :
      Acts p w e r w'
  /-- A statement that fails; a number taken from the sequence of the users is gone. -/
  | executeFails (tx : RegistryTx) (x : Write) (err : SqlxError) (n : Nat) :
      Acts p w (.execute tx x) (.error err) { w with db := { w.db with nextUserId := n } }
  | updateHosts (tx : RegistryTx) (x : HostWrite) (t : Table HostId TxId HostRow)
      (hupdate : w.db.hosts.update ⟨p, tx.no⟩ x.sel x.set = some t)
      (hfkey : ∀ u id r, x.grantee = some u → (w.db.hosts.cell id).view ⟨p, tx.no⟩ = some r →
        x.sel id r = true → ∃ row, (w.db.users.cell u).view ⟨p, tx.no⟩ = some row) :
      Acts p w (.execute tx (.hosts x)) (.ok ()) { w with db := { w.db with hosts := t } }
  | setUserTgHandle (tx : RegistryTx) (u : UserId) (tgHandle : String)
      (t : Table UserId TxId UserRow)
      (hupdate : w.db.users.update ⟨p, tx.no⟩ (fun id _ => decide (id = u))
        (fun r => { r with tgHandle := some tgHandle }) = some t) :
      Acts p w (.execute tx (.setUserTgHandle u tgHandle)) (.ok ())
        { w with db := { w.db with users := t } }
  | addUser (tx : RegistryTx) (dn : String) (tgHandle : Option String) (email link : String)
      (id : UserId) (t : Table UserId TxId UserRow) (n : Nat)
      (hinsert : w.db.users.insert ⟨p, tx.no⟩ id ⟨dn, tgHandle, email, link⟩ = some t) :
      Acts p w (.execute tx (.addUser dn tgHandle email)) (.ok id)
        { w with db := { w.db with users := t, nextUserId := n } }
  | commit (tx : RegistryTx) :
      Acts p w (.commit tx) (.ok ()) { w with db := w.db.commit ⟨p, tx.no⟩ }
  | commitFails (tx : RegistryTx) :
      Acts p w (.commit tx) (.error .io) { w with db := w.db.rollback ⟨p, tx.no⟩ }
  | drop (tx : RegistryTx) : Acts p w (.drop tx) () { w with db := w.db.rollback ⟨p, tx.no⟩ }

theorem acts_of_updateHosts {p : Pid} {w : World} {tx : RegistryTx} {x : HostWrite}
    {r : Except SqlxError Unit} {db : Db}
    (h : w.db.updateHosts ⟨p, tx.no⟩ x = some (r, db)) :
    Acts p w (.execute tx (.hosts x)) r { w with db := db } := by
  unfold Db.updateHosts at h
  split at h
  · obtain ⟨rfl, rfl⟩ := Prod.mk.inj (Option.some.inj h)
    exact .executeFails tx (.hosts x) .datetimeFieldOverflow _
  obtain ⟨t, ht, hr⟩ := Option.map_eq_some_iff.mp h
  split at hr
  · obtain ⟨rfl, rfl⟩ := Prod.mk.inj hr
    exact .executeFails tx (.hosts x) .foreignKeyViolation _
  · rename_i hfkey
    obtain ⟨rfl, rfl⟩ := Prod.mk.inj hr
    refine .updateHosts tx x t ht fun u id row hu hrow hsel => ?_
    by_contra hno
    refine hfkey ?_
    rw [Bool.and_eq_true, List.any_eq_true]
    refine ⟨⟨(id, row), Table.mem_rows.mpr hrow, hsel⟩, ?_⟩
    have hnone : (w.db.users.cell u).view ⟨p, tx.no⟩ = none := by
      rw [Option.eq_none_iff_forall_ne_some]
      exact fun a ha => hno ⟨a, ha⟩
    simp [hu, Db.seesUser, hnone]

theorem acts_of_insertUser {p : Pid} {w : World} {tx : RegistryTx} {uuid dn : String}
    {tgHandle : Option String} {email : String} {r : Except SqlxError UserId} {db : Db}
    (h : w.db.insertUser ⟨p, tx.no⟩ uuid dn tgHandle email = some (r, db)) :
    Acts p w (.execute tx (.addUser dn tgHandle email)) r { w with db := db } := by
  unfold Db.insertUser at h
  dsimp only at h
  split at h
  · cases h
  · split at h
    · obtain ⟨rfl, rfl⟩ := Prod.mk.inj (Option.some.inj h)
      exact .executeFails tx (.addUser dn tgHandle email) .uniqueViolation _
    · split at h
      · obtain ⟨rfl, rfl⟩ := Prod.mk.inj (Option.some.inj h)
        exact .executeFails tx (.addUser dn tgHandle email) .uniqueViolation _
      · rename_i t ht
        obtain ⟨rfl, rfl⟩ := Prod.mk.inj (Option.some.inj h)
        exact .addUser tx dn tgHandle email uuid _ t _ ht

/-- `act` does nothing that `Acts` does not say. -/
theorem acts_of_act {p : Pid} {e : Effect} {env : Env} {w w' : World} {r : e.Res}
    (h : act p e env w = some (r, w')) : Acts p w e r w' := by
  cases e with
  | execute tx x =>
    simp only [act] at h
    split at h
    · obtain ⟨rfl, rfl⟩ := Prod.mk.inj (Option.some.inj h)
      exact .executeFails tx x .io _
    · obtain ⟨⟨r', db⟩, hx, hr⟩ := Option.map_eq_some_iff.mp h
      obtain ⟨rfl, rfl⟩ := Prod.mk.inj hr
      cases x with
      | hosts x => exact acts_of_updateHosts hx
      | setUserTgHandle u tgHandle =>
        obtain ⟨t, ht, hr⟩ := Option.map_eq_some_iff.mp hx
        obtain ⟨rfl, rfl⟩ := Prod.mk.inj hr
        exact .setUserTgHandle tx u tgHandle t ht
      | addUser dn tgHandle email => exact acts_of_insertUser hx
  | commit tx =>
    have h := Option.some.inj h
    split at h
    · obtain ⟨rfl, rfl⟩ := Prod.mk.inj h
      exact .commitFails tx
    · obtain ⟨rfl, rfl⟩ := Prod.mk.inj h
      exact .commit tx
  | drop tx =>
    obtain ⟨rfl, rfl⟩ := Prod.mk.inj (Option.some.inj h)
    exact .drop tx
  -- What is left does not touch the tables.
  | begin =>
    have h := Option.some.inj h
    split at h <;> obtain ⟨rfl, rfl⟩ := Prod.mk.inj h <;>
      exact .quiet _ _ _ (by simp) (by simp) (by simp) rfl rfl rfl rfl
  | _ =>
    obtain ⟨rfl, rfl⟩ := Prod.mk.inj (Option.some.inj h)
    exact .quiet _ _ _ (by simp) (by simp) (by simp) rfl rfl rfl rfl

/-- A statement that reads changes nothing, and answers from what its transaction sees. -/
theorem act_fetch {p : Pid} {tx : RegistryTx} {q : Select} {env : Env} {w w' : World}
    {r : Except SqlxError q.Rows} (h : act p (.fetch tx q) env w = some (r, w')) :
    w' = w ∧ (r = .error .io ∨ r = q.run env.order (w.db.view ⟨p, tx.no⟩)) := by
  obtain ⟨rfl, rfl⟩ := Prod.mk.inj (Option.some.inj h)
  refine ⟨rfl, ?_⟩
  by_cases hf : env.fails = true
  · exact .inl (if_pos hf)
  · exact .inr (if_neg hf)

theorem acts_fetch {p : Pid} {w : World} {tx : RegistryTx} {q : Select}
    (r : Except SqlxError q.Rows) : Acts p w (.fetch tx q) r w :=
  .quiet _ _ _ (by simp) (by simp) (by simp) rfl rfl rfl rfl

theorem acts_hashOrder {p : Pid} {w : World} (order : List Nat) : Acts p w .hashOrder order w :=
  .quiet _ _ _ (by simp) (by simp) (by simp) rfl rfl rfl rfl

theorem acts_notify {p : Pid} {w : World} {u : UserId} {x : Notification} :
    Acts p w (.notify u x) () w :=
  .quiet _ _ _ (by simp) (by simp) (by simp) rfl rfl rfl rfl

theorem acts_send {p : Pid} {w : World} {sender : MsgSender} {msg : Message}
    (r : Except Unit Unit) :
    Acts p w (.send sender msg) r w :=
  .quiet _ _ _ (by simp) (by simp) (by simp) rfl rfl rfl rfl

theorem acts_now {p : Pid} {w : World} (t : Time) : Acts p w .now t w :=
  .quiet _ _ _ (by simp) (by simp) (by simp) rfl rfl rfl rfl

theorem Acts.groups_limits {p : Pid} {w w' : World} {e : Effect} {r : e.Res} (h : Acts p w e r w') :
    w'.db.groups = w.db.groups ∧ w'.db.leaseLimits = w.db.leaseLimits := by
  cases h with
  | quiet _ _ _ _ _ _ _ _ hgroups hlimits => exact ⟨hgroups, hlimits⟩
  | _ => exact ⟨rfl, rfl⟩

/-! ## Committed rows -/

/-- The row that an event commits under the id of a host. -/
def committedRow (id : HostId) : Ev → Option HostRow
  | .did p _ (.commit tx) (.ok ()) before _ =>
    match (before.db.hosts.cell id).pending with
    | some (x, v) => if x = ⟨p, tx.no⟩ then v else none
    | none => none
  | _ => none

theorem committedRow_commit {p : Pid} {n : Nat} {tx : RegistryTx} {w w' : World} {id : HostId}
    {row : HostRow} :
    committedRow id (.did p n (.commit tx) (.ok ()) w w') = some row ↔
      (w.db.hosts.cell id).pending = some (⟨p, tx.no⟩, some row) := by
  simp only [committedRow]
  split
  · rename_i x v hp
    rw [hp]
    split
    · rename_i hx; subst hx; simp
    · rename_i hx; simp [hx]
  · rename_i hp; simp [hp]

theorem committedRow_of_ne_commit {p : Pid} {n : Nat} {e : Effect} {r : e.Res} {w w' : World}
    {id : HostId} (he : ∀ tx, e ≠ .commit tx) : committedRow id (.did p n e r w w') = none := by
  cases e with
  | commit tx => exact absurd rfl (he tx)
  | _ => rfl

theorem pending_of_committedRow {p : Pid} {n : Nat} {e : Effect} {r : e.Res} {w w' : World}
    {id : HostId} {row : HostRow} (h : committedRow id (.did p n e r w w') = some row) :
    ∃ tx, e = .commit tx ∧ (w.db.hosts.cell id).pending = some (⟨p, tx.no⟩, some row) := by
  by_cases he : ∃ tx, e = .commit tx
  · obtain ⟨tx, rfl⟩ := he
    cases r with
    | error err => cases h
    | ok a => exact ⟨tx, rfl, committedRow_commit.mp h⟩
  · rw [committedRow_of_ne_commit (not_exists.mp he)] at h
    cases h

theorem Acts.host_of_ne_commit {p : Pid} {w w' : World} {e : Effect} {r : e.Res}
    (h : Acts p w e r w') (he : ∀ tx, e ≠ .commit tx) (id : HostId) : w'.host id = w.host id := by
  cases h with
  | quiet _ _ _ _ _ _ hhosts => rw [World.host, World.host, hhosts]
  | executeFails => rfl
  | updateHosts tx x t hupdate =>
    simp only [World.host, Table.cell_update hupdate, Cell.write_committed]
  | setUserTgHandle => rfl
  | addUser => rfl
  | commit tx => exact absurd rfl (he tx)
  | commitFails tx => exact absurd rfl (he tx)
  | drop tx => simp [World.host, Db.rollback]

/-- A row that an event does not commit stays as it is. -/
theorem Acts.host {p : Pid} {w w' : World} {e : Effect} {r : e.Res} (h : Acts p w e r w') (n : Nat)
    (id : HostId) :
    w'.host id = committedRow id (.did p n e r w w') ∨
      (committedRow id (.did p n e r w w') = none ∧ w'.host id = w.host id) := by
  by_cases he : ∃ tx, e = .commit tx
  · obtain ⟨tx, rfl⟩ := he
    cases h with
    | quiet _ _ _ hcommit => exact absurd rfl (hcommit tx)
    | commit =>
      by_cases hheld : ∃ v, (w.db.hosts.cell id).pending = some (⟨p, tx.no⟩, v)
      · obtain ⟨v, hv⟩ := hheld
        left
        simp only [World.host, Db.commit, Table.cell_commit, Cell.commit_committed_held hv,
          committedRow, hv, if_true]
      · right
        refine ⟨?_, ?_⟩
        · rw [Option.eq_none_iff_forall_ne_some]
          exact fun row hrow => hheld ⟨_, committedRow_commit.mp hrow⟩
        · simp only [World.host, Db.commit, Table.cell_commit,
            Cell.commit_committed_not_held (not_exists.mp hheld)]
    | commitFails => exact .inr ⟨rfl, by simp [World.host, Db.rollback]⟩
  · have he := not_exists.mp he
    exact .inr ⟨committedRow_of_ne_commit he, h.host_of_ne_commit he id⟩

/-! ## Pending rows -/

/-- Pending rows of `hosts` satisfy what the updates of `hosts` write. -/
theorem Acts.hosts_holds {p : Pid} {w w' : World} {e : Effect} {r : e.Res} (h : Acts p w e r w')
    {P : TxId → HostId → Option HostRow → Prop} (hP : w.db.hosts.Holds P)
    (hwrite : ∀ tx x id row, e = .execute tx (.hosts x) →
      (w.db.hosts.cell id).view ⟨p, tx.no⟩ = some row → x.sel id row = true →
      P ⟨p, tx.no⟩ id (some (x.set row))) : w'.db.hosts.Holds P := by
  cases h with
  | quiet _ _ _ _ _ _ hhosts => rw [hhosts]; exact hP
  | executeFails => exact hP
  | updateHosts tx x t hupdate =>
    exact hP.update hupdate fun id row hrow hsel => hwrite tx x id row rfl hrow hsel
  | setUserTgHandle => exact hP
  | addUser => exact hP
  | commit tx => exact (hP.commit _).mono fun _ _ _ hv => hv.2
  | commitFails tx => exact (hP.rollback _).mono fun _ _ _ hv => hv.2
  | drop tx => exact (hP.rollback _).mono fun _ _ _ hv => hv.2

/-- Pending rows of `users` satisfy what is written to `users`. -/
theorem Acts.users_holds {p : Pid} {w w' : World} {e : Effect} {r : e.Res} (h : Acts p w e r w')
    {P : TxId → UserId → Option UserRow → Prop} (hP : w.db.users.Holds P)
    (hlink : ∀ tx u tgHandle row, e = .execute tx (.setUserTgHandle u tgHandle) →
      (w.db.users.cell u).view ⟨p, tx.no⟩ = some row →
      P ⟨p, tx.no⟩ u (some { row with tgHandle := some tgHandle }))
    (hadd : ∀ tx id dn tgHandle email link, e = .execute tx (.addUser dn tgHandle email) →
      P ⟨p, tx.no⟩ id (some ⟨dn, tgHandle, email, link⟩)) : w'.db.users.Holds P := by
  cases h with
  | quiet _ _ _ _ _ _ _ husers => rw [husers]; exact hP
  | executeFails => exact hP
  | updateHosts => exact hP
  | setUserTgHandle tx u tgHandle t hupdate =>
    refine hP.update hupdate fun id row hrow hsel => ?_
    obtain rfl := of_decide_eq_true hsel
    exact hlink tx id tgHandle row rfl hrow
  | addUser tx dn tgHandle email link id t n hinsert =>
    exact hP.insert hinsert (hadd tx id dn tgHandle email link rfl)
  | commit tx => exact (hP.commit _).mono fun _ _ _ hv => hv.2
  | commitFails tx => exact (hP.rollback _).mono fun _ _ _ hv => hv.2
  | drop tx => exact (hP.rollback _).mono fun _ _ _ hv => hv.2

/-- Nobody deletes rows of `hosts`. -/
def Written (w : World) : Prop := w.db.hosts.Holds fun _ _ v => v ≠ none

theorem Acts.written {p : Pid} {w w' : World} {e : Effect} {r : e.Res} (h : Acts p w e r w')
    (hw : Written w) : Written w' :=
  h.hosts_holds hw fun _ _ _ _ _ _ _ => nofun

/-- So a committed row is the one that the event commits, or the one that was there. -/
theorem Acts.host_eq {p : Pid} {w w' : World} {e : Effect} {r : e.Res} (h : Acts p w e r w')
    (hw : Written w) (n : Nat) (id : HostId) :
    w'.host id = (committedRow id (.did p n e r w w')).or (w.host id) := by
  rcases h.host n id with heq | ⟨hnone, heq⟩
  · cases hc : committedRow id (.did p n e r w w') with
    | some row => rw [heq, hc]; rfl
    | none =>
      rw [Option.none_or]
      -- Only a pending `none` would make the row vanish.
      by_cases he : ∃ tx, e = .commit tx
      · obtain ⟨tx, rfl⟩ := he
        cases h with
        | quiet _ _ _ hcommit => exact absurd rfl (hcommit tx)
        | commitFails => simp [World.host, Db.rollback]
        | commit =>
          by_cases hheld : ∃ v, (w.db.hosts.cell id).pending = some (⟨p, tx.no⟩, v)
          · obtain ⟨v, hv⟩ := hheld
            obtain ⟨row, rfl⟩ := Option.ne_none_iff_exists'.mp (hw id _ v hv)
            rw [committedRow_commit.mpr hv] at hc
            cases hc
          · simp [World.host, Db.commit, Cell.commit_committed_not_held (not_exists.mp hheld)]
      · exact h.host_of_ne_commit (not_exists.mp he) id
  · rw [hnone, heq, Option.none_or]

/-- What a task has pending is left to it by the others. -/
theorem Acts.pending_of_ne {p q : Pid} {w w' : World} {e : Effect} {r : e.Res}
    (h : Acts q w e r w') (hq : q ≠ p) {x : TxId} (hx : x.pid = p) {id : HostId}
    {v : Option HostRow} (hv : (w.db.hosts.cell id).pending = some (x, v)) :
    (w'.db.hosts.cell id).pending = some (x, v) := by
  have hne : ∀ no, x ≠ ⟨q, no⟩ := fun no he => hq (by rw [← hx, he])
  cases h with
  | quiet _ _ _ _ _ _ hhosts => rw [hhosts]; exact hv
  | executeFails => exact hv
  | updateHosts tx y t hupdate =>
    change (t.cell id).pending = _
    rw [Table.cell_update hupdate]
    exact (Cell.write_pending_other (hne _)
      (fun r hr hsel => Table.update_free hupdate hr hsel) v).mpr hv
  | setUserTgHandle => exact hv
  | addUser => exact hv
  | commit tx => simpa [Db.commit, Cell.commit_pending_other (hne _)] using hv
  | commitFails tx => simpa [Db.rollback, Cell.rollback_pending_other (hne _)] using hv
  | drop tx => simpa [Db.rollback, Cell.rollback_pending_other (hne _)] using hv

/-- A transaction that was committed or dropped has no pending row. -/
theorem Acts.ended {p : Pid} {w w' : World} {e : Effect} {r : e.Res} (h : Acts p w e r w')
    {tx : RegistryTx} (he : e = .commit tx ∨ e = .drop tx) :
    (∀ {P : TxId → HostId → Option HostRow → Prop}, w.db.hosts.Holds P →
      w'.db.hosts.Holds fun x id v => x ≠ ⟨p, tx.no⟩ ∧ P x id v) ∧
    (∀ {P : TxId → UserId → Option UserRow → Prop}, w.db.users.Holds P →
      w'.db.users.Holds fun x id v => x ≠ ⟨p, tx.no⟩ ∧ P x id v) := by
  obtain rfl | rfl := he
  · cases h with
    | quiet _ _ _ hcommit => exact absurd rfl (hcommit tx)
    | commit => exact ⟨fun hP => hP.commit _, fun hP => hP.commit _⟩
    | commitFails => exact ⟨fun hP => hP.rollback _, fun hP => hP.rollback _⟩
  · cases h with
    | quiet _ _ _ _ _ hdrop => exact absurd rfl (hdrop tx)
    | drop => exact ⟨fun hP => hP.rollback _, fun hP => hP.rollback _⟩

/-- The task has nothing pending. -/
structure Clean (p : Pid) (w : World) : Prop where
  hosts : w.db.hosts.Holds fun x _ _ => x.pid ≠ p
  users : w.db.users.Holds fun x _ _ => x.pid ≠ p

/-- What the task has pending belongs to the transaction `tx`. -/
structure Within (p : Pid) (tx : RegistryTx) (w : World) : Prop where
  hosts : w.db.hosts.Holds fun x _ _ => x.pid = p → x = ⟨p, tx.no⟩
  users : w.db.users.Holds fun x _ _ => x.pid = p → x = ⟨p, tx.no⟩

theorem Clean.within {p : Pid} {w : World} (h : Clean p w) (tx : RegistryTx) : Within p tx w :=
  ⟨h.hosts.mono fun _ _ _ hne he => absurd he hne, h.users.mono fun _ _ _ hne he => absurd he hne⟩

/-- A clean task sees the committed rows. -/
theorem Clean.view {p : Pid} {w : World} (h : Clean p w) (tx : RegistryTx) (id : HostId) :
    (w.db.hosts.cell id).view ⟨p, tx.no⟩ = w.host id :=
  Table.view_of_holds (h.hosts.mono fun x _ _ hne he => hne (by rw [he])) id

theorem Clean.view_user {p : Pid} {w : World} (h : Clean p w) (tx : RegistryTx) (id : UserId) :
    (w.db.users.cell id).view ⟨p, tx.no⟩ = w.user id :=
  Table.view_of_holds (h.users.mono fun x _ _ hne he => hne (by rw [he])) id

/-- No effect of another task touches what the task has pending. -/
theorem Acts.clean_of_ne {p q : Pid} {w w' : World} {e : Effect} {r : e.Res} (h : Acts q w e r w')
    (hq : q ≠ p) (hc : Clean p w) : Clean p w' :=
  ⟨h.hosts_holds hc.hosts fun _ _ _ _ _ _ _ => hq,
    h.users_holds hc.users (fun _ _ _ _ _ _ => hq) fun _ _ _ _ _ _ _ => hq⟩

theorem Acts.within_of_ne {p q : Pid} {tx : RegistryTx} {w w' : World} {e : Effect} {r : e.Res}
    (h : Acts q w e r w') (hq : q ≠ p) (hc : Within p tx w) : Within p tx w' :=
  ⟨h.hosts_holds hc.hosts fun _ _ _ _ _ _ _ he => absurd he hq,
    h.users_holds hc.users (fun _ _ _ _ _ _ he => absurd he hq)
      fun _ _ _ _ _ _ _ he => absurd he hq⟩

/-- An effect that writes nothing leaves a clean task clean. -/
theorem Acts.clean {p : Pid} {w w' : World} {e : Effect} {r : e.Res} (h : Acts p w e r w')
    (he : ∀ tx x, e ≠ .execute tx x) (hc : Clean p w) : Clean p w' :=
  ⟨h.hosts_holds hc.hosts fun _ _ _ _ hx => absurd hx (he _ _),
    h.users_holds hc.users (fun _ _ _ _ hx => absurd hx (he _ _))
      fun _ _ _ _ _ _ hx => absurd hx (he _ _)⟩

/-- What the task writes as `tx` stays within `tx`. -/
theorem Acts.within {p : Pid} {tx : RegistryTx} {w w' : World} {e : Effect} {r : e.Res}
    (h : Acts p w e r w') (he : ∀ tx' x, e = .execute tx' x → tx' = tx) (hc : Within p tx w) :
    Within p tx w' :=
  ⟨h.hosts_holds hc.hosts fun _ _ _ _ hx _ _ _ => by rw [he _ _ hx],
    h.users_holds hc.users (fun _ _ _ _ hx _ _ => by rw [he _ _ hx])
      fun _ _ _ _ _ _ hx _ => by rw [he _ _ hx]⟩

theorem Acts.clean_of_ended {p : Pid} {tx : RegistryTx} {w w' : World} {e : Effect} {r : e.Res}
    (h : Acts p w e r w') (he : e = .commit tx ∨ e = .drop tx) (hc : Within p tx w) :
    Clean p w' :=
  ⟨((h.ended he).1 hc.hosts).mono fun _ _ _ hx hp => hx.1 (hx.2 hp),
    ((h.ended he).2 hc.users).mono fun _ _ _ hx hp => hx.1 (hx.2 hp)⟩

/-! ## Users -/

/-- The ids of users that were ever used. -/
def World.userIds (w : World) : List UserId := w.db.users.cells.map Prod.fst

theorem World.mem_userIds {w : World} {id : UserId} {r : UserRow} (h : w.user id = some r) :
    id ∈ w.userIds := by
  rcases w.db.users.cell_cases id with hmem | ⟨_, hempty⟩
  · exact List.mem_map.mpr ⟨_, hmem, rfl⟩
  · rw [World.user, hempty] at h
    cases h

theorem World.mem_userIds_of_pending {w : World} {id : UserId} {x : TxId × Option UserRow}
    (h : (w.db.users.cell id).pending = some x) : id ∈ w.userIds := by
  rcases w.db.users.cell_cases id with hmem | ⟨_, hempty⟩
  · exact List.mem_map.mpr ⟨_, hmem, rfl⟩
  · rw [hempty] at h
    cases h

/-- What holds of every version of every user is kept if linking and adding keep it. -/
theorem Acts.users_cells {p : Pid} {w w' : World} {e : Effect} {r : e.Res} (h : Acts p w e r w')
    {G : Cell TxId UserRow → Prop} (hG : ∀ id, G (w.db.users.cell id))
    (hlink : ∀ tx u tgHandle c, e = .execute tx (.setUserTgHandle u tgHandle) → G c →
      G (c.write ⟨p, tx.no⟩ (fun _ => true) fun r => { r with tgHandle := some tgHandle }))
    (hadd : ∀ tx dn tgHandle email link, e = .execute tx (.addUser dn tgHandle email) →
      G ⟨none, some (⟨p, tx.no⟩, some ⟨dn, tgHandle, email, link⟩)⟩)
    (hcommit : ∀ x c, G c → G (c.commit x)) (hrollback : ∀ x c, G c → G (c.rollback x)) :
    ∀ id, G (w'.db.users.cell id) := by
  intro id
  cases h with
  | quiet _ _ _ _ _ _ _ husers => rw [husers]; exact hG id
  | executeFails => exact hG id
  | updateHosts => exact hG id
  | setUserTgHandle tx u tgHandle t hupdate =>
    change G (t.cell id)
    rw [Table.cell_update hupdate]
    by_cases hid : id = u
    · simpa only [hid, decide_true] using hlink tx u tgHandle _ rfl (hG u)
    · simp only [hid, decide_false, Cell.write, Bool.false_eq_true, if_false]
      split <;> exact hG id
  | addUser tx dn tgHandle email link id' t n hinsert =>
    change G (t.cell id)
    rw [Table.cell_insert hinsert]
    split
    · exact hadd tx dn tgHandle email link rfl
    · exact hG id
  | commit tx => simpa [Db.commit] using hcommit _ _ (hG id)
  | commitFails tx => simpa [Db.rollback] using hrollback _ _ (hG id)
  | drop tx => simpa [Db.rollback] using hrollback _ _ (hG id)

/-- The row that an event commits under the id of a user. -/
def committedUser (id : UserId) : Ev → Option UserRow
  | .did p _ (.commit tx) (.ok ()) before _ =>
    match (before.db.users.cell id).pending with
    | some (x, v) => if x = ⟨p, tx.no⟩ then v else none
    | none => none
  | _ => none

theorem committedUser_commit {p : Pid} {n : Nat} {tx : RegistryTx} {w w' : World} {id : UserId}
    {row : UserRow} :
    committedUser id (.did p n (.commit tx) (.ok ()) w w') = some row ↔
      (w.db.users.cell id).pending = some (⟨p, tx.no⟩, some row) := by
  simp only [committedUser]
  split
  · rename_i x v hp
    rw [hp]
    split
    · rename_i hx; subst hx; simp
    · rename_i hx; simp [hx]
  · rename_i hp; simp [hp]

theorem pending_of_committedUser {p : Pid} {n : Nat} {e : Effect} {r : e.Res} {w w' : World}
    {id : UserId} {row : UserRow} (h : committedUser id (.did p n e r w w') = some row) :
    ∃ tx, e = .commit tx ∧ (w.db.users.cell id).pending = some (⟨p, tx.no⟩, some row) := by
  cases e with
  | commit tx =>
    cases r with
    | error err => cases h
    | ok a => exact ⟨tx, rfl, committedUser_commit.mp h⟩
  | _ => cases h

/-- A user that an event does not commit stays as it is; one that it commits was pending. -/
theorem Acts.user {p : Pid} {w w' : World} {e : Effect} {r : e.Res} (h : Acts p w e r w') (n : Nat)
    (id : UserId) :
    (w'.user id = committedUser id (.did p n e r w w') ∧
      ∃ x, (w.db.users.cell id).pending = some (x, w'.user id)) ∨ w'.user id = w.user id := by
  cases h with
  | quiet _ _ _ _ _ _ _ husers => exact .inr (by rw [World.user, World.user, husers])
  | executeFails => exact .inr rfl
  | updateHosts => exact .inr rfl
  | setUserTgHandle tx u tgHandle t hupdate =>
    exact .inr (by simp only [World.user, Table.cell_update hupdate, Cell.write_committed])
  | addUser tx dn tgHandle email link id' t n hinsert =>
    refine .inr ?_
    simp only [World.user, Table.cell_insert hinsert]
    split
    · rename_i hid; subst hid; rw [Table.cell_of_insert hinsert]; rfl
    · rfl
  | commit tx =>
    by_cases hheld : ∃ v, (w.db.users.cell id).pending = some (⟨p, tx.no⟩, v)
    · obtain ⟨v, hv⟩ := hheld
      left
      simp only [World.user, Db.commit, Table.cell_commit, Cell.commit_committed_held hv,
        committedUser, hv, if_true, true_and]
      exact ⟨_, rfl⟩
    · exact .inr (by simp [World.user, Db.commit,
        Cell.commit_committed_not_held (not_exists.mp hheld)])
  | commitFails tx => exact .inr (by simp [World.user, Db.rollback])
  | drop tx => exact .inr (by simp [World.user, Db.rollback])

/-- What a task has pending of a user is left to it by the others. -/
theorem Acts.pending_user_of_ne {p q : Pid} {w w' : World} {e : Effect} {r : e.Res}
    (h : Acts q w e r w') (hq : q ≠ p) {x : TxId} (hx : x.pid = p) {id : UserId}
    {v : Option UserRow} (hv : (w.db.users.cell id).pending = some (x, v)) :
    (w'.db.users.cell id).pending = some (x, v) := by
  have hne : ∀ no, x ≠ ⟨q, no⟩ := fun no he => hq (by rw [← hx, he])
  cases h with
  | quiet _ _ _ _ _ _ _ husers => rw [husers]; exact hv
  | executeFails => exact hv
  | updateHosts => exact hv
  | setUserTgHandle tx u tgHandle t hupdate =>
    change (t.cell id).pending = _
    rw [Table.cell_update hupdate]
    exact (Cell.write_pending_other (hne _)
      (fun r hr hsel => Table.update_free hupdate hr hsel) v).mpr hv
  | addUser tx dn tgHandle email link id' t n hinsert =>
    change (t.cell id).pending = _
    rw [Table.cell_insert hinsert]
    split
    · rename_i hid; subst hid; rw [Table.cell_of_insert hinsert] at hv; cases hv
    · exact hv
  | commit tx => simpa [Db.commit, Cell.commit_pending_other (hne _)] using hv
  | commitFails tx => simpa [Db.rollback, Cell.rollback_pending_other (hne _)] using hv
  | drop tx => simpa [Db.rollback, Cell.rollback_pending_other (hne _)] using hv

/-! ## Events -/

/-- An effect that happened is one that `Acts` allows. -/
theorem acts_of_legal {h : History} {p : Pid} {n : Nat} {e : Effect} {r : e.Res} {w w' : World}
    (hl : machine.Legal h (.did p n e r w w')) : w = h.state ∧ Acts p h.state e r w' := by
  obtain ⟨rfl, env, ha⟩ := hl
  exact ⟨rfl, acts_of_act ha⟩

/-- What every effect of another task keeps is stable. -/
theorem stable_of_acts {Cond : History → Ev → Prop} {Inv : History → Prop} {p : Pid}
    {A : World → Prop} (hA : ∀ q w e r w', q ≠ p → Acts q w e r w' → A w → A w') :
    machine.Stable Cond Inv p fun h => A h.state := by
  intro h ev _ hAh hne hl _
  cases ev with
  | called q n κ => exact hAh
  | did q n e r w w' =>
    obtain ⟨rfl, hacts⟩ := acts_of_legal hl
    exact hA q _ e r w' hne hacts hAh

theorem stable_clean {Cond : History → Ev → Prop} {Inv : History → Prop} {p : Pid} :
    machine.Stable Cond Inv p fun h => Clean p h.state :=
  stable_of_acts fun _ _ _ _ _ hq hacts hc => hacts.clean_of_ne hq hc

theorem stable_within {Cond : History → Ev → Prop} {Inv : History → Prop} {p : Pid}
    {tx : RegistryTx} : machine.Stable Cond Inv p fun h => Within p tx h.state :=
  stable_of_acts fun _ _ _ _ _ hq hacts hc => hacts.within_of_ne hq hc

end Tachikoma
