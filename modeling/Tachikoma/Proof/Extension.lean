import Tachikoma.Proof.Calls
import Tachikoma.Proof.Lease
import Tachikoma.Proof.Records

/-!
# An extension that runs alone

What `extend_user_hosts` does when no other task acts while it runs. Others may be in the middle of
something: the tables need not be settled, it is enough that the task itself has **nothing pending**
(`Clean`), so that it reads the committed rows.
-/

set_option autoImplicit false

namespace Tachikoma

open Interleaving Versioned

variable {p : Pid} {s : Setting} {w w' w₁ : World}

/-! ## In the middle of a transaction -/

/-- A transaction of `p`, begun in `w`, has come to `w₁` and has committed nothing. -/
structure Uncommitted (p : Pid) (tx : RegistryTx) (w w₁ : World) : Prop where
  hosts : SameHosts w w₁
  users : ∀ id, w₁.user id = w.user id
  view : ∀ id, (w₁.db.users.cell id).view ⟨p, tx.no⟩ = w.user id
  within : Within p tx w₁
  others : ∀ q, q ≠ p → Clean q w → Clean q w₁

/-- A call of `p` is over: no user has changed, and nobody has more pending than before. -/
structure Over (p : Pid) (w w' : World) : Prop where
  users : ∀ id, w'.user id = w.user id
  clean : Clean p w'
  others : ∀ q, q ≠ p → Clean q w → Clean q w'

theorem Uncommitted.begun (hc : Clean p w) (tx : RegistryTx) (n : Nat) :
    Uncommitted p tx w { w with nextTx := n } where
  hosts _ := rfl
  users _ := rfl
  view := hc.view_user tx
  within := (Clean.mk hc.hosts hc.users : Clean p { w with nextTx := n }).within tx
  others _ _ hq := ⟨hq.hosts, hq.users⟩

/-- An update of hosts is the transaction's own business until it commits. -/
theorem Uncommitted.updateHosts {tx : RegistryTx} {x : HostWrite} {r : Except SqlxError Unit}
    (h : Uncommitted p tx w w₁) (ha : Acts p w₁ (.execute tx (.hosts x)) r w') :
    Uncommitted p tx w w' := by
  have husers : w'.db.users = w₁.db.users := by
    cases ha with
    | quiet _ _ _ _ hexecute => exact absurd rfl (hexecute tx (.hosts x))
    | executeFails => rfl
    | updateHosts => rfl
  refine ⟨sameHosts_of_acts h.hosts ha (by simp), fun id => ?_, fun id => ?_, ?_, fun q hq hc => ?_⟩
  · rw [World.user, husers]
    exact h.users id
  · rw [husers]
    exact h.view id
  · exact ha.within (fun tx' x' he => (Effect.execute.inj he).1.symm) h.within
  · exact ha.clean_of_ne (Ne.symm hq) (h.others q hq hc)

theorem Uncommitted.drop {tx : RegistryTx} (h : Uncommitted p tx w w₁) :
    Over p w { w₁ with db := w₁.db.rollback ⟨p, tx.no⟩ } where
  users id := (by simp [World.user, Db.rollback] : _ = w₁.user id).trans (h.users id)
  clean := (Acts.drop tx : Acts p w₁ (.drop tx) () _).clean_of_ended (.inr rfl) h.within
  others q hq hc :=
    (Acts.drop tx : Acts p w₁ (.drop tx) () _).clean_of_ne (Ne.symm hq) (h.others q hq hc)

theorem Uncommitted.sameHosts_drop {tx : RegistryTx} (h : Uncommitted p tx w w₁) :
    SameHosts w { w₁ with db := w₁.db.rollback ⟨p, tx.no⟩ } := sameHosts_rollback h.hosts _

/-- A commit that fails has rolled the transaction back before it is dropped. -/
theorem Uncommitted.rollback {tx : RegistryTx} (h : Uncommitted p tx w w₁) :
    Uncommitted p tx w { w₁ with db := w₁.db.rollback ⟨p, tx.no⟩ } where
  hosts := h.sameHosts_drop
  users := h.drop.users
  view id := (h.drop.clean.view_user tx id).trans (h.drop.users id)
  within := h.drop.clean.within tx
  others := h.drop.others

/-- The commit makes everybody see the hosts as the transaction does, and its users are the old
    ones. -/
theorem Uncommitted.commit {tx : RegistryTx} (h : Uncommitted p tx w w₁) :
    Over p w { w₁ with db := (w₁.db.commit ⟨p, tx.no⟩).rollback ⟨p, tx.no⟩ } ∧
      ∀ id, World.host { w₁ with db := (w₁.db.commit ⟨p, tx.no⟩).rollback ⟨p, tx.no⟩ } id =
        (w₁.db.hosts.cell id).view ⟨p, tx.no⟩ := by
  have hcommit : Acts p w₁ (.commit tx) (.ok ()) { w₁ with db := w₁.db.commit ⟨p, tx.no⟩ } :=
    .commit tx
  have hclean := hcommit.clean_of_ended (.inl rfl) h.within
  have hdrop : Acts p { w₁ with db := w₁.db.commit ⟨p, tx.no⟩ } (.drop tx) ()
    { w₁ with db := (w₁.db.commit ⟨p, tx.no⟩).rollback ⟨p, tx.no⟩ } := .drop tx
  refine ⟨⟨fun id => ?_, hdrop.clean (by simp) hclean, fun q hq hc => ?_⟩, fun id => ?_⟩
  · simp only [World.user, Db.rollback, Db.commit, Table.cell_rollback, Cell.rollback_committed,
      Table.cell_commit, Cell.commit_committed]
    exact h.view id
  · exact hdrop.clean_of_ne (Ne.symm hq) (hcommit.clean_of_ne (Ne.symm hq) (h.others q hq hc))
  · simp only [World.host, Db.rollback, Db.commit, Table.cell_rollback, Cell.rollback_committed,
      Table.cell_commit, Cell.commit_committed]

/-- What the transaction sees of a host after its first update. -/
theorem Acts.view_updateHosts {tx : RegistryTx} {x : HostWrite} (hc : Clean p w)
    (ha : Acts p w (.execute tx (.hosts x)) (.ok ()) w') (id : HostId) :
    (w'.db.hosts.cell id).view ⟨p, tx.no⟩ =
      (w.host id).map fun r => if x.sel id r then x.set r else r := by
  cases ha with
  | quiet _ _ _ _ hexecute => exact absurd rfl (hexecute tx (.hosts x))
  | updateHosts _ _ t hupdate =>
    show (t.cell id).view _ = _
    rw [Table.cell_update hupdate, Cell.write_view, hc.view tx id]

/-! ## The extension -/

/-- The lease of the row is one that the user's press of the button at `now` extends. -/
def pressed (u : UserId) (now : Time) (r : HostRow) : Bool :=
  decide (r.userId = some u) && expiresBefore (now + EXPIRATION_NOTIFY_WINDOW) r

/-- The row with a lease that is longer by some hours. -/
def HostRow.extended (hours : Int32) (r : HostRow) : HostRow :=
  { r with leasedUntil := r.leasedUntil.map (· + TimeDelta.hours hours.toInt) }

/-- The lines of the answer, if the clock stands still at `now`. -/
def linesAt (now : Time) (idx : Nat) : List Host → List Line
  | [] => []
  | host :: hosts =>
    ⟨idx, host.hostname, host.ipAddress,
      some (host.leasedUntil.elim 0 fun d => (d - now).tdiv (TimeDelta.minutes 1))⟩ ::
        linesAt now (idx + 1) hosts

/-- What a press of the button has come to. -/
inductive Presses (tgHandle : String) (hours : Int32) (now : Time) (w : World) :
    Exit AnyError Extended → World → Prop where
  | failed (e : AnyError) (w' : World) (hsame : SameHosts w w') :
      Presses tgHandle hours now w (.err e) w'
  | noExpiringHosts (w' : World) (hsame : SameHosts w w') :
      Presses tgHandle hours now w (.ok .noExpiringHosts) w'
  /-- The leases of one user that carries the handle are extended, and these hosts are listed. -/
  | extended (w' : World) (u : UserId) (row : UserRow) (hosts : List Host)
      (huser : w.user u = some row) (hcarries : row.tgHandle = some tgHandle)
      (hextends : ∀ id, w'.host id =
        (w.host id).map fun r => if pressed u now r then r.extended hours else r)
      (hlisted : ∀ h, h ∈ hosts ↔ ∃ r, w.host h.id = some r ∧ pressed u now r = true ∧
        h.toHostRow = r.extended hours) :
      Presses tgHandle hours now w (.ok (.leaseExtended hours (linesAt now 1 hosts))) w'

theorem records_updatedLines {now : Time} (hclock : s.clock = some now) (hosts : List Host)
    (idx : Nat) : (updatedLines idx hosts).Records s p w fun _ r w' =>
      r = .ok (linesAt now idx hosts) ∧ w' = w := by
  induction hosts generalizing idx with
  | nil => exact Task.records_pure ⟨rfl, rfl⟩
  | cons host hosts ih =>
    rw [updatedLines]
    split
    · rename_i hnone
      refine Task.records_bind ((ih (idx + 1)).mono ?_)
      intro log r w' hlog
      obtain ⟨rfl, rfl⟩ := hlog
      exact Task.records_pure ⟨by rw [linesAt, hnone]; rfl, rfl⟩
    · rename_i d hd
      refine Task.records_bind (Task.records_utcNow fun now' hnow => ?_)
      obtain rfl : now' = now := hnow now hclock
      refine Task.records_bind ((ih (idx + 1)).mono ?_)
      intro log r w' hlog
      obtain ⟨rfl, rfl⟩ := hlog
      exact Task.records_pure ⟨by rw [linesAt, hd]; rfl, rfl⟩

section Update

variable {u : UserId} {now : Time} {order : List Nat} {expiring : List LeasedHost} {tx : RegistryTx}

/-- The rows that the update hits are the user's expiring ones: their ids were read a moment ago. -/
theorem sel_extendHostsLease (hc : Clean p w) (huser : ∃ row, w.user u = some row)
    (hrun : Select.run order (w.db.view ⟨p, tx.no⟩)
      (.getExpiringHostsForUser u (now + EXPIRATION_NOTIFY_WINDOW)) = .ok expiring)
    {id : HostId} {r : HostRow} (hr : w.host id = some r) (hours : Int32) :
    (HostWrite.extendHostsLease (expiring.map (·.id)) hours).sel id r = pressed u now r := by
  have hdec := decoded_getExpiringHostsForUser hrun
  rw [Bool.eq_iff_iff]
  simp only [HostWrite.sel, pressed, Bool.and_eq_true, decide_eq_true_eq]
  constructor
  · intro hyp
    obtain ⟨hid, -⟩ := hyp
    obtain ⟨l, hl, rfl⟩ := List.mem_map.mp hid
    obtain ⟨r', hr', hheld, -⟩ := hdec.sound l hl
    rw [hc.view, hr] at hr'
    cases hr'
    exact hheld
  · intro hyp
    obtain ⟨row, hrow⟩ := huser
    have hview : ({ row with id := u } : User) ∈ (w.db.view ⟨p, tx.no⟩).users :=
      mem_view_users.mpr ((hc.view_user tx u).trans hrow)
    obtain ⟨l, hl, hid, -⟩ := hdec.complete id r _ ((hc.view tx id).trans hr) hyp hyp.1 hview
    obtain ⟨d, hd, -⟩ := expiresBefore_iff.mp hyp.2
    exact ⟨List.mem_map.mpr ⟨l, hl, hid⟩, by simp [hd]⟩

/-- The ids that were read are those of the user's expiring hosts. -/
theorem mem_expiring (hc : Clean p w) (huser : ∃ row, w.user u = some row)
    (hrun : Select.run order (w.db.view ⟨p, tx.no⟩)
      (.getExpiringHostsForUser u (now + EXPIRATION_NOTIFY_WINDOW)) = .ok expiring)
    {id : HostId} {r : HostRow} (hr : w.host id = some r) :
    id ∈ expiring.map (·.id) ↔ pressed u now r = true := by
  rw [← sel_extendHostsLease hc huser hrun hr 0]
  constructor
  · intro hid
    obtain ⟨l, hl, rfl⟩ := List.mem_map.mp hid
    obtain ⟨r', hr', ⟨-, hexp⟩, -⟩ := (decoded_getExpiringHostsForUser hrun).sound l hl
    rw [hc.view, hr] at hr'
    cases hr'
    obtain ⟨d, hd, -⟩ := expiresBefore_iff.mp hexp
    exact decide_eq_true ⟨hid, by simp [hd]⟩
  · exact fun h => (of_decide_eq_true h).1

/-- The rows as the transaction sees them after the update, and as it reads them back. -/
theorem rows_extended (tx : RegistryTx) {hours : Int32} {hosts : List Host} (hc : Clean p w)
    (huser : ∃ row, w.user u = some row)
    (hrun : Select.run order (w.db.view ⟨p, tx.no⟩)
      (.getExpiringHostsForUser u (now + EXPIRATION_NOTIFY_WINDOW)) = .ok expiring)
    (ha : Acts p w (.execute tx (.hosts (.extendHostsLease (expiring.map (·.id)) hours)))
      (.ok ()) w')
    {order' : List Nat} (hread : Select.run order' (w'.db.view ⟨p, tx.no⟩)
      (.getHosts (expiring.map (·.id))) = .ok hosts) :
    (∀ id, (w'.db.hosts.cell id).view ⟨p, tx.no⟩ =
      (w.host id).map fun r => if pressed u now r then r.extended hours else r) ∧
    ∀ h, h ∈ hosts ↔ ∃ r, w.host h.id = some r ∧ pressed u now r = true ∧
      h.toHostRow = r.extended hours := by
  have hrows : ∀ id, (w'.db.hosts.cell id).view ⟨p, tx.no⟩ =
      (w.host id).map fun r => if pressed u now r then r.extended hours else r := by
    intro id
    refine (ha.view_updateHosts hc id).trans (Option.map_congr fun r hr => ?_)
    rw [sel_extendHostsLease hc huser hrun hr hours]
    rfl
  -- The read afterwards is by the same ids, so it finds the rows that were extended.
  refine ⟨hrows, fun h => ?_⟩
  rw [mem_getHosts hread, hrows h.id, Option.map_eq_some_iff]
  constructor
  · intro hyp
    obtain ⟨hid, r, hr, hrow⟩ := hyp
    have hpressed := (mem_expiring hc huser hrun hr).mp hid
    exact ⟨r, hr, hpressed, by rw [← hrow, if_pos hpressed]⟩
  · intro hyp
    obtain ⟨r, hr, hpressed, hrow⟩ := hyp
    exact ⟨(mem_expiring hc huser hrun hr).mpr hpressed, r, hr, by rw [if_pos hpressed, hrow]⟩

end Update

/-- **A press of the button that runs alone.** -/
theorem records_extendUserHosts (tgHandle : String) (hours : Int32) {now : Time}
    (hclock : s.clock = some now) (hc : Clean p w) :
    (extendUserHosts tgHandle hours).Records s p w fun _ r w' =>
      Presses tgHandle hours now w r w' ∧ Over p w w' := by
  have hdone : ∀ {e : AnyError} {w₁ : World} {tx : RegistryTx}, Uncommitted p tx w w₁ →
      Presses tgHandle hours now w (.err e) { w₁ with db := w₁.db.rollback ⟨p, tx.no⟩ } ∧
        Over p w { w₁ with db := w₁.db.rollback ⟨p, tx.no⟩ } :=
    fun h => ⟨.failed _ _ h.sameHosts_drop, h.drop⟩
  set w₀ : World := { w with nextTx := w.nextTx + 1 }
  have hbegun : Uncommitted p ⟨w.nextTx⟩ w w₀ := .begun hc _ _
  have hc₀ : Clean p w₀ := ⟨hc.hosts, hc.users⟩
  -- Whatever fails is answered with an error, and the transaction is dropped (`hdone`).
  refine Task.records_withTx ?_ fun _ =>
    ⟨.failed _ _ fun _ => rfl, fun _ => rfl, hc, fun _ _ hq => hq⟩
  refine Task.records_bind (Task.records_mapErr (Task.records_fetch (fun order => ?_) fun _ =>
    hdone hbegun))
  cases hfound : Select.run order (w₀.db.view ⟨p, w.nextTx⟩) (.getUserByTgHandle tgHandle) with
  | error e => exact hdone hbegun
  | ok found =>
    dsimp only [Exit.ofExcept]
    cases found with
    | none => exact Task.records_throw (hdone hbegun)
    | some user =>
      have hmem := mem_of_head?_arrange (Except.ok.inj hfound)
      obtain ⟨hview, hcarries⟩ := List.mem_filter.mp hmem
      have huser : w.user user.id = some user.toUserRow :=
        (hc₀.view_user ⟨w.nextTx⟩ user.id).symm.trans (mem_view_users.mp hview)
      -- The user is the one of the account. Then the clock, and the hosts about to expire.
      refine Task.records_bind (Task.records_utcNow fun now' hnow => ?_)
      obtain rfl : now' = now := hnow now hclock
      refine Task.records_bind (Task.records_mapErr (Task.records_fetch (fun order => ?_) fun _ =>
        hdone hbegun))
      cases hrun : Select.run order (w₀.db.view ⟨p, w.nextTx⟩)
          (.getExpiringHostsForUser user.id (now' + EXPIRATION_NOTIFY_WINDOW)) with
      | error e => exact hdone hbegun
      | ok expiring =>
        change List LeasedHost at expiring
        dsimp only [Exit.ofExcept]
        refine Task.records_ite (fun _ => ?_) fun _ => ?_
        · exact Task.records_pure ⟨.noExpiringHosts _ hbegun.sameHosts_drop, hbegun.drop⟩
        -- There is a host to extend: the update by id, its rows read again, and the commit.
        refine Task.records_bind (Task.records_mapErr (Task.records_execute
          (fun uuid a db hexecute => ?_) fun _ => hdone hbegun))
        have hacts := @acts_of_updateHosts p _ ⟨w.nextTx⟩ _ _ _ hexecute
        have hupdated := hbegun.updateHosts hacts
        cases a with
        | error e => exact hdone hupdated
        | ok a =>
          dsimp only [Exit.ofExcept]
          refine Task.records_bind (Task.records_mapErr (Task.records_fetch (fun order => ?_)
            fun _ => hdone hupdated))
          cases hread : Select.run order (db.view ⟨p, w.nextTx⟩)
              (.getHosts (expiring.map (·.id))) with
          | error e => exact hdone hupdated
          | ok hosts =>
            dsimp only [Exit.ofExcept]
            refine Task.records_bind (Task.records_mapErr (Task.records_commit ?_ fun _ => ?_))
            · refine Task.records_bind ((records_updatedLines hclock hosts 1).mono ?_)
              intro log r w' hlog
              obtain ⟨rfl, rfl⟩ := hlog
              obtain ⟨hover, hcommitted⟩ := hupdated.commit
              obtain ⟨hrows, hlisted⟩ := rows_extended ⟨w.nextTx⟩ hc₀ ⟨_, huser⟩ hrun hacts hread
              exact Task.records_pure ⟨.extended _ user.id user.toUserRow hosts huser
                (of_decide_eq_true hcarries) (fun id => (hcommitted id).trans (hrows id)) hlisted,
                hover⟩
            · exact hdone hupdated.rollback

end Tachikoma
