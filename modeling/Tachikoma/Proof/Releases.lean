import Tachikoma.Proof.LeaseExact

/-!
# Giving hosts back

`free` and `free_all` are one `UPDATE` each, and both ask for the holder in their `WHERE`. So what a
release does to a row depends on nothing but the row: a host that the caller holds is free
afterwards, and any other row is as it was. A whole sequence of releases therefore frees a host if
**one of them** names it and is its holder's (`Tables.releases_hosts`), in whatever order they come.
-/

set_option autoImplicit false

namespace Tachikoma

open Interleaving Versioned

/-- What a user gives back: some hosts, or all. -/
inductive Release where
  | free (hostsIds : List HostId)
  | freeAll
  deriving DecidableEq

namespace Release

def task (u : UserId) : Release → Task HostError Unit
  | .free hostsIds => HostsService.free u hostsIds
  | .freeAll => HostsService.freeAll u

def write (u : UserId) : Release → HostWrite
  | .free hostsIds => .freeHostsForUser hostsIds u
  | .freeAll => .freeAll u

theorem write_grantee (u : UserId) (x : Release) : (x.write u).grantee = none := by cases x <;> rfl

theorem write_set (u : UserId) (x : Release) (r : HostRow) :
    (x.write u).set r = { r with userId := none, leasedUntil := none } := by cases x <;> rfl

/-- A release hits rows of its user only. -/
theorem userId_of_sel {u : UserId} {x : Release} {id : HostId} {r : HostRow}
    (h : (x.write u).sel id r = true) : r.userId = some u := by
  cases x with
  | free hostsIds => exact (of_decide_eq_true h).2
  | freeAll => exact of_decide_eq_true h

end Release

/-- A host that nobody holds any more. -/
def Host.freed (h : Host) : Host := { h with userId := none, leasedUntil := none }

/-- One of the releases frees the host. -/
def releasedBy (l : List (UserId × Release)) (h : Host) : Bool :=
  l.any fun x => (x.2.write x.1).sel h.id h.toHostRow

theorem not_releasedBy_freed (l : List (UserId × Release)) (h : Host) :
    releasedBy l h.freed = false := by
  rw [releasedBy, List.any_eq_false]
  intro x _ hsel
  cases Release.userId_of_sel hsel

namespace Tables

/-- Tables that differ in their hosts only are equal if these are. -/
theorem ext_hosts {t t' : Tables} (hhosts : t.hosts = t'.hosts) (husers : t.users = t'.users)
    (hgroups : t.groups = t'.groups) (hlimits : t.leaseLimits = t'.leaseLimits)
    (hnext : t.nextUserId = t'.nextUserId) : t = t' := by
  cases t
  cases t'
  simp only at hhosts husers hgroups hlimits hnext
  subst hhosts husers hgroups hlimits hnext
  rfl

/-- The tables after a release. -/
def release (t : Tables) (x : UserId × Release) : Tables :=
  t.update (x.2.write x.1) (grantable_of_grantee (x.2.write_grantee x.1))

/-- The tables after releases, one after the other. -/
def releases (t : Tables) (l : List (UserId × Release)) : Tables := l.foldl release t

theorem release_hosts (t : Tables) (x : UserId × Release) :
    (t.release x).hosts =
      t.hosts.map fun h => if (x.2.write x.1).sel h.id h.toHostRow then h.freed else h := by
  refine List.map_congr_left fun h _ => ?_
  unfold HostWrite.apply
  rw [Release.write_set]
  rfl

/-- **What releases come to**: a host is free if one of them frees it, and as it was if none
    does. -/
theorem releases_hosts (t : Tables) (l : List (UserId × Release)) :
    (t.releases l).hosts = t.hosts.map fun h => if releasedBy l h then h.freed else h := by
  induction l generalizing t with
  | nil => simp [releases, releasedBy]
  | cons x l ih =>
    show ((t.release x).releases l).hosts = _
    rw [ih, release_hosts, List.map_map]
    refine List.map_congr_left fun h _ => ?_
    simp only [Function.comp_apply]
    have hcons : releasedBy (x :: l) h =
        ((x.2.write x.1).sel h.id h.toHostRow || releasedBy l h) := List.any_cons
    rw [hcons]
    cases hsel : (x.2.write x.1).sel h.id h.toHostRow with
    | true =>
      -- A freed row has no holder, so no other release hits it.
      simp only [if_true, Bool.true_or, not_releasedBy_freed, Bool.false_eq_true, if_false]
    | false => simp only [Bool.false_or, Bool.false_eq_true, if_false]

theorem releases_rest (t : Tables) (l : List (UserId × Release)) :
    (t.releases l).users = t.users ∧ (t.releases l).groups = t.groups ∧
      (t.releases l).leaseLimits = t.leaseLimits ∧ (t.releases l).nextUserId = t.nextUserId := by
  induction l generalizing t with
  | nil => exact ⟨rfl, rfl, rfl, rfl⟩
  | cons x l ih => exact ih (t.release x)

/-- Releases that free the same hosts lead to the same tables. -/
theorem releases_congr {t : Tables} {l l' : List (UserId × Release)}
    (h : ∀ host ∈ t.hosts, releasedBy l host = releasedBy l' host) :
    t.releases l = t.releases l' := by
  obtain ⟨husers, hgroups, hlimits, hnext⟩ := t.releases_rest l
  obtain ⟨husers', hgroups', hlimits', hnext'⟩ := t.releases_rest l'
  refine ext_hosts ?_ (husers.trans husers'.symm) (hgroups.trans hgroups'.symm)
    (hlimits.trans hlimits'.symm) (hnext.trans hnext'.symm)
  rw [releases_hosts, releases_hosts]
  exact List.map_congr_left fun host hhost => by rw [h host hhost]

end Tables

/-! ## Running them -/

/-- Releases, one after the other: each runs alone and succeeds. -/
def Releases (p : Pid) : List (UserId × Release) → World → World → Prop
  | [], w, w' => w' = w
  | x :: l, w, w' => ∃ w₁, (x.2.task x.1).Ends p w (.ok ()) w₁ ∧ Releases p l w₁ w'

section Runs

variable {t : Tables} {p : Pid} {s : Setting}

/-- A release comes to its update, or to a failure that changes nothing. -/
theorem achieves_release (x : UserId × Release) (n : Nat) :
    (x.2.task x.1).Achieves s p ⟨t.db, n⟩ fun r w' =>
      (r = .ok () ∧ w'.db = (t.release x).db) ∨ (s.faults = true ∧ r ≠ .ok () ∧ w'.db = t.db) := by
  obtain ⟨u, x⟩ := x
  have htask : ∀ {f : SqlxError → HostError}, Task.Achieves s (withTx f fun tx => do
      (tx.execute (.hosts (x.write u))).mapErr f
      tx.commit.mapErr f) p ⟨t.db, n⟩ fun r w' =>
        (r = .ok () ∧ w'.db = (t.release (u, x)).db) ∨
          (s.faults = true ∧ r ≠ .ok () ∧ w'.db = t.db) := by
    intro f
    refine Task.achieves_withTx ?_ fun hf => .inr ⟨hf, nofun, rfl⟩
    refine Task.achieves_bind (Task.achieves_mapErr (achieves_update (t := t) ?_ (fun hno => ?_)
      fun hf => .inr ⟨hf, nofun, Tables.db_rollback⟩))
    · intro hx db _ hcommit hrollback
      exact Task.achieves_mapErr (achieves_commitUpdate hcommit hrollback
        (.inl ⟨rfl, Tables.db_rollback⟩) fun hf => .inr ⟨hf, nofun, Tables.db_rollback⟩)
    · exact absurd (Tables.grantable_of_grantee (x.write_grantee u)) hno
  cases x with
  | free hostsIds => exact htask
  | freeAll => exact htask

theorem releases_db {l : List (UserId × Release)} {w w' : World} (hw : w.db = t.db)
    (h : Releases p l w w') : w'.db = (t.releases l).db := by
  induction l generalizing t w with
  | nil =>
    rw [show w' = w from h]
    exact hw
  | cons x l ih =>
    obtain ⟨w₁, hends, hrest⟩ := h
    obtain ⟨db, n⟩ := w
    subst hw
    rcases (achieves_release x n).of_ends hends with ⟨-, hdb⟩ | ⟨-, hno, -⟩
    · exact ih hdb hrest
    · exact absurd rfl hno

theorem exists_releases (l : List (UserId × Release)) {w : World} (hw : w.db = t.db) :
    ∃ w', Releases p l w w' := by
  induction l generalizing t w with
  | nil => exact ⟨w, rfl⟩
  | cons x l ih =>
    obtain ⟨db, n⟩ := w
    subst hw
    obtain ⟨r, w₁, hends, ⟨rfl, hdb⟩ | ⟨hf, -⟩⟩ :=
      (achieves_release (s := .calm 0) (t := t) (p := p) x n).exists_ends
    · obtain ⟨w', hrest⟩ := ih hdb
      exact ⟨w', w₁, hends, hrest⟩
    · cases hf

end Runs

/-! ## Among other tasks -/

/-- The user whose hosts a call gives back. -/
def Call.releaser : Call → Option UserId
  | .free userId _ => some userId
  | .freeAll userId => some userId
  | _ => none

/-- The effect changes rows that the user holds, and no others; rows that others are writing are
    among those. -/
def ChangesOwn (u : UserId) (w w' : World) : Prop :=
  ∀ id, w'.db.hosts.cell id ≠ w.db.hosts.cell id → ∃ r, w.host id = some r ∧ r.userId = some u

/-- What the task has pending are rows that the user holds. -/
def Releasing (u : UserId) (p : Pid) (w : World) : Prop :=
  w.db.hosts.Holds fun x id _ => x.pid = p → ∃ r, w.host id = some r ∧ r.userId = some u

section Effects

variable {u : UserId} {p q : Pid} {w w' : World} {e : Effect} {r : e.Res}

/-- Nobody else commits over what the task has pending. -/
theorem Acts.releasing_of_ne (h : Acts q w e r w') (hq : q ≠ p) (hA : Releasing u p w) :
    Releasing u p w' := by
  intro id x v hp hx
  have hpending : ∃ r, w.host id = some r ∧ r.userId = some u :=
    h.hosts_holds hA (fun _ _ _ _ _ _ _ hx => absurd hx hq) id x v hp hx
  have hhost : w'.host id = w.host id := by
    by_cases he : ∃ tx, e = .commit tx
    · obtain ⟨tx, rfl⟩ := he
      cases h with
      | quiet _ _ _ hcommit => exact absurd rfl (hcommit tx)
      | commitFails => simp [World.host, Db.rollback]
      | commit =>
        have hcell : (w.db.hosts.cell id).commit ⟨q, tx.no⟩ = w.db.hosts.cell id := by
          refine Cell.commit_of_pending (v := (x, v)) ?_
          rw [← Table.cell_commit]
          exact hp
        rw [World.host, World.host]
        simp only [Db.commit, Table.cell_commit, hcell]
    · exact h.host_of_ne_commit (not_exists.mp he) id
  rw [hhost]
  exact hpending

theorem releasing_rollback (hA : Releasing u p w) {no : Nat} :
    Releasing u p { w with db := w.db.rollback ⟨p, no⟩ } ∧
      ChangesOwn u w { w with db := w.db.rollback ⟨p, no⟩ } := by
  refine ⟨fun id x v hp hx => ?_, fun id hne => ?_⟩
  · have hhost : ({ w with db := w.db.rollback ⟨p, no⟩ } : World).host id = w.host id := by
      simp [World.host, Db.rollback]
    rw [hhost]
    exact (hA.rollback ⟨p, no⟩ id x v hp).2 hx
  · change (w.db.hosts.rollback ⟨p, no⟩).cell id ≠ _ at hne
    rw [Table.cell_rollback] at hne
    obtain ⟨v, hv⟩ := Cell.held_of_rollback_ne hne
    exact hA id _ v hv rfl

/-- The task's own effects change rows of the user, if its updates pick such rows only. -/
theorem Acts.releasing (h : Acts p w e r w') (hA : Releasing u p w)
    (hsel : ∀ tx x id row, e = .execute tx (.hosts x) → x.sel id row = true →
      row.userId = some u) : Releasing u p w' ∧ ChangesOwn u w w' := by
  cases h with
  | quiet _ _ _ _ _ _ hhosts =>
    refine ⟨?_, fun id hne => absurd (by rw [hhosts]) hne⟩
    unfold Releasing World.host
    rw [hhosts]
    exact hA
  | executeFails => exact ⟨hA, fun id hne => absurd rfl hne⟩
  | setUserTgHandle => exact ⟨hA, fun id hne => absurd rfl hne⟩
  | addUser => exact ⟨hA, fun id hne => absurd rfl hne⟩
  | updateHosts tx x t hupdate =>
    -- A row that is hit is a committed one, or one that this task has pending; both are of `u`.
    have hhit : ∀ id row, (w.db.hosts.cell id).view ⟨p, tx.no⟩ = some row → x.sel id row = true →
        ∃ r, w.host id = some r ∧ r.userId = some u := by
      intro id row hrow hpick
      rcases Cell.view_cases hrow with hrow | ⟨v, hv⟩
      · exact ⟨row, hrow, hsel tx x id row rfl hpick⟩
      · exact hA id _ v hv rfl
    have hhost : ∀ id, ({ w with db := { w.db with hosts := t } } : World).host id = w.host id := by
      intro id
      simp only [World.host, Table.cell_update hupdate, Cell.write_committed]
    refine ⟨?_, fun id hne => ?_⟩
    · unfold Releasing
      simp only [hhost]
      exact hA.update hupdate fun id row hrow hpick _ => hhit id row hrow hpick
    · change t.cell id ≠ _ at hne
      rw [Table.cell_update hupdate] at hne
      obtain ⟨row, hrow, hpick⟩ := Cell.view_of_write_ne hne
      exact hhit id row hrow hpick
  | commit tx =>
    refine ⟨fun id x v hp hx => ?_, fun id hne => ?_⟩
    · have hp : ((w.db.hosts.cell id).commit ⟨p, tx.no⟩).pending = some (x, v) := by
        rw [← Table.cell_commit]
        exact hp
      have hcell := Cell.commit_of_pending hp
      rw [hcell] at hp
      rw [World.host]
      simp only [Db.commit, Table.cell_commit, hcell]
      exact hA id x v hp hx
    · change (w.db.hosts.commit ⟨p, tx.no⟩).cell id ≠ _ at hne
      rw [Table.cell_commit] at hne
      obtain ⟨v, hv⟩ := Cell.held_of_commit_ne hne
      exact hA id _ v hv rfl
  | commitFails tx => exact releasing_rollback hA
  | drop tx => exact releasing_rollback hA

end Effects

/-- **A release changes rows of its user only**, whatever runs beside it. -/
theorem changesOwn_of_run {t : Tables} {timer : ReleaseTimer} {c : System}
    (hrun : machine.Run (Machine.Calling proper) (t.systemWith timer) c) :
    CallsDo (fun κ _ _ _ w w' => ∀ u, κ.releaser = some u → ChangesOwn u w w') c.hist.trace := by
  refine callsDo_of_run (fun κ p w => ∀ u, κ.releaser = some u → Releasing u p w) ?_ ?_ ?_ hrun
  · intro κ p w hclean u _
    exact hclean.hosts.mono fun _ _ _ hne hp => absurd hp hne
  · intro κ p q w e r w' hq hacts hA u hu
    exact hacts.releasing_of_ne hq (hA u hu)
  · intro κ p w e r w' _ he hacts hA
    have hown : ∀ u, κ.releaser = some u → Releasing u p w' ∧ ChangesOwn u w w' := by
      intro u hu
      refine hacts.releasing (hA u hu) fun tx x id row hx hsel => ?_
      have hwrites : κ.writes (.hosts x) := he tx _ hx
      cases κ with
      | free userId hostsIds =>
        cases hu
        cases hwrites
        exact (of_decide_eq_true hsel).2
      | freeAll userId =>
        cases hu
        cases hwrites
        exact of_decide_eq_true hsel
      | _ => cases hu
    exact ⟨fun u hu => (hown u hu).1, fun u hu => (hown u hu).2⟩

/-! ## Exactness -/

/-- What releases do to settled tables, with nobody else running. -/
structure ReleasesExact (t : Tables) (p : Pid) : Prop where
  /-- Any releases succeed if nothing fails. -/
  succeed : ∀ l, ∃ w', Releases p l t.world w'
  /-- `free` frees the hosts that are named and held. -/
  frees : ∀ u ids w', Releases p [(u, .free ids)] t.world w' →
    w'.db = { t.db with hosts := w'.db.hosts } ∧ ∀ id, w'.host id = (t.world.host id).map fun r =>
      if id ∈ ids ∧ r.userId = some u then { r with userId := none, leasedUntil := none } else r
  all : ∀ u w₁ w₂, Releases p [(u, .freeAll)] t.world w₁ →
    Releases p [(u, .free ((t.hostsOf u).map (·.id)))] t.world w₂ → w₁.db = w₂.db
  idempotent : ∀ x w₁ w₂, Releases p [x] t.world w₁ → Releases p [x, x] t.world w₂ → w₁.db = w₂.db
  append : ∀ u a b w₁ w₂, Releases p [(u, .free a), (u, .free b)] t.world w₁ →
    Releases p [(u, .free (a ++ b))] t.world w₂ → w₁.db = w₂.db
  /-- The order of releases, of whatever users, does not matter. -/
  order : ∀ l l', l.Perm l' → ∀ w₁ w₂, Releases p l t.world w₁ → Releases p l' t.world w₂ →
    w₁.db = w₂.db
  /-- A release that fails changes nothing. -/
  failed : ∀ (x : UserId × Release) r w', (x.2.task x.1).Ends p t.world r w' → r ≠ .ok () →
    w'.db = t.db

theorem Tables.releasesExact (t : Tables) (p : Pid) : ReleasesExact t p := by
  have hsame : ∀ {l l' : List (UserId × Release)} {w₁ w₂ : World}, Releases p l t.world w₁ →
      Releases p l' t.world w₂ → (∀ h ∈ t.hosts, releasedBy l h = releasedBy l' h) →
      w₁.db = w₂.db := by
    intro l l' w₁ w₂ h₁ h₂ heq
    rw [releases_db rfl h₁, releases_db rfl h₂, Tables.releases_congr heq]
  refine ⟨fun l => exists_releases l rfl, fun u ids w' h => ?_, fun u w₁ w₂ h₁ h₂ => ?_,
    fun x w₁ w₂ h₁ h₂ => ?_, fun u a b w₁ w₂ h₁ h₂ => ?_, fun l l' hperm w₁ w₂ h₁ h₂ => ?_, ?_⟩
  · have hdb : w'.db = (t.release (u, .free ids)).db := releases_db rfl h
    refine ⟨by rw [hdb]; rfl, fun id => ?_⟩
    rw [Tables.host_update (w := t.world) rfl hdb]
    simp only [Release.write, HostWrite.sel, HostWrite.set, decide_eq_true_eq]
  · refine hsame h₁ h₂ fun h hh => ?_
    -- A host that the user holds is one of the user's.
    have hmem : h.id ∈ (t.hostsOf u).map (·.id) ∧ h.userId = some u ↔ h.userId = some u := by
      refine ⟨fun hand => hand.2, fun hu => ⟨?_, hu⟩⟩
      exact List.mem_map_of_mem (Tables.mem_hostsOf.mpr ⟨hh, hu⟩)
    simp only [releasedBy, List.any_cons, List.any_nil, Release.write, HostWrite.sel, hmem]
  · refine hsame h₁ h₂ fun h _ => ?_
    simp only [releasedBy, List.any_cons, List.any_nil, Bool.or_false, Bool.or_self]
  · refine hsame h₁ h₂ fun h _ => ?_
    simp only [releasedBy, List.any_cons, List.any_nil, Release.write, HostWrite.sel, Bool.or_false,
      List.mem_append, or_and_right, Bool.decide_or]
  · exact hsame h₁ h₂ fun h _ => hperm.any_eq
  · intro x r w' hends hno
    rcases (achieves_release x 0).of_ends hends with ⟨hok, -⟩ | ⟨-, -, hdb⟩
    · exact absurd hok hno
    · exact hdb

/-- **Releasing is exact, isolated and independent of the order**, alone and among other tasks. -/
theorem releases_exact (t : Tables) :
    (∀ p, ReleasesExact t p) ∧ ∀ timer c,
      machine.Run (Machine.Calling proper) (t.systemWith timer) c →
        CallsDo (fun κ _ _ _ w w' => ∀ u, κ.releaser = some u → ChangesOwn u w w') c.hist.trace :=
  ⟨t.releasesExact, fun _ _ hrun => changesOwn_of_run hrun⟩

end Tachikoma
