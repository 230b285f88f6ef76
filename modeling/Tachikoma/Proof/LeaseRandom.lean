import Tachikoma.Proof.Gap

/-!
# Random leases exclude one another

`lease_random` picks a free host in one statement and writes it in another that does not ask again
whether it is free. Calls exclude one another as long as none of them commits a lease of a host that
somebody else got in the meantime (`StillFree`). The row lock does not do this: it makes the second
writer wait for the first one's commit, and then the second one writes.
-/

set_option autoImplicit false

namespace Tachikoma

open Interleaving Versioned Unordered

def Call.isRandom : Call → Bool
  | .leaseRandom .. => true
  | _ => false

/-- The host is, for everybody, the user's. -/
def Holder (u : UserId) (id : HostId) (h : History) : Prop :=
  ∃ r, h.state.host id = some r ∧ r.userId = some u

/-- What a call has returned: the user and the host leased, if it succeeded. -/
def granted : Prog Effect Effect.Res Local → Option (UserId × HostId)
  | .ret (.leasedRandom u (.ok l)) => some (u, l.id)
  | _ => none

theorem granted_eq_some {x : Prog Effect Effect.Res Local} {u : UserId} {id : HostId}
    (h : granted x = some (u, id)) : ∃ l, x = .ret (.leasedRandom u (.ok l)) ∧ l.id = id := by
  unfold granted at h
  split at h
  · rename_i v l
    obtain ⟨rfl, rfl⟩ := Prod.mk.inj (Option.some.inj h)
    exact ⟨l, rfl, rfl⟩
  · cases h

/-- Of the calls that have ended (one for each task), those that succeeded have their user as the
    host's holder, and no host was returned to two users. -/
structure Exclusive (c : System) : Prop where
  holder : ∀ p u id, granted (c.threads p).prog = some (u, id) → Holder u id c.hist
  once : ∀ p q u v id, granted (c.threads p).prog = some (u, id) →
    granted (c.threads q).prog = some (v, id) → u = v

/-- A host that is leased by a commit was free until then, or the same user's. -/
def StillFree (h : History) (ev : Ev) : Prop :=
  ∀ id ∈ h.state.hostIds, ∀ r ∈ committedRow id ev, ∀ old ∈ h.state.host id,
    old.userId = none ∨ old.userId = r.userId

instance (h : History) (ev : Ev) : Decidable (StillFree h ev) := by
  unfold StillFree
  infer_instance

/-- The steps of runs of random leases whose gaps are harmless. -/
def RandomCond (h : History) (ev : Ev) : Prop :=
  Machine.Calling (fun _ κ => κ.isRandom = true) h ev ∧ StillFree h ev

instance (h : History) (ev : Ev) : Decidable (RandomCond h ev) :=
  inferInstanceAs (Decidable (_ ∧ _))

/-- A holder stays the holder. -/
theorem Holder.did {u : UserId} {id : HostId} {h : History} (hh : Holder u id h)
    (hw : Written h.state) {p : Pid} {n : Nat} {e : Effect} {r : e.Res} {w' : World}
    (hacts : Acts p h.state e r w') (hc : StillFree h (.did p n e r h.state w')) :
    Holder u id (h.push (.did p n e r h.state w')) := by
  obtain ⟨row, hrow, hu⟩ := hh
  have heq := hacts.host_eq hw n id
  cases hnew : committedRow id (.did p n e r h.state w') with
  | none =>
    rw [hnew, Option.none_or] at heq
    exact ⟨row, heq.trans hrow, hu⟩
  | some new =>
    rw [hnew, Option.some_or] at heq
    refine ⟨new, heq, ?_⟩
    rcases hc id (World.mem_hostIds hrow) new hnew row hrow with hnone | hsame
    · rw [hnone] at hu; cases hu
    · rw [← hsame, hu]

theorem Holder.stable {p : Pid} {u : UserId} {id : HostId} :
    machine.Stable RandomCond (fun h => Written h.state) p (Holder u id) := by
  intro h ev hw hh _ hl hc
  cases ev with
  | called q n κ => exact hh
  | did q n e r w w' =>
    obtain ⟨rfl, hacts⟩ := acts_of_legal hl
    exact hh.did hw hacts hc.2

/-- The transaction has the host pending for the user. -/
def Pending (p : Pid) (tx : RegistryTx) (u : UserId) (id : HostId) (h : History) : Prop :=
  ∃ r, (h.state.db.hosts.cell id).pending = some (⟨p, tx.no⟩, some r) ∧ r.userId = some u

theorem Pending.stable {Cond : History → Ev → Prop} {Inv : History → Prop} {p : Pid}
    {tx : RegistryTx} {u : UserId} {id : HostId} :
    machine.Stable Cond Inv p (Pending p tx u id) := by
  rintro h ev - ⟨r, hr, hu⟩ hne hl -
  cases ev with
  | called q n κ => exact ⟨r, hr, hu⟩
  | did q n e rr w w' =>
    obtain ⟨rfl, hacts⟩ := acts_of_legal hl
    exact ⟨r, hacts.pending_of_ne hne rfl hr, hu⟩

/-- A row does not vanish. -/
theorem stable_row {Cond : History → Ev → Prop} {p : Pid} {id : HostId} :
    machine.Stable Cond (fun h => Written h.state) p fun h => ∃ r, h.state.host id = some r := by
  rintro h ev hw ⟨r, hr⟩ - hl -
  cases ev with
  | called q n κ => exact ⟨r, hr⟩
  | did q n e rr w w' =>
    obtain ⟨rfl, hacts⟩ := acts_of_legal hl
    have heq := hacts.host_eq hw n id
    rw [hr] at heq
    cases hc : committedRow id (.did q n e rr h.state w') with
    | none => exact ⟨r, by rw [hc] at heq; exact heq⟩
    | some new => exact ⟨new, by rw [hc] at heq; exact heq⟩

/-- The update finds the host that was picked and marks it. -/
theorem pending_of_update {p : Pid} {tx : RegistryTx} {u : UserId} {id : HostId} {t : Time}
    {h : History} {w' : World} {n : Nat} (hclean : Clean p h.state)
    (hrow : ∃ r, h.state.host id = some r)
    (hacts : Acts p h.state (.execute tx (.hosts (.leaseHosts u [id] t))) (.ok ()) w') :
    Pending p tx u id (h.push (.did p n (.execute tx (.hosts (.leaseHosts u [id] t))) (.ok ())
      h.state w')) := by
  obtain ⟨r, hr⟩ := hrow
  cases hacts with
  | quiet _ _ _ _ hexecute => exact absurd rfl (hexecute _ _)
  | updateHosts _ _ tbl hupdate =>
    refine ⟨(HostWrite.leaseHosts u [id] t).set r, ?_, rfl⟩
    have hview := (hclean.view tx id).trans hr
    change (tbl.cell id).pending = _
    rw [Table.cell_update hupdate, Cell.write, hview]
    simp [HostWrite.sel]

theorem leaseRandom_sketch (self : HostsService) (u : UserId) (userGroups : List String)
    (leaseFor : TimeDelta) (groupId : GroupId) (p : Pid) (n : Nat) :
    machine.Sketch RandomCond (fun h => Written h.state) p n
      (onOk fun l h => Holder u (l : LeasedHost).id h)
      (self.leaseRandom u userGroups leaseFor groupId) fun h => Clean p h.state := by
  refine Task.sketch_withTx (fun _ h => Clean p h.state)
    (fun _ => onOk fun l h => Holder u (l : LeasedHost).id h) (fun _ => stable_clean)
    (stable_exits (fun _ => Holder.stable) .true .true) ?_ ?_ ?_ ?_
  · exact fun h tx w' hw hc ha _ => ⟨ha.written hw, ha.clean (by simp) hc⟩
  · exact fun h err w' hw _ ha _ => ⟨ha.written hw, trivial⟩
  · intro tx
    refine Task.sketch_bind (B := fun _ h => Clean p h.state) (Task.sketch_mapErr ?_)
      fun limit => ?_
    · have hemits : Prog.Emits (Writes fun _ => False) (self.getLeaseLimit tx userGroups) :=
        writes_of_scope (self.emits_getLeaseLimit userGroups)
      exact sketch_kept hemits stable_clean fun h e env r w' he hw hc ha _ =>
        ⟨(acts_of_act ha).written hw, (acts_of_act ha).clean (fun tx x hx => he tx x hx) hc⟩
    refine Task.sketch_bind (B := fun _ h => Clean p h.state) (Task.sketch_mapErr ?_)
      fun leased => ?_
    · exact Task.sketch_fetch (fun _ => stable_clean) .true
        (fun h _ _ hw hc _ _ => ⟨hw, hc⟩) fun h _ hw _ _ => ⟨hw, trivial⟩
    split
    · exact Task.sketch_throw fun _ _ _ => trivial
    -- The picked host has a row, which the update will hit if nobody takes the row away.
    refine Task.sketch_bind (B := fun host h => Clean p h.state ∧
        ∀ x : Host, host = some x → ∃ r, h.state.host x.id = some r) (Task.sketch_mapErr ?_)
        fun host => ?_
    · refine Task.sketch_fetch
        (fun _ => stable_clean.and (.forall fun _ => .imp_const stable_row)) .true ?_
        fun h _ hw _ _ => ⟨hw, trivial⟩
      intro h order host hw hc hrun _
      refine ⟨hw, hc, fun x hx => ⟨x.toHostRow, ?_⟩⟩
      subst hx
      exact (hc.view tx x.id).symm.trans (of_getFirstAvailableGroupHost hrun).1
    split
    · rename_i host
      refine Task.sketch_bind
        (B := fun _ h => Clean p h.state ∧ ∃ r, h.state.host host.id = some r) ?_ fun now => ?_
      · exact Task.sketch_utcNow (fun _ => stable_clean.and stable_row)
          fun h _ hw hA _ => ⟨hw, hA.1, hA.2 host rfl⟩
      refine Task.sketch_bind
        (B := fun _ h => Clean p h.state ∧ ∃ r, h.state.host host.id = some r)
        (Task.sketch_addTimeDelta (fun _ _ _ hA => hA) fun _ _ _ => trivial) fun untill => ?_
      -- From the update on the user is in the pending row, and from the commit on in the committed
      -- one.
      refine Task.sketch_bind (B := fun _ => Pending p tx u host.id) (Task.sketch_mapErr ?_)
        fun _ => ?_
      · refine Task.sketch_execute (fun _ => Pending.stable) .true ?_
          fun h _ w' hw _ ha _ => ⟨ha.written hw, trivial⟩
        intro h a w' hw hA ha _
        cases a
        exact ⟨ha.written hw, pending_of_update hA.1 hA.2 ha⟩
      refine Task.sketch_bind
        (B := fun l h => Pending p tx u host.id h ∧ (l : LeasedHost).id = host.id)
        (Task.sketch_mapErr ?_) fun l => Machine.Sketch.of_fact fun hl => ?_
      · exact Task.sketch_fetch (fun _ => Pending.stable.and .const) .true
          (fun h _ l hw hA hrun _ => ⟨hw, hA, (of_getLeasedHost hrun).1⟩)
          fun h _ hw _ _ => ⟨hw, trivial⟩
      refine Task.sketch_bind (B := fun _ => Holder u l.id) (Task.sketch_mapErr ?_) fun _ =>
        Task.sketch_pure fun _ _ hh => hh
      refine Task.sketch_commit (fun _ => Holder.stable) .true ?_
        fun h _ w' hw _ ha _ => ⟨ha.written hw, trivial⟩
      rintro h w' hw ⟨r, hr, hu⟩ ha -
      refine ⟨ha.written hw, r, ?_, hu⟩
      rw [hl]
      exact (ha.host_eq hw n host.id).trans (by rw [committedRow_commit.mpr hr, Option.some_or])
    · exact Task.sketch_throw fun _ _ _ => trivial
  · intro tx r h w' hw hQ ha _
    refine ⟨ha.written hw, ?_⟩
    cases r with
    | ok l =>
      obtain ⟨row, hrow, hu⟩ := hQ
      exact ⟨row, (ha.host_of_ne_commit (by simp) l.id).trans hrow, hu⟩
    | _ => trivial

/-- **Random leases exclude one another**, in every run whose gaps are harmless. -/
theorem exclusive_of_run (t : Tables) (timer : ReleaseTimer) {c : System}
    (hrun : machine.Run RandomCond (t.systemWith timer) c) : Exclusive c := by
  have hsound := run_sound (fun h => Written h.state)
    (fun _ _ l h => ∀ u x, l = .leasedRandom u (.ok x) → Holder u x.id h) (fun _ _ hc => hc.1)
    (t.hosts_holds _) ?_ (fun _ _ _ => .forall fun _ => .forall fun _ => .imp_const Holder.stable)
    (fun _ _ _ _ _ hw => hw) ?_ hrun
  -- A granted host is held by the user it was granted to, and a row has one holder.
  · have hholder : ∀ p u id, granted (c.threads p).prog = some (u, id) → Holder u id c.hist := by
      intro p u id hp
      obtain ⟨l, hl, rfl⟩ := granted_eq_some hp
      exact hsound.2 p _ hl u l rfl
    refine ⟨hholder, fun p q u v id hp hq => ?_⟩
    obtain ⟨r, hr, hu⟩ := hholder p u id hp
    obtain ⟨r', hr', hv⟩ := hholder q v id hq
    rw [hr] at hr'
    cases hr'
    exact Option.some.inj (hu.symm.trans hv)
  · rintro p l hl u x rfl
    cases p <;> cases hl
  · intro p n κ l hok
    refine ⟨fun h => Clean p h.state, stable_clean, fun _ _ _ _ hc => hc, ?_⟩
    cases κ with
    | leaseRandom self u userGroups leaseFor groupId =>
      rcases Call.body_cases (.leaseRandom self u userGroups leaseFor groupId) l with hb | hb
      · rw [hb]; exact fun _ _ _ => nofun
      · rw [hb]
        refine .bind (leaseRandom_sketch self u userGroups leaseFor groupId p (n + 1)) fun r => ?_
        intro h _ hQ v x hx
        cases hx
        exact hQ
    | _ => cases hok

/-- `alice` and `bob` lease hosts at the same time, and `bob` gets the second one because `alice`'s
    lease is there before `bob` picks. -/
theorem exclusive_of_run_small : ∃ c,
    machine.Run RandomCond ((small none).systemWith .new) c ∧ Exclusive c := by
  obtain ⟨c, hrun, -⟩ := machine.exists_run_of_exec RandomCond ((small none).systemWith .new)
    [.call (.task 0) (.leaseRandom ⟨3⟩ alice.id [] 100 ⟨1⟩),
      .call (.task 1) (.leaseRandom ⟨3⟩ bob.id [] 100 ⟨1⟩),
      .act (.task 0) {}, .act (.task 0) {}, .act (.task 0) {}, .act (.task 0) {},
      .act (.task 1) {}, .act (.task 1) {}, .act (.task 1) {}, .act (.task 0) {},
      .act (.task 0) {}, .act (.task 0) {}, .act (.task 0) {}, .act (.task 1) {},
      .act (.task 1) {}, .act (.task 1) {}, .act (.task 1) {}, .act (.task 1) {},
      .act (.task 0) {}, .act (.task 1) {}]
    (fun c => granted (c.threads (.task 1)).prog == some (bob.id, ⟨2⟩)) (by decide +kernel)
  exact ⟨c, hrun, exclusive_of_run _ _ hrun⟩

/-- `alice` and `bob` pick the same free host, and both are told that it is theirs. -/
theorem not_exclusive : ∃ c,
    machine.Run (Machine.Calling fun _ κ => κ.isRandom = true) ((small none).systemWith .new) c ∧
      ¬ Exclusive c := by
  obtain ⟨c, hrun, hc⟩ := machine.exists_run_of_exec
    (Machine.Calling fun _ κ => κ.isRandom = true) ((small none).systemWith .new)
    [.call (.task 0) (.leaseRandom ⟨3⟩ alice.id [] 100 ⟨1⟩),
      .call (.task 1) (.leaseRandom ⟨3⟩ bob.id [] 100 ⟨1⟩),
      .act (.task 0) {}, .act (.task 0) {}, .act (.task 0) {}, .act (.task 0) {},
      .act (.task 1) {}, .act (.task 1) {}, .act (.task 1) {}, .act (.task 1) {},
      .act (.task 0) {}, .act (.task 0) {}, .act (.task 0) {}, .act (.task 0) {},
      .act (.task 0) {}, .act (.task 1) {}, .act (.task 1) {}, .act (.task 1) {},
      .act (.task 1) {}, .act (.task 1) {}]
    (fun c => granted (c.threads (.task 0)).prog == some (alice.id, ⟨1⟩) &&
      granted (c.threads (.task 1)).prog == some (bob.id, ⟨1⟩)) (by decide +kernel)
  rw [Bool.and_eq_true, beq_iff_eq, beq_iff_eq] at hc
  exact ⟨c, hrun, fun hex => absurd (hex.once _ _ _ _ _ hc.1 hc.2) (by decide)⟩

end Tachikoma
