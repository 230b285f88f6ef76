import Tachikoma.Proof.Settled

/-!
# What a request for hosts comes to

`lease` and `lease_random` on a settled database with nobody else running: every way they can end,
and the tables they leave behind. `LeaseOutcome` and `LeaseRandomOutcome` list the ways, one
constructor for each, with what was the case when it was taken; a failure of the database is the one
way more (`Comes`), and it leaves everything as it was.
-/

set_option autoImplicit false

namespace Tachikoma

open Interleaving Versioned Unordered

namespace Tables

/-- What everybody sees. -/
def view (t : Tables) : View := ⟨t.users, t.hosts, t.groups, t.leaseLimits⟩

/-- All hosts of the user have a deadline. -/
def Dated (t : Tables) (u : UserId) : Prop := ∀ h ∈ t.hostsOf u, h.leasedUntil ≠ none

instance (t : Tables) (u : UserId) : Decidable (t.Dated u) := by
  unfold Dated
  infer_instance

/-- The ids among `ids` that the user holds. -/
def ownOf (t : Tables) (u : UserId) (ids : List HostId) : List HostId :=
  ((t.hostsOf u).map (·.id)).filter (· ∈ ids)

theorem noneOwn_iff {t : Tables} {u : UserId} {ids : List HostId} :
    t.NoneOwn u ids ↔ t.Dated u ∧ t.ownOf u ids = [] := by
  simp only [NoneOwn, Dated, ownOf, List.filter_eq_nil_iff, List.mem_map, decide_eq_true_eq]
  constructor
  · intro h
    refine ⟨fun host hhost => (h host hhost).1, ?_⟩
    intro id hyp
    obtain ⟨host, hhost, hid⟩ := hyp
    exact hid ▸ (h host hhost).2
  · intro hyp host hhost
    obtain ⟨hdated, hown⟩ := hyp
    exact ⟨hdated host hhost, hown host.id ⟨host, hhost, rfl⟩⟩

end Tables

section Requests

variable {t : Tables} {service : HostsService} {u : UserId} {groups : List String}
  {ids : List HostId} {leaseFor : TimeDelta} {groupId : GroupId} {p : Pid} {s : Setting}

/-- How `lease` ends when nothing fails; `until_` is the deadline it would write. -/
inductive LeaseOutcome (t : Tables) (service : HostsService) (u : UserId) (groups : List String)
    (ids : List HostId) (until_ : Time) : Exit HostError (List LeasedHost) → Db → Prop where
  /-- A host of the user does not decode. -/
  | undated (hno : ¬ t.Dated u) :
      LeaseOutcome t service u groups ids until_ (.err (.databaseError .decode)) t.db
  | alreadyLeased (hdated : t.Dated u) (own : List HostId) (hown : own.Perm (t.ownOf u ids))
      (hne : own ≠ []) :
      LeaseOutcome t service u groups ids until_ (.err (.alreadyLeased own)) t.db
  /-- A limit of a group is negative. -/
  | badLimit (hown : t.NoneOwn u ids) (hlimit : t.limit service groups = none) :
      LeaseOutcome t service u groups ids until_
        (.panic "called `Result::unwrap()` on an `Err` value") t.db
  | leaseLimit (hown : t.NoneOwn u ids) (limit : Nat)
      (hlimit : t.limit service groups = some limit)
      (hlt : limit < (t.hostsOf u).length + ids.dedup.length) :
      LeaseOutcome t service u groups ids until_ (.err .leaseLimit) t.db
  | overflow (hown : t.NoneOwn u ids) (hfits : t.Fits service groups u ids)
      (hout : ¬ InCalendar until_) :
      LeaseOutcome t service u groups ids until_ (.panic "`DateTime + TimeDelta` overflowed") t.db
  /-- The deadline is too early for Postgres, or there is a host to be leased, but no such user. -/
  | refused (hown : t.NoneOwn u ids) (hfits : t.Fits service groups u ids) (hin : InCalendar until_)
      (hno : ¬ t.Grantable (.leaseHosts u ids until_)) (e : SqlxError) :
      LeaseOutcome t service u groups ids until_ (.err (.databaseError e)) t.db
  | granted (hown : t.NoneOwn u ids) (hfits : t.Fits service groups u ids) (hin : InCalendar until_)
      (hx : t.Grantable (.leaseHosts u ids until_)) (order : List Nat) (leased : List LeasedHost)
      (hleased : Select.run order (t.update _ hx).view (.getLeasedHosts u) = .ok leased) :
      LeaseOutcome t service u groups ids until_ (.ok leased) (t.update _ hx).db

/-- How `lease_random` ends when nothing fails. -/
inductive LeaseRandomOutcome (t : Tables) (service : HostsService) (u : UserId)
    (groups : List String) (groupId : GroupId) (until_ : Time) :
    Exit HostError LeasedHost → Db → Prop where
  | badLimit (hlimit : t.limit service groups = none) :
      LeaseRandomOutcome t service u groups groupId until_
        (.panic "called `Result::unwrap()` on an `Err` value") t.db
  | undated (hlimit : t.limit service groups ≠ none) (hno : ¬ t.Dated u) :
      LeaseRandomOutcome t service u groups groupId until_ (.err (.databaseError .decode)) t.db
  | leaseLimit (hdated : t.Dated u) (limit : Nat) (hlimit : t.limit service groups = some limit)
      (hle : limit ≤ (t.hostsOf u).length) :
      LeaseRandomOutcome t service u groups groupId until_ (.err .leaseLimit) t.db
  | thereIsNoFreeHosts (hdated : t.Dated u) (limit : Nat)
      (hlimit : t.limit service groups = some limit) (hlt : (t.hostsOf u).length < limit)
      (hnone : ∀ h ∈ t.hosts, h.groupId = groupId → h.userId ≠ none) :
      LeaseRandomOutcome t service u groups groupId until_ (.err .thereIsNoFreeHosts) t.db
  /-- There is a free host, and the deadline is not in the calendar. -/
  | overflow (hdated : t.Dated u) (limit : Nat) (hlimit : t.limit service groups = some limit)
      (hlt : (t.hostsOf u).length < limit)
      (hfree : ∃ h ∈ t.hosts, h.groupId = groupId ∧ h.userId = none) (hout : ¬ InCalendar until_) :
      LeaseRandomOutcome t service u groups groupId until_
        (.panic "`DateTime + TimeDelta` overflowed") t.db
  /-- There is a free host, and the deadline is too early for Postgres, or there is no such user. -/
  | refused (hdated : t.Dated u) (limit : Nat) (hlimit : t.limit service groups = some limit)
      (hlt : (t.hostsOf u).length < limit)
      (hfree : ∃ h ∈ t.hosts, h.groupId = groupId ∧ h.userId = none) (hin : InCalendar until_)
      (hno : until_ < MIN_TIMESTAMP ∨ ∀ user ∈ t.users, user.id ≠ u) (e : SqlxError) :
      LeaseRandomOutcome t service u groups groupId until_ (.err (.databaseError e)) t.db
  | granted (hdated : t.Dated u) (limit : Nat) (hlimit : t.limit service groups = some limit)
      (hlt : (t.hostsOf u).length < limit) (host : Host) (hmem : host ∈ t.hosts)
      (hfree : host.userId = none) (hgroup : host.groupId = groupId) (hin : InCalendar until_)
      (hx : t.Grantable (.leaseHosts u [host.id] until_)) (user : User) (huser : user ∈ t.users)
      (hid : user.id = u) :
      LeaseRandomOutcome t service u groups groupId until_
        (.ok ⟨host.id, host.hostname, host.ipAddress, until_, none, user⟩) (t.update _ hx).db

/-- How a call of a service ends in a setting: in one of its own ways, at a time that the clock may
    read, or because the database failed. -/
def Comes {α : Type} (s : Setting) (t : Tables) (outcome : Time → Exit HostError α → Db → Prop)
    (r : Exit HostError α) (w' : World) : Prop :=
  (∃ now, (∀ c ∈ s.clock, now = c) ∧ outcome now r w'.db) ∨
    (s.faults = true ∧ (r = .err (.databaseError .io) ∨ r = .err (.unexpectedError .io)) ∧
      w'.db = t.db)

/-! ## The parts of a request -/

theorem Setting.exists_now (s : Setting) : ∃ now, ∀ c ∈ s.clock, now = c :=
  ⟨s.env.time, s.allows_env.2⟩

theorem decodeAll_error {rs : List (Host × User)} {e : SqlxError}
    (h : decodeAll rs = .error e) : e = .decode := by
  induction rs with
  | nil => cases h
  | cons r rs ih =>
    rw [decodeAll] at h
    split at h
    · rename_i e' hr
      unfold LeasedHost.ofRow at hr
      split at hr
      · cases hr
      · cases hr; cases h; rfl
    · split at h
      · rename_i hrs
        cases h
        exact ih hrs
      · cases h

/-- The hosts of a user are read if all of them have a deadline, and do not decode otherwise. -/
theorem achieves_getLeasedHosts {w : World} {tx : RegistryTx}
    {A : Exit SqlxError (List LeasedHost) → World → Prop} (hview : w.db.view ⟨p, tx.no⟩ = t.view)
    (hok : ∀ order ls, t.Dated u → Select.run order t.view (.getLeasedHosts u) = .ok ls →
      A (.ok ls) w)
    (hno : ¬ t.Dated u → A (.err .decode) w) (hio : s.faults = true → A (.err .io) w) :
    (tx.getLeasedHosts u).Achieves s p w A := by
  refine Task.achieves_fetch (fun order => ?_) hio
  rw [hview]
  cases hrun : Select.run order t.view (.getLeasedHosts u) with
  | ok ls =>
    have hread : Select.run order (t.db.view ⟨p, 0⟩) (.getLeasedHosts u) = .ok ls := by
      rw [t.view_db]; exact hrun
    exact hok order ls (Tables.of_getLeasedHosts hread).1 hrun
  | error e =>
    cases decodeAll_error hrun
    apply hno
    intro hdated
    obtain ⟨rows, hrows⟩ : ∃ ls, Select.run order (t.db.view ⟨p, 0⟩) (.getLeasedHosts u) = .ok ls :=
      Tables.exists_getLeasedHosts hdated
    rw [t.view_db] at hrows
    cases hrun.symm.trans hrows

theorem achieves_getLeaseLimit {w : World} {tx : RegistryTx} {A : Exit SqlxError Nat → World → Prop}
    (hview : w.db.view ⟨p, tx.no⟩ = t.view)
    (hok : ∀ limit, t.limit service groups = some limit → A (.ok limit) w)
    (hno : t.limit service groups = none →
      A (.panic "called `Result::unwrap()` on an `Err` value") w)
    (hio : s.faults = true → A (.err .io) w) :
    (service.getLeaseLimit tx groups).Achieves s p w A := by
  refine Task.achieves_bind (Task.achieves_fetch (fun order => ?_) hio)
  rw [hview]
  have hperm := service.limitOf_perm (arrange_perm order
    (t.view.leaseLimits.filter fun l => l.group ∈ groups))
  cases hlimit : t.limit service groups with
  | some limit =>
    simp only [Select.run, Exit.ofExcept, hperm.trans hlimit]
    exact Task.achieves_pure (hok limit hlimit)
  | none =>
    simp only [Select.run, Exit.ofExcept, hperm.trans hlimit]
    exact Task.achieves_panic (hno hlimit)

/-- The update of a request. -/
theorem achieves_update {n : Nat} {tx : RegistryTx} {x : HostWrite}
    {A : Exit SqlxError Unit → World → Prop}
    (hok : ∀ (hx : t.Grantable x) (db : Db), db.view ⟨p, tx.no⟩ = (t.update x hx).view →
      db.commit ⟨p, tx.no⟩ = (t.update x hx).db → db.rollback ⟨p, tx.no⟩ = t.db →
      A (.ok ()) ⟨db, n⟩)
    (hno : ¬ t.Grantable x → ∀ e, A (.err e) ⟨t.db, n⟩)
    (hio : s.faults = true → A (.err .io) ⟨t.db, n⟩) :
    (tx.execute (.hosts x)).Achieves s p ⟨t.db, n⟩ A := by
  refine Task.achieves_execute (fun uuid => ?_) hio
  by_cases hx : t.Grantable x
  · obtain ⟨db, hexecute, hview, hcommit, hrollback⟩ := Tables.execute_update (y := ⟨p, tx.no⟩) hx
    rw [Tables.view_db] at hview
    exact ⟨.ok (), db, hexecute, hok hx db hview hcommit hrollback⟩
  · obtain ⟨e, hexecute⟩ := Tables.execute_update_fails (y := ⟨p, tx.no⟩) hx
    exact ⟨.error e, t.db, hexecute, hno hx e⟩

/-- An update commits the new tables, or the database failed and nothing has changed. -/
theorem achieves_commitUpdate {n : Nat} {tx : RegistryTx} {x : HostWrite} {hx : t.Grantable x}
    {db : Db} {A : Exit SqlxError Unit → World → Prop}
    (hcommit : db.commit ⟨p, tx.no⟩ = (t.update x hx).db)
    (hrollback : db.rollback ⟨p, tx.no⟩ = t.db) (hok : A (.ok ()) ⟨(t.update x hx).db, n⟩)
    (hio : s.faults = true → A (.err .io) ⟨t.db, n⟩) :
    tx.commit.Achieves s p ⟨db, n⟩ A := by
  refine Task.achieves_commit ?_ fun hf => ?_
  · show A (.ok ()) ⟨db.commit ⟨p, tx.no⟩, n⟩
    rw [hcommit]
    exact hok
  · show A (.err .io) ⟨db.rollback ⟨p, tx.no⟩, n⟩
    rw [hrollback]
    exact hio hf

/-! ## The requests -/

/-- A request that ends with the tables as they were. -/
theorem comes_unchanged {α : Type} {outcome : Time → Exit HostError α → Db → Prop}
    {r : Exit HostError α} {n : Nat} {y : TxId} (h : ∀ now, outcome now r t.db) :
    Comes s t outcome r ⟨t.db.rollback y, n⟩ := by
  obtain ⟨now, hnow⟩ := s.exists_now
  refine .inl ⟨now, hnow, ?_⟩
  rw [show (⟨t.db.rollback y, n⟩ : World).db = t.db from Tables.db_rollback]
  exact h now

theorem comes_failed {α : Type} {outcome : Time → Exit HostError α → Db → Prop}
    {r : Exit HostError α} {db : Db} {n : Nat} (hf : s.faults = true) (hdb : db = t.db)
    (hr : r = .err (.databaseError .io) ∨ r = .err (.unexpectedError .io)) :
    Comes s t outcome r ⟨db, n⟩ := .inr ⟨hf, hr, hdb⟩

/-- The hosts of a user, as `lease` has read them. -/
theorem ids_of_getLeasedHosts {order : List Nat} {ls : List LeasedHost}
    (h : Select.run order t.view (.getLeasedHosts u) = .ok ls) :
    (ls.map (·.id)).Perm ((t.hostsOf u).map (·.id)) := by
  have hread : Select.run order (t.db.view ⟨.timer, 0⟩) (.getLeasedHosts u) = .ok ls := by
    rw [t.view_db]; exact h
  exact (Tables.of_getLeasedHosts hread).2

/-- Who is granted a lease that a column can hold may have it, if he is a user of the tables. -/
theorem Tables.grantable_of_user (hu : ∃ user ∈ t.users, user.id = u) {until_ : Time}
    (hmin : MIN_TIMESTAMP ≤ until_) : t.Grantable (.leaseHosts u ids until_) := by
  refine ⟨fun d hd => ?_, fun v hv _ _ _ => ?_⟩
  · cases hd
    exact hmin
  · cases hv
    exact hu

/-- After its update all hosts of the user have a deadline. -/
theorem Tables.dated_update (hdated : t.Dated u) {until_ : Time}
    (hx : t.Grantable (.leaseHosts u ids until_)) : (t.update _ hx).Dated u := by
  intro h' hh'
  obtain ⟨hmem, hu⟩ := Tables.mem_hostsOf.mp hh'
  obtain ⟨h, hh, rfl⟩ := List.mem_map.mp hmem
  unfold HostWrite.apply at hu ⊢
  split
  · exact nofun
  · rename_i hsel
    rw [if_neg hsel] at hu
    exact hdated h (Tables.mem_hostsOf.mpr ⟨hh, hu⟩)

/-- **What `lease` comes to**, in any setting. -/
theorem achieves_lease (n : Nat) :
    (service.lease u groups ids leaseFor).Achieves s p ⟨t.db, n⟩
      (Comes s t fun now => LeaseOutcome t service u groups ids (now + leaseFor)) := by
  refine Task.achieves_withTx ?_ fun hf => comes_failed hf rfl (.inl rfl)
  have hfailed : ∀ {r : Exit HostError (List LeasedHost)}, s.faults = true →
      (r = .err (.databaseError .io) ∨ r = .err (.unexpectedError .io)) →
      Comes s t (fun now => LeaseOutcome t service u groups ids (now + leaseFor)) r
        ⟨t.db.rollback ⟨p, n⟩, n + 1⟩ := fun hf hr => comes_failed hf Tables.db_rollback hr
  refine Task.achieves_bind (Task.achieves_mapErr (achieves_getLeasedHosts (t := t) (t.view_db _) ?_
    (fun hno => comes_unchanged fun _ => .undated hno) fun hf => hfailed hf (.inl rfl)))
  intro order ls hdated hrun
  have hids := ids_of_getLeasedHosts hrun
  have hnodup : (ls.map (·.id)).Nodup :=
    hids.nodup_iff.mpr (t.hosts_pkey.sublist (List.filter_sublist.map _))
  have hlength : (ls.map (·.id)).length = (t.hostsOf u).length := by
    rw [hids.length_eq, List.length_map]
  have hown : ((ls.map (·.id)).filter (· ∈ ids)).Perm (t.ownOf u ids) := hids.filter _
  dsimp only
  rw [List.dedup_eq_self.mpr hnodup, hlength]
  simp only [List.mem_dedup]
  split
  · -- The request names hosts of its own user.
    rename_i hinter
    refine Task.achieves_bind (Task.achieves_hashOrder fun order => ?_)
    refine Task.achieves_throw (comes_unchanged fun _ => ?_)
    have hperm := (arrange_perm order ((ls.map (·.id)).filter (· ∈ ids))).trans hown
    refine .alreadyLeased hdated _ hperm fun hnil => hinter ?_
    rw [hnil] at hperm
    exact hown.trans hperm.symm |>.eq_nil
  rename_i hinter
  have hnone : t.NoneOwn u ids := by
    refine Tables.noneOwn_iff.mpr ⟨hdated, ?_⟩
    rw [not_not] at hinter
    rw [hinter] at hown
    exact hown.symm.eq_nil
  refine Task.achieves_bind (Task.achieves_mapErr (achieves_getLeaseLimit (t := t) (t.view_db _) ?_
    (fun hlimit => comes_unchanged fun _ => .badLimit hnone hlimit) fun hf =>
      hfailed hf (.inr rfl)))
  intro limit hlimit
  dsimp only
  split
  · rename_i hlt
    exact Task.achieves_throw (comes_unchanged fun _ => .leaseLimit hnone limit hlimit hlt)
  rename_i hle
  have hfits : t.Fits service groups u ids := ⟨limit, hlimit, not_lt.mp hle⟩
  refine Task.achieves_bind (Task.achieves_utcNow fun now hnow => ?_)
  refine Task.achieves_bind (Task.achieves_addTimeDelta (fun hin => ?_) fun hout => ?_)
  swap
  · refine .inl ⟨now, hnow, ?_⟩
    show LeaseOutcome t service u groups ids (now + leaseFor) _ (t.db.rollback _)
    rw [Tables.db_rollback]
    exact .overflow hnone hfits hout
  refine Task.achieves_bind (Task.achieves_mapErr (achieves_update (t := t) ?_ (fun hno e => ?_)
    fun hf => hfailed hf (.inl rfl)))
  · intro hx db hview hcommit hrollback
    refine Task.achieves_bind (Task.achieves_mapErr (achieves_getLeasedHosts hview ?_
      (fun hno => absurd (Tables.dated_update hdated hx) hno)
      fun hf => comes_failed hf hrollback (.inl rfl)))
    intro order leased _ hleased
    refine Task.achieves_bind (Task.achieves_mapErr (achieves_commitUpdate hcommit hrollback ?_
      fun hf => hfailed hf (.inl rfl)))
    refine Task.achieves_pure (.inl ⟨now, hnow, ?_⟩)
    show LeaseOutcome t service u groups ids (now + leaseFor) (.ok leased)
      ((t.update _ hx).db.rollback _)
    rw [Tables.db_rollback]
    exact .granted hnone hfits hin hx order leased hleased
  · refine .inl ⟨now, hnow, ?_⟩
    show LeaseOutcome t service u groups ids (now + leaseFor) _ (t.db.rollback _)
    rw [Tables.db_rollback]
    exact .refused hnone hfits hin hno e

/-- The host that was just leased, read again. -/
theorem run_getLeasedHost {order : List Nat} {host : Host} {until_ : Time} (hmem : host ∈ t.hosts)
    (hx : t.Grantable (.leaseHosts u [host.id] until_)) {user : User} (huser : user ∈ t.users)
    (hid : user.id = u) :
    Select.run order (t.update _ hx).view (.getLeasedHost host.id) =
      .ok ⟨host.id, host.hostname, host.ipAddress, until_, none, user⟩ := by
  set x : HostWrite := .leaseHosts u [host.id] until_
  have happly : x.apply host = { x.set host.toHostRow with id := host.id } :=
    x.apply_of_sel (by simp [x, HostWrite.sel])
  -- The join has one row for the host.
  have honly : ∀ r, r ∈ (t.update x hx).view.join.filter (fun r => r.1.id = host.id) ↔
      r = (x.apply host, user) := by
    intro r
    simp only [List.mem_filter, mem_join, decide_eq_true_eq, Prod.ext_iff]
    constructor
    · intro hyp
      obtain ⟨⟨hhost, hholder, hheld⟩, hr⟩ := hyp
      have hr₁ : r.1 = x.apply host :=
        List.inj_on_of_nodup_map (t.update x hx).hosts_pkey hhost
          (List.mem_map_of_mem (f := x.apply) hmem) (by rw [hr, x.apply_id])
      refine ⟨hr₁, List.inj_on_of_nodup_map t.users_pkey hholder huser ?_⟩
      rw [hr₁, happly] at hheld
      rw [hid]
      exact (Option.some.inj hheld).symm
    · intro hyp
      obtain ⟨hr₁, hr₂⟩ := hyp
      rw [hr₁, hr₂]
      refine ⟨⟨List.mem_map_of_mem (f := x.apply) hmem, huser, ?_⟩, x.apply_id host⟩
      rw [happly, hid]
      rfl
  have hhead : (arrange order ((t.update x hx).view.join.filter fun r => r.1.id = host.id)).head? =
      some (x.apply host, user) := by
    cases hr : (arrange order ((t.update x hx).view.join.filter fun r =>
      r.1.id = host.id)).head? with
    | none =>
      have hmem := (honly _).mpr rfl
      rw [eq_nil_of_head?_arrange hr] at hmem
      cases hmem
    | some r => rw [(honly r).mp (mem_of_head?_arrange hr)]
  simp only [x] at hhead happly
  simp only [Select.run, hhead, happly]
  rfl

/-- **What `lease_random` comes to**, in any setting. -/
theorem achieves_leaseRandom (n : Nat) :
    (service.leaseRandom u groups leaseFor groupId).Achieves s p ⟨t.db, n⟩
      (Comes s t fun now => LeaseRandomOutcome t service u groups groupId (now + leaseFor)) := by
  refine Task.achieves_withTx ?_ fun hf => comes_failed hf rfl (.inl rfl)
  have hfailed : ∀ {r : Exit HostError LeasedHost}, s.faults = true →
      (r = .err (.databaseError .io) ∨ r = .err (.unexpectedError .io)) →
      Comes s t (fun now => LeaseRandomOutcome t service u groups groupId (now + leaseFor)) r
        ⟨t.db.rollback ⟨p, n⟩, n + 1⟩ := fun hf hr => comes_failed hf Tables.db_rollback hr
  refine Task.achieves_bind (Task.achieves_mapErr (achieves_getLeaseLimit (t := t) (t.view_db _) ?_
    (fun hlimit => comes_unchanged fun _ => .badLimit hlimit) fun hf => hfailed hf (.inr rfl)))
  intro limit hlimit
  dsimp only
  refine Task.achieves_bind (Task.achieves_mapErr (achieves_getLeasedHosts (t := t) (t.view_db _) ?_
    (fun hno => comes_unchanged fun _ => .undated (by simp [hlimit]) hno)
    fun hf => hfailed hf (.inl rfl)))
  intro order ls hdated hrun
  have hlength : List.length ls = (t.hostsOf u).length :=
    (List.length_map _).symm.trans <|
      (ids_of_getLeasedHosts hrun).length_eq.trans (List.length_map _)
  dsimp only
  rw [hlength]
  split
  · rename_i hle
    exact Task.achieves_throw (comes_unchanged fun _ => .leaseLimit hdated limit hlimit hle)
  rename_i hlt
  rw [not_le] at hlt
  refine Task.achieves_bind (Task.achieves_mapErr (Task.achieves_fetch (fun order => ?_)
    fun hf => hfailed hf (.inl rfl)))
  -- The first free host of the group, if there is one.
  rw [show (⟨t.db, n + 1⟩ : World).db.view ⟨p, n⟩ = t.view from t.view_db _,
    show Select.run order t.view (.getFirstAvailableGroupHost groupId) = .ok (arrange order
      (t.view.hosts.filter fun h => h.userId = none ∧ h.groupId = groupId)).head? from rfl]
  cases hhead : (arrange order
      (t.view.hosts.filter fun h => h.userId = none ∧ h.groupId = groupId)).head? with
  | none =>
    refine Task.achieves_throw (comes_unchanged fun _ => ?_)
    refine .thereIsNoFreeHosts hdated limit hlimit hlt fun h hh hgroup hfree => ?_
    have hmem : h ∈ t.view.hosts.filter fun h => h.userId = none ∧ h.groupId = groupId :=
      List.mem_filter.mpr ⟨hh, decide_eq_true ⟨hfree, hgroup⟩⟩
    rw [eq_nil_of_head?_arrange hhead] at hmem
    cases hmem
  | some host =>
    have hmem := mem_of_head?_arrange hhead
    simp only [List.mem_filter, decide_eq_true_eq] at hmem
    obtain ⟨hmem, hfree, hgroup⟩ := hmem
    refine Task.achieves_bind (Task.achieves_utcNow fun now hnow => ?_)
    refine Task.achieves_bind (Task.achieves_addTimeDelta (fun hin => ?_) fun hout => ?_)
    swap
    · refine .inl ⟨now, hnow, ?_⟩
      show LeaseRandomOutcome t service u groups groupId (now + leaseFor) _ (t.db.rollback _)
      rw [Tables.db_rollback]
      exact .overflow hdated limit hlimit hlt ⟨host, hmem, hgroup, hfree⟩ hout
    have hhit : (HostWrite.leaseHosts u [host.id] (now + leaseFor)).sel host.id host.toHostRow =
        true := by simp [HostWrite.sel]
    refine Task.achieves_bind (Task.achieves_mapErr (achieves_update (t := t) ?_ (fun hno e => ?_)
      fun hf => hfailed hf (.inl rfl)))
    · intro hx db hview hcommit hrollback
      obtain ⟨user, huser, hid⟩ := hx.grantee u rfl host hmem hhit
      refine Task.achieves_bind (Task.achieves_mapErr (Task.achieves_fetch (fun order => ?_)
        fun hf => comes_failed hf hrollback (.inl rfl)))
      rw [show (⟨db, n + 1⟩ : World).db.view ⟨p, n⟩ = _ from hview,
        run_getLeasedHost hmem hx huser hid]
      refine Task.achieves_bind (Task.achieves_mapErr (achieves_commitUpdate hcommit hrollback ?_
        fun hf => hfailed hf (.inl rfl)))
      refine Task.achieves_pure (.inl ⟨now, hnow, ?_⟩)
      show LeaseRandomOutcome t service u groups groupId (now + leaseFor) _
        ((t.update _ hx).db.rollback _)
      rw [Tables.db_rollback]
      exact .granted hdated limit hlimit hlt host hmem hfree hgroup hin hx user huser hid
    · refine .inl ⟨now, hnow, ?_⟩
      show LeaseRandomOutcome t service u groups groupId (now + leaseFor) _ (t.db.rollback _)
      rw [Tables.db_rollback]
      refine .refused hdated limit hlimit hlt ⟨host, hmem, hgroup, hfree⟩ hin ?_ e
      by_contra hyp
      obtain ⟨hmin, hsome⟩ := not_or.mp hyp
      push Not at hsome
      exact hno (Tables.grantable_of_user hsome (not_lt.mp hmin))

end Requests

end Tachikoma
