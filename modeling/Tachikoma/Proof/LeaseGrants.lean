import Tachikoma.Proof.LeaseAtomic

/-!
# What a lease grants, and what it takes

`lease` counts every id it is asked for against the limit, and then leases those that the `UPDATE`
finds; how many it has found it does not ask. An id of **no host** is counted, not found, and the
request succeeds all the same.

Whether a host that is named is held by **somebody else** is asked nowhere either: the update is
keyed by the ids alone. So a request that names a leased host goes through unless something else is
in its way, and `leaseTakesNothing_iff` lists all there is: the request fails for its own user's
sake, or it takes a host away.
-/

set_option autoImplicit false

namespace Tachikoma

open Interleaving Versioned

/-- Every requested id is the id of a host. -/
def Tables.AllKnown (t : Tables) (ids : List HostId) : Prop := ∀ id ∈ ids, ∃ h ∈ t.hosts, h.id = id

/-- At the time `now`, and whatever fails, the request is granted everything if it succeeds. -/
def GrantsAll (t : Tables) (service : HostsService) (u : UserId) (groups : List String)
    (ids : List HostId) (leaseFor : TimeDelta) (now : Time) (p : Pid) : Prop :=
  ∀ leased w', Prog.Ends (actIn (.at now)) p (service.lease u groups ids leaseFor) t.world
    (.ok leased) w' → ∀ id ∈ ids, ∃ l ∈ leased, l.id = id ∧ l.user.id = u

/-- No requested host that exists has a holder. -/
def Tables.NoneLeased (t : Tables) (ids : List HostId) : Prop :=
  ∀ h ∈ t.hosts, h.id ∈ ids → h.userId = none

/-- What leasing is to do: a granted request took nothing from anybody, and one that names a leased
    host is answered with an error and changes nothing. -/
structure TakesNothing (t : Tables) (ids : List HostId) (r : Exit HostError (List LeasedHost))
    (w' : World) : Prop where
  granted : ∀ leased, r = .ok leased → t.NoneLeased ids
  refused : ¬ t.NoneLeased ids → (∃ e, r = .err e) ∧ SameHosts t.world w'

section Granted

variable {t : Tables} {limit : Nat} {u : UserId} {ids : List HostId} {until_ : Time}
  {leased : List LeasedHost} {w' : World}

/-- An id that was asked for is in the list exactly if it is the id of a host. -/
theorem Granted.mem_iff (h : Granted t limit u ids until_ leased w') {id : HostId}
    (hid : id ∈ ids) :
    (∃ l ∈ leased, l.id = id) ↔ ∃ host ∈ t.hosts, host.id = id := by
  have hlisted : (∃ l ∈ leased, l.id = id) ↔ id ∈ held u w' := by
    rw [← h.holds, List.mem_toFinset, List.mem_map]
  rw [hlisted, mem_held, h.requested id hid]
  constructor
  · intro hyp
    obtain ⟨r, hr, _⟩ := hyp
    obtain ⟨row, hrow, -⟩ := Option.map_eq_some_iff.mp hr
    obtain ⟨host, hhost, hhostId, -⟩ := (Tables.host_eq_some (w := t.world) rfl).mp hrow
    exact ⟨host, hhost, hhostId⟩
  · intro hyp
    obtain ⟨host, hhost, hhostId⟩ := hyp
    rw [← hhostId, Tables.host_of_mem (w := t.world) rfl hhost, Option.map_some]
    exact ⟨_, rfl, rfl⟩

theorem Granted.user_id (h : Granted t limit u ids until_ leased w') {l : LeasedHost}
    (hl : l ∈ leased) : l.user.id = u := by
  obtain ⟨host, -, user, -, -, hid, hrow⟩ := (h.list l).mp hl
  obtain ⟨-, -, -, -, -, huser⟩ := LeasedHost.ofRow_ok.mp hrow
  rw [huser, hid]

end Granted

section Outcome

variable {t : Tables} {service : HostsService} {u : UserId} {groups : List String}
  {ids : List HostId} {until_ : Time}

/-- A column has to hold the deadline, and the foreign key is in the way of a request that would
    lease a host to nobody. -/
theorem grantable_leaseHosts : t.Grantable (.leaseHosts u ids until_) ↔
    MIN_TIMESTAMP ≤ until_ ∧ ¬ ((∃ h ∈ t.hosts, h.id ∈ ids) ∧ ∀ user ∈ t.users, user.id ≠ u) := by
  constructor
  · intro hx
    refine ⟨hx.deadline until_ rfl, fun hyp => ?_⟩
    obtain ⟨⟨h, hh, hid⟩, hno⟩ := hyp
    obtain ⟨user, huser, hu⟩ := hx.grantee u rfl h hh (decide_eq_true hid)
    exact hno user huser hu
  · intro hyp
    obtain ⟨hmin, hno⟩ := hyp
    refine ⟨fun d hd => ?_, fun v hv h hh hsel => ?_⟩
    · cases hd
      exact hmin
    · cases hv
      by_contra hnobody
      exact hno ⟨⟨h, hh, of_decide_eq_true hsel⟩, fun user huser hu => hnobody ⟨user, huser, hu⟩⟩

theorem LeaseOutcome.of_ok {leased : List LeasedHost} {w' : World}
    (h : LeaseOutcome t service u groups ids until_ (.ok leased) w'.db) :
    t.NoneOwn u ids ∧ t.Fits service groups u ids ∧ InCalendar until_ ∧
      t.Grantable (.leaseHosts u ids until_) ∧ ∃ limit, Granted t limit u ids until_ leased w' := by
  generalize hdb : w'.db = db at h
  cases h with
  | granted hown hfits hin hx order _ hleased =>
    obtain ⟨limit, hlimit, hle⟩ := hfits
    exact ⟨hown, ⟨limit, hlimit, hle⟩, hin, hx, limit, granted_of_outcome hx hleased hdb hle⟩

/-- A request with nothing in its way is granted. -/
theorem LeaseOutcome.exists_ok {r : Exit HostError (List LeasedHost)} {db : Db}
    (h : LeaseOutcome t service u groups ids until_ r db) (hown : t.NoneOwn u ids)
    (hfits : t.Fits service groups u ids) (hin : InCalendar until_)
    (hx : t.Grantable (.leaseHosts u ids until_)) : ∃ leased, r = .ok leased := by
  obtain ⟨limit, hlimit, hle⟩ := hfits
  obtain ⟨hdated, hnone⟩ := Tables.noneOwn_iff.mp hown
  cases h with
  | undated hno => exact absurd hdated hno
  | alreadyLeased _ own hperm hne =>
    rw [hnone] at hperm
    exact absurd hperm.eq_nil hne
  | badLimit _ hlimit' =>
    rw [hlimit] at hlimit'
    cases hlimit'
  | leaseLimit _ limit' hlimit' hlt =>
    rw [hlimit] at hlimit'
    cases hlimit'
    exact absurd hlt (not_lt.mpr hle)
  | overflow _ _ hout => exact absurd hin hout
  | refused _ _ _ hno => exact absurd hx hno
  | granted _ _ _ _ order leased _ => exact ⟨leased, rfl⟩

/-- One that is answered with no error has passed all checks but the last. -/
theorem LeaseOutcome.of_ne_err {r : Exit HostError (List LeasedHost)} {db : Db}
    (h : LeaseOutcome t service u groups ids until_ r db) (hno : ∀ e, r ≠ .err e) :
    t.NoneOwn u ids ∧ ∀ limit, t.limit service groups = some limit →
      (t.hostsOf u).length + ids.dedup.length ≤ limit ∧
        (InCalendar until_ → t.Grantable (.leaseHosts u ids until_)) := by
  cases h with
  | undated => exact absurd rfl (hno _)
  | alreadyLeased => exact absurd rfl (hno _)
  | badLimit hown hnone =>
    refine ⟨hown, fun limit hlimit => ?_⟩
    rw [hnone] at hlimit
    cases hlimit
  | leaseLimit => exact absurd rfl (hno _)
  | overflow hown hfits hout =>
    exact ⟨hown, fun limit hlimit => ⟨hfits.le hlimit, fun hin => absurd hin hout⟩⟩
  | refused => exact absurd rfl (hno _)
  | granted hown hfits _ hx =>
    exact ⟨hown, fun limit hlimit => ⟨hfits.le hlimit, fun _ => hx⟩⟩

/-- What is no success leaves the tables as they were. -/
theorem LeaseOutcome.db_of_ne_ok {r : Exit HostError (List LeasedHost)} {db : Db}
    (h : LeaseOutcome t service u groups ids until_ r db) (hno : ∀ leased, r ≠ .ok leased) :
    db = t.db := by
  cases h with
  | granted => exact absurd rfl (hno _)
  | _ => rfl

theorem sameHosts_of_db {w' : World} (hdb : w'.db = t.db) : SameHosts t.world w' := by
  intro id
  rw [World.host, World.host, hdb]
  rfl

end Outcome

/-! ## Everything that was asked for -/

/-- **When leasing takes nothing from anybody.** The request names no leased host, or it is refused
    for its user's own sake: a host of the user has no deadline or is named in it, or there is a
    limit and the request does not fit under it, or its deadline is in the calendar, but too early
    for Postgres or of no such user. -/
theorem leaseTakesNothing_iff (t : Tables) (service : HostsService) (p : Pid) (u : UserId)
    (groups : List String) (ids : List HostId) (leaseFor : TimeDelta) (now : Time) :
    (∀ r w', Prog.Ends (actIn (.at now)) p (service.lease u groups ids leaseFor) t.world r w' →
        TakesNothing t ids r w') ↔
      t.NoneLeased ids ∨ (∃ h ∈ t.hostsOf u, h.leasedUntil = none ∨ h.id ∈ ids) ∨
        ∃ limit, t.limit service groups = some limit ∧
          (limit < (t.hostsOf u).length + ids.dedup.length ∨
            InCalendar (now + leaseFor) ∧
              (now + leaseFor < MIN_TIMESTAMP ∨ ∀ user ∈ t.users, user.id ≠ u)) := by
  constructor
  · intro htakes
    by_contra hno
    simp only [not_or, not_exists, not_and, not_lt] at hno
    obtain ⟨hleased, hown, hlimited⟩ := hno
    have hnone : t.NoneOwn u ids := hown
    obtain ⟨hdated, hnil⟩ := Tables.noneOwn_iff.mp hnone
    -- Nothing fails, so it is the request itself that is turned down, and there is no reason to.
    obtain ⟨r, w', hends, hcomes⟩ :=
      (achieves_lease (t := t) (u := u) (p := p) (s := .calm now) 0).exists_ends_at
    obtain ⟨e, rfl⟩ := ((htakes r w' hends).refused hleased).1
    rcases hcomes with ⟨now', hnow, houtcome⟩ | ⟨hf, -⟩
    · rw [hnow now rfl] at houtcome
      generalize w'.db = db at houtcome
      cases houtcome with
      | undated hno => exact hno hdated
      | alreadyLeased _ own hperm hne =>
        rw [hnil] at hperm
        exact hne hperm.eq_nil
      | leaseLimit _ limit hlimit hlt => exact absurd hlt (not_lt.mpr (hlimited limit hlimit).1)
      | refused _ hfits hin hno =>
        obtain ⟨limit, hlimit, -⟩ := hfits
        obtain ⟨hmin, hsome⟩ := (hlimited limit hlimit).2 hin
        push Not at hsome
        exact hno (Tables.grantable_of_user hsome hmin)
    · cases hf
  · intro hcond r w' hends
    have hcomes := Prog.Achieves.of_ends (actIn (.at now)) p (achieves_lease 0) hends
    rcases hcomes with ⟨now', hnow, houtcome⟩ | ⟨-, hr, hdb⟩
    · rw [hnow now rfl] at houtcome
      by_cases herr : ∃ e, r = .err e
      · obtain ⟨e, rfl⟩ := herr
        exact ⟨nofun, fun _ => ⟨⟨e, rfl⟩, sameHosts_of_db (houtcome.db_of_ne_ok nofun)⟩⟩
      -- Past the checks, only the first part of the condition is left.
      obtain ⟨hown, hlimited⟩ := houtcome.of_ne_err fun e he => herr ⟨e, he⟩
      have hnone : t.NoneLeased ids := by
        rcases hcond with hnone | ⟨h, hh, hbad⟩ | ⟨limit, hlimit, hlt | ⟨hin, hno⟩⟩
        · exact hnone
        · exact absurd hbad (not_or.mpr (hown h hh))
        · exact absurd hlt (not_lt.mpr (hlimited limit hlimit).1)
        · intro h hh hid
          obtain ⟨hmin, hyp⟩ := grantable_leaseHosts.mp ((hlimited limit hlimit).2 hin)
          exact absurd ⟨⟨h, hh, hid⟩, hno.resolve_left (not_lt.mpr hmin)⟩ hyp
      exact ⟨fun _ _ => hnone, fun hleased => absurd hnone hleased⟩
    · have hsame : SameHosts t.world w' := sameHosts_of_db hdb
      rcases hr with rfl | rfl <;> exact ⟨nofun, fun _ => ⟨⟨_, rfl⟩, hsame⟩⟩

/-- `alice` leases the host that `bob` holds. -/
theorem not_leaseTakesNothing : ¬ ∀ r w', Prog.Ends (actIn (.at 0)) (.task 0)
    ((⟨2⟩ : HostsService).lease alice.id [] [⟨1⟩] (TimeDelta.hours 1))
      (small (some (false, 5))).world r w' → TakesNothing (small (some (false, 5))) [⟨1⟩] r w' := by
  intro h
  obtain ⟨r, w', hends, hok⟩ := Prog.exists_ends_of_exec (actIn (.at 0)) (.task 0)
    (x := (⟨2⟩ : HostsService).lease alice.id [] [⟨1⟩] (TimeDelta.hours 1))
    (s := (small (some (false, 5))).world) [{}, {}, {}, {}, {}, {}, {}, {}]
    (fun r => r = .ok [⟨⟨1⟩, "host1", ⟨false, 1, 32⟩, TimeDelta.hours 1, none, alice⟩])
    (by decide +kernel)
  rw [of_decide_eq_true hok] at hends
  have hnone :=
    (h _ w' hends).granted _ rfl (host1 (some (false, 5))) List.mem_cons_self (by decide)
  cases hnone

end Tachikoma
