import Mathlib.Order.Bounds.Basic
import Tachikoma.Proof.LeaseAtomic

/-!
# The limit that a request finds

`lease_limits_by_ad_group` admits a negative limit, and `get_lease_limit` unwraps the conversion of
every matching row before it looks for the largest. **One negative row** among the user's groups is
enough: no request of the user that gets as far as the limit returns anything. Without one, the
limit is the largest of the matching rows, or the default.
-/

set_option autoImplicit false

namespace Tachikoma

open Interleaving Versioned Unordered

variable {t : Tables} {service : HostsService} {u : UserId} {groups : List String}
  {ids : List HostId} {leaseFor : TimeDelta} {groupId : GroupId} {p : Pid} {n : Nat}

/-! ## The limit -/

namespace Tables

/-- No row that one of the groups matches has a negative limit. -/
def LimitsFit (t : Tables) (groups : List String) : Prop :=
  ∀ l ∈ t.leaseLimits, l.group ∈ groups → 0 ≤ l.limit

/-- The limit is the largest one of the user's groups, or the default where no group has a row. -/
def IsLimit (t : Tables) (service : HostsService) (groups : List String) (limit : Nat) : Prop :=
  IsGreatest {m : Int | ∃ l ∈ t.leaseLimits, l.group ∈ groups ∧ l.limit = m} limit ∨
    (∀ l ∈ t.leaseLimits, l.group ∉ groups) ∧ limit = service.leaseLimit

theorem mem_matching {l : AdGroupLeaseLimit} :
    l ∈ t.leaseLimits.filter (fun l => l.group ∈ groups) ↔ l ∈ t.leaseLimits ∧
      l.group ∈ groups := by
  rw [List.mem_filter, decide_eq_true_eq]

/-- **What `get_lease_limit` finds.** -/
theorem limit_eq_some {limit : Nat} :
    t.limit service groups = some limit ↔ t.LimitsFit groups ∧ t.IsLimit service groups limit := by
  unfold Tables.limit
  rw [HostsService.limitOf_eq_some]
  have hfit : (∀ l ∈ t.leaseLimits.filter (fun l => l.group ∈ groups), 0 ≤ l.limit) ↔
      t.LimitsFit groups := by
    simp only [mem_matching, and_imp, LimitsFit]
  rw [hfit]
  refine and_congr_right fun hfit => ?_
  unfold IsLimit
  cases hmax : ((t.leaseLimits.filter fun l => l.group ∈ groups).map fun l =>
    l.limit.toNat).max? with
  -- No row is one of the groups', so the default limit counts.
  | none =>
    have hnil : t.leaseLimits.filter (fun l => l.group ∈ groups) = [] :=
      List.map_eq_nil_iff.mp (List.max?_eq_none_iff.mp hmax)
    have hno : ∀ l ∈ t.leaseLimits, l.group ∉ groups := by
      intro l hl hgroup
      have hmem := mem_matching.mpr ⟨hl, hgroup⟩
      rw [hnil] at hmem
      cases hmem
    rw [Option.getD_none, or_iff_right, and_iff_right hno, eq_comm]
    intro hgreatest
    obtain ⟨l, hl, hgroup, -⟩ := hgreatest.1
    exact hno l hl hgroup
  -- The greatest of the converted limits is the greatest of the limits, as none is negative.
  | some m =>
    obtain ⟨hmem, hle⟩ := List.max?_eq_some_iff.mp hmax
    obtain ⟨l, hl, hm⟩ := List.mem_map.mp hmem
    obtain ⟨hl, hgroup⟩ := mem_matching.mp hl
    have hgreatest :
        IsGreatest {m : Int | ∃ l ∈ t.leaseLimits, l.group ∈ groups ∧ l.limit = m} m := by
      constructor
      · refine ⟨l, hl, hgroup, ?_⟩
        have hpos := hfit l hl hgroup
        omega
      · intro k hk
        obtain ⟨l', hl', hgroup', rfl⟩ := hk
        have hle' := hle l'.limit.toNat
          (List.mem_map_of_mem (f := fun l : AdGroupLeaseLimit => l.limit.toNat)
            (mem_matching.mpr ⟨hl', hgroup'⟩))
        omega
    rw [Option.getD_some, or_iff_left]
    · constructor
      · intro h
        exact h ▸ hgreatest
      · intro h
        exact Int.natCast_inj.mp (hgreatest.unique h)
    · exact fun h => h.1 l hl hgroup

/-- There is one unless a row is negative. -/
theorem limit_eq_none : t.limit service groups = none ↔ ¬ t.LimitsFit groups := by
  constructor
  · intro hnone hfit
    obtain ⟨limit, hlimit⟩ := exists_limit service hfit
    rw [hnone] at hlimit
    cases hlimit
  · intro hno
    cases hlimit : t.limit service groups with
    | none => rfl
    | some limit => exact absurd (limit_eq_some.mp hlimit).1 hno

theorem IsLimit.unique {limit limit' : Nat} (h : t.IsLimit service groups limit)
    (h' : t.IsLimit service groups limit') : limit = limit' := by
  rcases h with h | ⟨hno, rfl⟩ <;> rcases h' with h' | ⟨hno', rfl⟩
  · exact Int.natCast_inj.mp (h.unique h')
  · obtain ⟨l, hl, hgroup, -⟩ := h.1
    exact absurd hgroup (hno' l hl)
  · obtain ⟨l, hl, hgroup, -⟩ := h'.1
    exact absurd hgroup (hno l hl)
  · rfl

/-- Neither the order of the groups nor a repetition matters. -/
theorem limit_congr {groups' : List String} (h : ∀ g, g ∈ groups ↔ g ∈ groups') :
    t.limit service groups = t.limit service groups' := by
  unfold Tables.limit
  simp only [h]

end Tables

/-! ## The requests -/

/-- `lease` returns, and what it decides is decided by the limit. -/
def LeaseFinishes (t : Tables) (service : HostsService) (u : UserId) (groups : List String)
    (ids : List HostId) (r : Exit HostError (List LeasedHost)) : Prop :=
  (∀ msg, r ≠ .panic msg) ∧ ∀ limit, t.IsLimit service groups limit →
    (r = .err .leaseLimit → limit < (t.hostsOf u).length + ids.dedup.length) ∧
      ∀ leased, r = .ok leased → (t.hostsOf u).length + ids.dedup.length ≤ limit

def LeaseRandomFinishes (t : Tables) (service : HostsService) (u : UserId) (groups : List String)
    (r : Exit HostError LeasedHost) : Prop :=
  (∀ msg, r ≠ .panic msg) ∧ ∀ limit, t.IsLimit service groups limit →
    (r = .err .leaseLimit → limit ≤ (t.hostsOf u).length) ∧
      ∀ leased, r = .ok leased → (t.hostsOf u).length < limit

/-- A failure of the database is an error, and nothing is decided. -/
theorem leaseFinishes_io {r : Exit HostError (List LeasedHost)}
    (hr : r = .err (.databaseError .io) ∨ r = .err (.unexpectedError .io)) :
    LeaseFinishes t service u groups ids r := by
  rcases hr with rfl | rfl <;> exact ⟨nofun, fun _ _ => ⟨nofun, nofun⟩⟩

theorem leaseRandomFinishes_io {r : Exit HostError LeasedHost}
    (hr : r = .err (.databaseError .io) ∨ r = .err (.unexpectedError .io)) :
    LeaseRandomFinishes t service u groups r := by
  rcases hr with rfl | rfl <;> exact ⟨nofun, fun _ _ => ⟨nofun, nofun⟩⟩

/-- A way for `lease` to end. -/
theorem LeaseOutcome.finishes {until_ : Time} {r : Exit HostError (List LeasedHost)} {db : Db}
    (h : LeaseOutcome t service u groups ids until_ r db) (hin : InCalendar until_)
    (hfit : t.LimitsFit groups ∨ ¬ t.NoneOwn u ids) : LeaseFinishes t service u groups ids r := by
  cases h with
  | undated hno => exact ⟨nofun, fun _ _ => ⟨nofun, nofun⟩⟩
  | alreadyLeased hdated own hown hne => exact ⟨nofun, fun _ _ => ⟨nofun, nofun⟩⟩
  | badLimit hown hlimit =>
    exact absurd hfit (not_or.mpr ⟨Tables.limit_eq_none.mp hlimit, not_not.mpr hown⟩)
  | leaseLimit hown limit hlimit hlt =>
    refine ⟨nofun, fun limit' hlimit' => ⟨fun _ => ?_, nofun⟩⟩
    rw [← (Tables.limit_eq_some.mp hlimit).2.unique hlimit']
    exact hlt
  | overflow hown hfits hout => exact absurd hin hout
  | refused hown hfits _ hno => exact ⟨nofun, fun _ _ => ⟨nofun, nofun⟩⟩
  | granted hown hfits _ hx order leased hleased =>
    obtain ⟨limit, hlimit, hle⟩ := hfits
    refine ⟨nofun, fun limit' hlimit' => ⟨nofun, fun _ _ => ?_⟩⟩
    rw [← (Tables.limit_eq_some.mp hlimit).2.unique hlimit']
    exact hle

theorem LeaseRandomOutcome.finishes {until_ : Time} {r : Exit HostError LeasedHost} {db : Db}
    (h : LeaseRandomOutcome t service u groups groupId until_ r db) (hin : InCalendar until_)
    (hfit : t.LimitsFit groups) : LeaseRandomFinishes t service u groups r := by
  cases h with
  | badLimit hlimit => exact absurd hfit (Tables.limit_eq_none.mp hlimit)
  | undated hlimit hno => exact ⟨nofun, fun _ _ => ⟨nofun, nofun⟩⟩
  | leaseLimit hdated limit hlimit hle =>
    refine ⟨nofun, fun limit' hlimit' => ⟨fun _ => ?_, nofun⟩⟩
    rw [← (Tables.limit_eq_some.mp hlimit).2.unique hlimit']
    exact hle
  | thereIsNoFreeHosts hdated limit hlimit hlt hnone => exact ⟨nofun, fun _ _ => ⟨nofun, nofun⟩⟩
  | overflow hdated limit hlimit hlt hfree hout => exact absurd hin hout
  | refused hdated limit hlimit hlt => exact ⟨nofun, fun _ _ => ⟨nofun, nofun⟩⟩
  | granted hdated limit hlimit hlt =>
    refine ⟨nofun, fun limit' hlimit' => ⟨nofun, fun _ _ => ?_⟩⟩
    rw [← (Tables.limit_eq_some.mp hlimit).2.unique hlimit']
    exact hlt

/-- No way is left but one. -/
theorem LeaseOutcome.panics {until_ : Time} {r : Exit HostError (List LeasedHost)} {db : Db}
    (h : LeaseOutcome t service u groups ids until_ r db) (hown : t.NoneOwn u ids)
    (hlimit : t.limit service groups = none) : ∃ msg, r = .panic msg := by
  have hnone := Tables.noneOwn_iff.mp hown
  cases h with
  | undated hno => exact absurd hnone.1 hno
  | alreadyLeased hdated own hperm hne =>
    rw [hnone.2] at hperm
    exact absurd hperm.eq_nil hne
  | badLimit => exact ⟨_, rfl⟩
  | leaseLimit _ limit hsome => cases hlimit.symm.trans hsome
  | overflow => exact ⟨_, rfl⟩
  | refused _ hfits =>
    obtain ⟨limit, hsome, -⟩ := hfits
    cases hlimit.symm.trans hsome
  | granted _ hfits =>
    obtain ⟨limit, hsome, -⟩ := hfits
    cases hlimit.symm.trans hsome

theorem LeaseRandomOutcome.panics {until_ : Time} {r : Exit HostError LeasedHost} {db : Db}
    (h : LeaseRandomOutcome t service u groups groupId until_ r db)
    (hlimit : t.limit service groups = none) : ∃ msg, r = .panic msg := by
  cases h with
  | badLimit => exact ⟨_, rfl⟩
  | undated hsome => exact absurd hlimit hsome
  | leaseLimit _ limit hsome => cases hlimit.symm.trans hsome
  | thereIsNoFreeHosts _ limit hsome => cases hlimit.symm.trans hsome
  | overflow => exact ⟨_, rfl⟩
  | refused _ limit hsome => cases hlimit.symm.trans hsome
  | granted _ limit hsome => cases hlimit.symm.trans hsome

section Calendar

variable {now : Time}

/-- **`lease` finishes** unless it reads the limit and a row is negative. -/
theorem achieves_lease_iff (hin : InCalendar (now + leaseFor)) :
    (service.lease u groups ids leaseFor).Achieves (.at now) p ⟨t.db, n⟩
        (fun r _ => LeaseFinishes t service u groups ids r) ↔
      t.LimitsFit groups ∨ ¬ t.NoneOwn u ids := by
  constructor
  · intro hfinishes
    by_contra hno
    obtain ⟨hunfit, hown⟩ := not_or.mp hno
    -- A run in which nothing fails takes the one way that is left.
    have hcalm : (service.lease u groups ids leaseFor).Achieves (.calm now) p ⟨t.db, n⟩
        (Comes (.calm now) t fun now => LeaseOutcome t service u groups ids (now + leaseFor)) :=
      achieves_lease n
    obtain ⟨r, w', hends, hcomes⟩ := hcalm.exists_ends_at
    rcases hcomes with ⟨now', -, houtcome⟩ | ⟨hf, -⟩
    · obtain ⟨msg, hmsg⟩ := houtcome.panics (not_not.mp hown) (Tables.limit_eq_none.mpr hunfit)
      exact (Prog.Achieves.of_ends (actIn (.at now)) p hfinishes hends).1 msg hmsg
    · cases hf
  · intro hfit
    refine (achieves_lease n).mono fun r w' hcomes => ?_
    rcases hcomes with ⟨now', hnow, houtcome⟩ | ⟨-, hr, -⟩
    · rw [hnow now rfl] at houtcome
      exact houtcome.finishes hin hfit
    · exact leaseFinishes_io hr

/-- **`lease_random` finishes** unless a row is negative. -/
theorem achieves_leaseRandom_iff (hin : InCalendar (now + leaseFor)) :
    (service.leaseRandom u groups leaseFor groupId).Achieves (.at now) p ⟨t.db, n⟩
        (fun r _ => LeaseRandomFinishes t service u groups r) ↔ t.LimitsFit groups := by
  constructor
  · intro hfinishes
    by_contra hunfit
    have hcalm : (service.leaseRandom u groups leaseFor groupId).Achieves (.calm now) p ⟨t.db, n⟩
        (Comes (.calm now) t fun now =>
          LeaseRandomOutcome t service u groups groupId (now + leaseFor)) := achieves_leaseRandom n
    obtain ⟨r, w', hends, hcomes⟩ := hcalm.exists_ends_at
    rcases hcomes with ⟨now', -, houtcome⟩ | ⟨hf, -⟩
    · obtain ⟨msg, hmsg⟩ := houtcome.panics (Tables.limit_eq_none.mpr hunfit)
      exact (Prog.Achieves.of_ends (actIn (.at now)) p hfinishes hends).1 msg hmsg
    · cases hf
  · intro hfit
    refine (achieves_leaseRandom n).mono fun r w' hcomes => ?_
    rcases hcomes with ⟨now', hnow, houtcome⟩ | ⟨-, hr, -⟩
    · rw [hnow now rfl] at houtcome
      exact houtcome.finishes hin hfit
    · exact leaseRandomFinishes_io hr

end Calendar

/-- The limit itself. -/
theorem achieves_limit_iff {no : Nat} :
    (service.getLeaseLimit ⟨no⟩ groups).Achieves .any p ⟨t.db, n⟩
        (fun r _ => (∃ limit, r = .ok limit ∧ t.IsLimit service groups limit) ∨ r = .err .io) ↔
      t.LimitsFit groups := by
  constructor
  · intro hreturns
    by_contra hunfit
    have hcalm : (service.getLeaseLimit ⟨no⟩ groups).Achieves (.calm 0) p ⟨t.db, n⟩
        (fun r _ => ∃ msg, r = .panic msg) :=
      achieves_getLeaseLimit (t := t) (t.view_db _)
        (fun limit hlimit => absurd (Tables.limit_eq_some.mp hlimit).1 hunfit)
        (fun _ => ⟨_, rfl⟩) nofun
    obtain ⟨r, w', hends, msg, rfl⟩ := hcalm.exists_ends
    rcases hreturns.of_ends hends with ⟨limit, hr, -⟩ | hr <;> cases hr
  · intro hfit
    refine achieves_getLeaseLimit (t := t) (t.view_db _) (fun limit hlimit => ?_)
      (fun hnone => absurd hfit (Tables.limit_eq_none.mp hnone)) fun _ => .inr rfl
    exact .inl ⟨limit, rfl, (Tables.limit_eq_some.mp hlimit).2⟩

/-- **A limit table and a user's groups are safe exactly if no matching row is negative**: all
    requests of the user whose deadline is in the calendar finish then, and use the largest matching
    limit or the default, the same one for every list of the same groups. A single request is safe
    also when it is turned down before it reads the limit. -/
theorem limits_safe_iff (t : Tables) (service : HostsService) (u : UserId) (groups : List String)
    (p : Pid) (n : Nat) :
    (((∀ ids leaseFor now, InCalendar (now + leaseFor) →
          (service.lease u groups ids leaseFor).Achieves (.at now) p ⟨t.db, n⟩
            fun r _ => LeaseFinishes t service u groups ids r) ∧
        (∀ leaseFor groupId now, InCalendar (now + leaseFor) →
          (service.leaseRandom u groups leaseFor groupId).Achieves (.at now) p ⟨t.db, n⟩
            fun r _ => LeaseRandomFinishes t service u groups r) ∧
        (∀ no, (service.getLeaseLimit ⟨no⟩ groups).Achieves .any p ⟨t.db, n⟩ fun r _ =>
          (∃ limit, r = .ok limit ∧ t.IsLimit service groups limit) ∨ r = .err .io) ∧
        ∀ groups', (∀ g, g ∈ groups ↔ g ∈ groups') →
          t.limit service groups' = t.limit service groups) ↔
      t.LimitsFit groups) ∧
    (∀ ids leaseFor now, InCalendar (now + leaseFor) →
      ((service.lease u groups ids leaseFor).Achieves (.at now) p ⟨t.db, n⟩
          (fun r _ => LeaseFinishes t service u groups ids r) ↔
        t.LimitsFit groups ∨ ¬ t.NoneOwn u ids)) ∧
    ∀ leaseFor groupId now, InCalendar (now + leaseFor) →
      ((service.leaseRandom u groups leaseFor groupId).Achieves (.at now) p ⟨t.db, n⟩
          (fun r _ => LeaseRandomFinishes t service u groups r) ↔ t.LimitsFit groups) := by
  refine ⟨⟨?_, ?_⟩, fun _ _ _ hin => achieves_lease_iff hin,
    fun _ _ _ hin => achieves_leaseRandom_iff hin⟩
  · intro hsafe
    -- One random lease that finishes is enough.
    have hin : InCalendar (0 + 0) := by decide
    exact (achieves_leaseRandom_iff hin).mp (hsafe.2.1 0 ⟨0⟩ 0 hin)
  · intro hfit
    refine ⟨fun _ _ _ hin => (achieves_lease_iff hin).mpr (.inl hfit),
      fun _ _ _ hin => (achieves_leaseRandom_iff hin).mpr hfit,
      fun _ => achieves_limit_iff.mpr hfit, ?_⟩
    exact fun groups' hsame => (Tables.limit_congr hsame).symm

/-- The group `staff` has the limit −1. -/
def negativeSmall : Tables where
  users := [alice, bob]
  hosts := [host1 none, host2]
  groups := [⟨⟨1⟩, "group"⟩]
  leaseLimits := [⟨"staff", -1⟩, ⟨"everybody", 10⟩]
  nextUserId := 3
  users_pkey := nodup_alice_bob
  hosts_pkey := by decide
  leaseLimits_pkey := by decide
  hosts_user_id_fkey := by simp [host1, host2]
  hosts_group_id_fkey := by simp [host1, host2]

/-- `alice` asks for a free host, and for any host of the group. -/
theorem not_limits_safe :
    (∃ msg w', ((⟨2⟩ : HostsService).lease alice.id ["everybody", "staff"] [⟨1⟩] 100).Ends (.task 0)
      negativeSmall.world (.panic msg) w') ∧
    ∃ msg w', ((⟨2⟩ : HostsService).leaseRandom alice.id ["everybody", "staff"] 100 ⟨1⟩).Ends
      (.task 0) negativeSmall.world (.panic msg) w' := by
  constructor
  · obtain ⟨r, w', hends, hr⟩ := Prog.exists_ends_of_exec act (.task 0)
      (x := (⟨2⟩ : HostsService).lease alice.id ["everybody", "staff"] [⟨1⟩] 100)
      (s := negativeSmall.world) [{}, {}, {}, {}]
      (fun r => r == .panic "called `Result::unwrap()` on an `Err` value") (by decide +kernel)
    obtain rfl := eq_of_beq hr
    exact ⟨_, w', hends⟩
  · obtain ⟨r, w', hends, hr⟩ := Prog.exists_ends_of_exec act (.task 0)
      (x := (⟨2⟩ : HostsService).leaseRandom alice.id ["everybody", "staff"] 100 ⟨1⟩)
      (s := negativeSmall.world) [{}, {}, {}]
      (fun r => r == .panic "called `Result::unwrap()` on an `Err` value") (by decide +kernel)
    obtain rfl := eq_of_beq hr
    exact ⟨_, w', hends⟩

end Tachikoma
