import Mathlib.Data.Finset.Card
import Tachikoma.Proof.Coupling
import Tachikoma.Proof.Gap

/-!
# The lease limit

A request counts the hosts its user holds, compares the count with the limit, and grants. Requests
of one user that overlap count the same hosts and each of them grants; the limit holds as long as,
at every commit that grants hosts to the user, the user holds no more than the request has counted
(`CountHolds`).
-/

set_option autoImplicit false

namespace Tachikoma

open Interleaving Versioned Unordered

/-! ## Holdings -/

/-- The hosts that the user holds, for everybody. -/
def held (u : UserId) (w : World) : Finset HostId :=
  (w.hostIds.filter fun id => ∃ r ∈ w.host id, r.userId = some u).toFinset

@[simp] theorem mem_held {u : UserId} {w : World} {id : HostId} :
    id ∈ held u w ↔ ∃ r, w.host id = some r ∧ r.userId = some u := by
  simp only [held, List.mem_toFinset, List.mem_filter, decide_eq_true_eq, Option.mem_def]
  constructor
  · rintro ⟨_, h⟩; exact h
  · rintro ⟨r, hr, hu⟩; exact ⟨World.mem_hostIds hr, r, hr, hu⟩

theorem held_congr {u : UserId} {w w' : World} (h : ∀ id, w'.host id = w.host id) :
    held u w' = held u w := by
  ext id
  rw [mem_held, mem_held, h]

/-- The hosts that an event grants to the user; `w` is the world before it. -/
def grants (u : UserId) (w : World) (ev : Ev) : Finset HostId :=
  (w.hostIds.filter fun id => ∃ r ∈ committedRow id ev, r.userId = some u).toFinset

theorem mem_grants {u : UserId} {p : Pid} {n : Nat} {e : Effect} {r : e.Res} {w w' : World}
    {id : HostId} : id ∈ grants u w (.did p n e r w w') ↔
      ∃ row, committedRow id (.did p n e r w w') = some row ∧ row.userId = some u := by
  simp only [grants, List.mem_toFinset, List.mem_filter, decide_eq_true_eq, Option.mem_def]
  constructor
  · rintro ⟨_, h⟩; exact h
  · rintro ⟨row, hrow, hu⟩
    obtain ⟨tx, rfl, hp⟩ := pending_of_committedRow hrow
    exact ⟨World.mem_hostIds_of_pending hp, row, hrow, hu⟩

/-- The world in which the `n`-th call of `p` asked for the hosts its user holds. -/
def counting (p : Pid) (n : Nat) : Ev → Option World
  | .did q m (.fetch _ (.getLeasedHosts _)) _ w _ => if q = p ∧ m = n then some w else none
  | _ => none

/-- The world that the `n`-th call of `p` has counted in: the one in which it asked first. -/
def counted (p : Pid) (n : Nat) (tr : Trace) : Option World :=
  (tr.filterMap (counting p n)).getLast?

/-- When a commit grants hosts to the user, the user holds, besides these, no more than the request
    has counted. -/
def CountHolds (u : UserId) (h : History) (ev : Ev) : Prop :=
  (grants u h.state ev).Nonempty → ∀ w ∈ counted ev.pid ev.calls h.trace,
    (held u h.state \ grants u h.state ev).card ≤ (held u w).card

instance (u : UserId) (h : History) (ev : Ev) : Decidable (CountHolds u h ev) := by
  unfold CountHolds
  infer_instance

/-- The calls on leases, all with one service and every user's own groups. -/
def limited (service : HostsService) (groups : UserId → List String) (_ : Pid) : Call → Prop
  | .lease self u userGroups _ _ => self = service ∧ userGroups = groups u
  | .leaseRandom self u userGroups _ _ => self = service ∧ userGroups = groups u
  | .free .. => True
  | .freeAll .. => True
  | _ => False

instance (service : HostsService) (groups : UserId → List String) :
    ∀ p κ, Decidable (limited service groups p κ)
  | _, .lease .. => inferInstanceAs (Decidable (_ ∧ _))
  | _, .leaseRandom .. => inferInstanceAs (Decidable (_ ∧ _))
  | _, .free .. => inferInstanceAs (Decidable True)
  | _, .freeAll .. => inferInstanceAs (Decidable True)
  | _, .extendUserHosts .. => inferInstanceAs (Decidable False)
  | _, .linkUser .. => inferInstanceAs (Decidable False)
  | _, .authenticate .. => inferInstanceAs (Decidable False)
  | _, .release => inferInstanceAs (Decidable False)
  | _, .notifyReleasedHosts .. => inferInstanceAs (Decidable False)
  | _, .notifySoonRelease .. => inferInstanceAs (Decidable False)

/-- The steps of runs in which the gaps of `u`'s requests are harmless. -/
def LimitCond (service : HostsService) (groups : UserId → List String) (u : UserId) (h : History)
    (ev : Ev) : Prop :=
  Machine.Calling (limited service groups) h ev ∧ CountHolds u h ev

instance (service : HostsService) (groups : UserId → List String) (u : UserId) (h : History)
    (ev : Ev) : Decidable (LimitCond service groups u h ev) :=
  inferInstanceAs (Decidable (_ ∧ _))

theorem counted_push {p : Pid} {n : Nat} {w : World} {h : History}
    (hw : counted p n h.trace = some w) (ev : Ev) :
    counted p n (h.push ev).trace = some w := getLast?_filterMap_push hw ev

theorem counting_of_ne {p : Pid} {n : Nat} {ev : Ev} (h : ev.pid ≠ p) : counting p n ev = none := by
  unfold counting
  split
  · exact if_neg fun hp => h hp.1
  · rfl

/-! ## One commit -/

section Commit

variable {u : UserId} {L : Nat} {p : Pid} {n : Nat}

/-- What the transactions of a task have pending for `u` is among `S`, which fits under the limit on
    top of what the call has counted. -/
structure Granting (u : UserId) (L : Nat) (p : Pid) (n : Nat) (S : Finset HostId) (h : History) :
    Prop where
  pending : h.state.db.hosts.Holds fun x id v =>
    x.pid = p → ∀ r, v = some r → r.userId = some u → id ∈ S
  fits : S = ∅ ∨ ∃ w, counted p n h.trace = some w ∧ (held u w).card + S.card ≤ L

theorem Granting.stable {Cond : History → Ev → Prop} {Inv : History → Prop} {S : Finset HostId} :
    machine.Stable Cond Inv p (Granting u L p n S) := by
  intro h ev _ hA hne hl _
  refine ⟨?_, hA.fits.imp_right fun ⟨w, hw, hle⟩ => ⟨w, counted_push hw ev, hle⟩⟩
  cases ev with
  | called q m κ => exact hA.pending
  | did q m e r w w' =>
    obtain ⟨rfl, hacts⟩ := acts_of_legal hl
    exact hacts.hosts_holds hA.pending fun _ _ _ _ _ _ _ hp => absurd hp hne

/-- Effects of the task that write no row of `u`. -/
theorem Granting.did {S : Finset HostId} {h : History} (hA : Granting u L p n S h) {e : Effect}
    {r : e.Res} {w' : World} (hacts : Acts p h.state e r w')
    (hset : ∀ tx x row, e = .execute tx (.hosts x) → (x.set row).userId ≠ some u) :
    Granting u L p n S (h.push (.did p n e r h.state w')) :=
  ⟨hacts.hosts_holds hA.pending fun tx x id row he _ _ _ r' hr' hu => by
      cases hr'; exact absurd hu (hset tx x row he),
    hA.fits.imp_right fun ⟨w, hw, hle⟩ => ⟨w, counted_push hw _, hle⟩⟩

/-- After any effect `u` holds no more than the limit. -/
theorem Granting.held_le {S : Finset HostId} {h : History} (hA : Granting u L p n S h)
    (hw : Written h.state) (hle : (held u h.state).card ≤ L) {e : Effect} {r : e.Res} {w' : World}
    (hacts : Acts p h.state e r w') (hc : CountHolds u h (.did p n e r h.state w')) :
    (held u w').card ≤ L := by
  -- What `u` holds afterwards it held before, or this commit grants it.
  have hsub : held u w' ⊆ (held u h.state \ grants u h.state (.did p n e r h.state w')) ∪
      grants u h.state (.did p n e r h.state w') := by
    intro id hid
    obtain ⟨row, hrow, hu⟩ := mem_held.mp hid
    rw [hacts.host_eq hw n id] at hrow
    rw [Finset.sdiff_union_self_eq_union, Finset.mem_union]
    cases hnew : committedRow id (.did p n e r h.state w') with
    | none =>
      rw [hnew, Option.none_or] at hrow
      exact .inl (mem_held.mpr ⟨row, hrow, hu⟩)
    | some new =>
      rw [hnew, Option.some_or] at hrow
      cases hrow
      exact .inr (mem_grants.mpr ⟨row, hnew, hu⟩)
  have hgrants : grants u h.state (.did p n e r h.state w') ⊆ S := by
    intro id hid
    obtain ⟨row, hrow, hu⟩ := mem_grants.mp hid
    obtain ⟨tx, -, hp⟩ := pending_of_committedRow hrow
    exact hA.pending id _ _ hp rfl row rfl hu
  have hunion := (Finset.card_le_card hsub).trans (Finset.card_union_le _ _)
  -- A commit that grants something is counted: besides what it grants, `u` holds what the request
  -- has read.
  rcases Finset.eq_empty_or_nonempty (grants u h.state (.did p n e r h.state w')) with hnone | hsome
  · rw [hnone] at hunion
    simpa using hunion.trans (by simpa using hle)
  · rcases hA.fits with rfl | ⟨w, hcount, hfits⟩
    · exact absurd (Finset.subset_empty.mp hgrants) hsome.ne_empty
    · have hbesides := hc hsome w hcount
      have hcard := Finset.card_le_card hgrants
      omega

end Commit

/-! ## The calls -/

section Calls

variable {t : Tables} {service : HostsService} {groups : UserId → List String} {u : UserId}
  {L : Nat}
  {p : Pid} {n : Nat}

/-- The invariant: the foreign keys, the limit table as it was, and the limit. -/
structure Limited (t : Tables) (u : UserId) (L : Nat) (w : World) : Prop where
  keyed : Keyed w
  written : Written w
  limits : w.db.leaseLimits = t.leaseLimits
  held : (held u w).card ≤ L

theorem Limited.did {S : Finset HostId} {h : History} (hI : Limited t u L h.state)
    (hA : Granting u L p n S h) {e : Effect} {r : e.Res} {w' : World}
    (hacts : Acts p h.state e r w') (he : ∀ tx x, e = .execute tx x → ∃ hw, x = .hosts hw)
    (hc : CountHolds u h (.did p n e r h.state w')) : Limited t u L w' where
  keyed := hacts.keyed he hI.keyed
  written := hacts.written hI.written
  limits := hacts.groups_limits.2.trans hI.limits
  held := hA.held_le hI.written hI.held hacts hc

theorem Granting.of_clean {h : History} (hc : Clean p h.state) : Granting u L p n ∅ h :=
  ⟨hc.hosts.mono fun _ _ _ hne hp => absurd hp hne, .inl rfl⟩

/-- Calls that give no host to `u`. -/
theorem sketch_granting_nothing {W : Write → Prop} {x : Prog Effect Effect.Res Local}
    (hx : x.Emits (Writes W)) (hW : ∀ y, W y → ∃ hw, y = .hosts hw ∧ ∀ row,
      (HostWrite.set hw row).userId ≠ some u) :
    machine.Sketch (LimitCond service groups u) (fun h => Limited t u L h.state) p n
      (fun _ _ => True) x fun h => Clean p h.state := by
  have hkeep : machine.Sketch (LimitCond service groups u) (fun h => Limited t u L h.state) p n
      (fun _ => Granting u L p n ∅) x (Granting u L p n ∅) := by
    refine Machine.Sketch.keep hx Granting.stable fun h e env r w' he hI hA ha hc => ?_
    refine ⟨hI.did hA (acts_of_act ha) (fun tx y hy => ?_) hc.2, hA.did (acts_of_act ha) ?_⟩
    · obtain ⟨hw, rfl, -⟩ := hW y (he tx y hy)
      exact ⟨hw, rfl⟩
    · intro tx y row hy
      obtain ⟨hw, heq, hset⟩ := hW _ (he tx _ hy)
      cases heq
      exact hset row
  exact (hkeep.pre fun h _ hc => .of_clean hc).post fun _ _ _ _ => trivial

/-- Before the call has counted. -/
def Uncounted (p : Pid) (n : Nat) (h : History) : Prop :=
  Clean p h.state ∧ h.trace.filterMap (counting p n) = []

/-- After it has. -/
def Counts (u : UserId) (ids : List HostId) (p : Pid) (n : Nat) (h : History) : Prop :=
  Clean p h.state ∧ ∃ w, counted p n h.trace = some w ∧ held u w = ids.toFinset

theorem Uncounted.stable {Cond : History → Ev → Prop} {Inv : History → Prop} :
    machine.Stable Cond Inv p (Uncounted p n) := by
  refine stable_clean.and fun h ev _ hA hne _ _ => ?_
  rw [filterMap_push (counting_of_ne hne)]
  exact hA

theorem Counts.stable {Cond : History → Ev → Prop} {Inv : History → Prop} {ids : List HostId} :
    machine.Stable Cond Inv p (Counts u ids p n) :=
  stable_clean.and (.of_mono fun _ ev ⟨w, hw, hheld⟩ => ⟨w, counted_push hw ev, hheld⟩)

/-- The rows that a clean transaction decodes are what the user holds. -/
theorem held_of_decoded {w : World} (hk : Keyed w) (hclean : Clean p w) {tx : RegistryTx}
    {ls : List LeasedHost} (hd : Decoded ⟨p, tx.no⟩ w.db (fun r => r.userId = some u) ls) :
    held u w = (ls.map (·.id)).toFinset := by
  ext id
  rw [mem_held, List.mem_toFinset, List.mem_map]
  constructor
  · rintro ⟨r, hr, hu⟩
    obtain ⟨row, hrow⟩ := hk.fkey.1 id r hr u hu
    have huser : ({ row with id := u } : User) ∈ (w.db.view ⟨p, tx.no⟩).users :=
      mem_view_users.mpr ((hk.view_user _ u).trans hrow)
    obtain ⟨l, hl, hid, -⟩ := hd.complete id r _ ((hclean.view tx id).trans hr) hu hu huser
    exact ⟨l, hl, hid⟩
  · rintro ⟨l, hl, rfl⟩
    obtain ⟨r, hr, hu, -⟩ := hd.sound l hl
    exact ⟨r, (hclean.view tx l.id).symm.trans hr, hu⟩

/-- Whatever the transaction of the task has pending for `u` fits. -/
def Fits (u : UserId) (L : Nat) (p : Pid) (n : Nat) (h : History) : Prop :=
  ∃ S, Granting u L p n S h

theorem Fits.stable {Cond : History → Ev → Prop} {Inv : History → Prop} :
    machine.Stable Cond Inv p (Fits u L p n) :=
  fun h ev hI ⟨S, hA⟩ hne hl hc => ⟨S, Granting.stable h ev hI hA hne hl hc⟩

/-- How the parts of a request of `u` end: well under `A`, and otherwise with what fits. -/
def fitting {ε α : Type} (u : UserId) (L : Nat) (p : Pid) (n : Nat) (A : α → History → Prop) :
    Exit ε α → History → Prop :=
  exits A (Fits u L p n) (Fits u L p n)

/-- The count. -/
theorem sketch_count {tx : RegistryTx} :
    machine.Sketch (LimitCond service groups u) (fun h => Limited t u L h.state) p n
      (fitting u L p n fun leased h => Counts u ((leased : List LeasedHost).map (·.id)) p n h)
      (tx.getLeasedHosts u) (Uncounted p n) := by
  refine Task.sketch_fetch (fun _ => Counts.stable) Fits.stable ?_
    fun h _ hI hA _ => ⟨hI, ∅, .of_clean hA.1⟩
  intro h order leased hI hA hrun _
  refine ⟨hI, hA.1, h.state, ?_, held_of_decoded hI.keyed hA.1 (decoded_getLeasedHosts hrun)⟩
  have hcounting : counting p n (.did p n (.fetch tx (.getLeasedHosts u)) (.ok leased) h.state
      h.state) = some h.state := if_pos ⟨rfl, rfl⟩
  rw [counted, Hist.push_trace, List.filterMap_cons_some hcounting, hA.2]
  rfl

/-- The limit, which is the same for every request of the user. -/
theorem sketch_limit {A : History → Prop} {tx : RegistryTx}
    (hL : service.limitOf (t.leaseLimits.filter fun l => l.group ∈ groups u) = some L)
    (hA : machine.Stable (LimitCond service groups u) (fun h => Limited t u L h.state) p A)
    (hclean : ∀ h, A h → Clean p h.state)
    (hkeep : ∀ h r, A h → A (h.push (.did p n (.fetch tx (.getAdGroupsLeaseLimits (groups u))) r
      h.state h.state))) :
    machine.Sketch (LimitCond service groups u) (fun h => Limited t u L h.state) p n
      (fitting u L p n fun limit h => A h ∧ limit = L) (service.getLeaseLimit tx (groups u)) A := by
  refine Task.sketch_bind (B := fun limits h => A h ∧
      service.limitOf (limits : List AdGroupLeaseLimit) = some L) ?_ fun limits =>
      Machine.Sketch.of_fact fun hlimits => ?_
  · refine Task.sketch_fetch (fun _ => hA.and .const) Fits.stable ?_
      fun h err hI hAh _ => ⟨hI, ∅, .of_clean (hclean h hAh)⟩
    intro h order limits hI hAh hrun _
    refine ⟨hI, hkeep h _ hAh, ?_⟩
    cases Except.ok.inj hrun
    rw [service.limitOf_perm (arrange_perm order _)]
    simpa only [Db.view, hI.limits] using hL
  · rw [hlimits]
    exact Task.sketch_pure fun _ _ hAh => ⟨hAh, rfl⟩

/-- The update. -/
theorem Counts.update {leased hostsIds : List HostId} {h : History}
    (hA : Counts u leased p n h) (hle : leased.dedup.length + hostsIds.dedup.length ≤ L)
    {tx : RegistryTx} {until_ : Time} {r : Except SqlxError Unit} {w' : World}
    (hacts : Acts p h.state (.execute tx (.hosts (.leaseHosts u hostsIds until_))) r w') :
    Granting u L p n hostsIds.toFinset (h.push
      (.did p n (.execute tx (.hosts (.leaseHosts u hostsIds until_))) r h.state w')) := by
  obtain ⟨hclean, w, hw, hheld⟩ := hA
  refine ⟨?_, .inr ⟨w, counted_push hw _, ?_⟩⟩
  · have hpending : w'.db.hosts.Holds fun x id v => x.pid = p → id ∈ hostsIds.toFinset := by
      refine hacts.hosts_holds (hclean.hosts.mono fun _ _ _ hne hp => absurd hp hne) ?_
      intro tx' x id row he _ hsel _
      cases he
      exact List.mem_toFinset.mpr (of_decide_eq_true hsel)
    exact hpending.mono fun _ _ _ hin hp _ _ _ => hin hp
  · rw [hheld, List.card_toFinset, List.card_toFinset]
    exact hle

/-- From the update on. -/
theorem sketch_granted {S : Finset HostId} {ε α : Type} {x : Task ε α}
    (hx : Prog.Emits (Writes fun _ => False) x) :
    machine.Sketch (LimitCond service groups u) (fun h => Limited t u L h.state) p n
      (fitting u L p n fun _ => Fits u L p n) x (Granting u L p n S) := by
  refine (Machine.Sketch.keep hx Granting.stable fun h e env r w' he hI hA ha hc => ?_).post
    fun r h _ hA => ?_
  · exact ⟨hI.did hA (acts_of_act ha) (fun tx y hy => (he tx y hy).elim) hc.2,
      hA.did (acts_of_act ha) fun tx y _ hy => (he tx _ hy).elim⟩
  · cases r <;> exact ⟨S, hA⟩

/-- A request of `u` is a transaction that counts, and grants what fits. -/
theorem sketch_request {ε α : Type} {f : SqlxError → ε} {scope : RegistryTx → Task ε α}
    (hscope : ∀ tx, machine.Sketch (LimitCond service groups u) (fun h => Limited t u L h.state) p n
      (fitting u L p n fun _ => Fits u L p n) (scope tx) (Uncounted p n)) :
    machine.Sketch (LimitCond service groups u) (fun h => Limited t u L h.state) p n
      (fun _ _ => True) (withTx f scope) (Uncounted p n) := by
  refine Task.sketch_withTx (fun _ => Uncounted p n)
    (fun _ => fitting u L p n fun _ => Fits u L p n)
    (fun _ => Uncounted.stable) (fun _ => .true) ?_ ?_ hscope ?_
  · intro h tx w' hI hA ha hc
    refine ⟨hI.did (.of_clean hA.1) ha (by simp) hc.2, ha.clean (by simp) hA.1, ?_⟩
    rw [filterMap_push rfl]
    exact hA.2
  · intro h err w' hI hA ha hc
    exact ⟨hI.did (.of_clean hA.1) ha (by simp) hc.2, trivial⟩
  · intro tx r h w' hI hQ ha hc
    obtain ⟨S, hA⟩ : Fits u L p n h := by cases r <;> exact hQ
    exact ⟨hI.did hA ha (by simp) hc.2, trivial⟩

/-- The update of a request of `u`. -/
theorem sketch_update {leased hostsIds : List HostId}
    (hle : leased.dedup.length + hostsIds.dedup.length ≤ L) {tx : RegistryTx} {until_ : Time} :
    machine.Sketch (LimitCond service groups u) (fun h => Limited t u L h.state) p n
      (fitting u L p n fun _ => Granting u L p n hostsIds.toFinset)
      (tx.leaseHosts u hostsIds until_) (Counts u leased p n) := by
  refine Task.sketch_execute (fun _ => Granting.stable) Fits.stable ?_ ?_
  · intro h a w' hI hA ha hc
    exact ⟨hI.did (.of_clean hA.1) ha (fun tx x hx => by cases hx; exact ⟨_, rfl⟩) hc.2,
      hA.update hle ha⟩
  · intro h err w' hI hA ha hc
    exact ⟨hI.did (.of_clean hA.1) ha (fun tx x hx => by cases hx; exact ⟨_, rfl⟩) hc.2,
      _, hA.update hle ha⟩

theorem lease_limited
    (hL : service.limitOf (t.leaseLimits.filter fun l => l.group ∈ groups u) = some L)
    (hostsIds : List HostId) (leaseFor : TimeDelta) :
    machine.Sketch (LimitCond service groups u) (fun h => Limited t u L h.state) p n
      (fun _ _ => True) (service.lease u (groups u) hostsIds leaseFor) (Uncounted p n) := by
  refine sketch_request fun tx => ?_
  refine Task.sketch_bind (Task.sketch_mapErr sketch_count) fun leased => ?_
  dsimp only
  have hfits : ∀ h, Counts u ((leased : List LeasedHost).map (·.id)) p n h → Fits u L p n h :=
    fun h hA => ⟨∅, .of_clean hA.1⟩
  split
  · refine Task.sketch_bind (B := fun _ => Counts u (leased.map (·.id)) p n) ?_ fun _ =>
      Task.sketch_throw fun h _ hA => hfits h hA
    exact Task.sketch_hashOrder (fun _ => Counts.stable) fun h o hI hA _ =>
      ⟨hI, hA.1, hA.2.imp fun w hw => ⟨counted_push hw.1 _, hw.2⟩⟩
  -- The limit that is read is `L`, as nobody writes the limits.
  refine Task.sketch_bind (Task.sketch_mapErr (sketch_limit hL Counts.stable (fun _ hA => hA.1)
    fun h r hA => ⟨hA.1, hA.2.imp fun w hw => ⟨counted_push hw.1 _, hw.2⟩⟩)) fun limit =>
    Machine.Sketch.of_fact fun hlimit => ?_
  subst hlimit
  split
  · exact Task.sketch_throw fun h _ hA => hfits h hA
  rename_i hle
  refine Task.sketch_bind (B := fun _ => Counts u (leased.map (·.id)) p n) ?_ fun now => ?_
  · exact Task.sketch_utcNow (fun _ => Counts.stable) fun h o hI hA _ =>
      ⟨hI, hA.1, hA.2.imp fun w hw => ⟨counted_push hw.1 _, hw.2⟩⟩
  refine Task.sketch_bind (B := fun _ => Counts u (leased.map (·.id)) p n)
    (Task.sketch_addTimeDelta (fun _ _ _ hA => hA) fun h _ hA => hfits h hA) fun untill => ?_
  refine Task.sketch_bind (Task.sketch_mapErr (sketch_update (by omega))) fun _ => ?_
  exact sketch_granted (writes_of_writesIn <| Task.emits_bind (Task.emits_mapErr emits_fetch_in)
    fun _ => Task.emits_bind (Task.emits_mapErr emits_commit_in) fun _ => Task.emits_pure _)

theorem leaseRandom_limited
    (hL : service.limitOf (t.leaseLimits.filter fun l => l.group ∈ groups u) = some L)
    (leaseFor : TimeDelta) (groupId : GroupId) :
    machine.Sketch (LimitCond service groups u) (fun h => Limited t u L h.state) p n
      (fun _ _ => True) (service.leaseRandom u (groups u) leaseFor groupId) (Uncounted p n) := by
  refine sketch_request fun tx => ?_
  refine Task.sketch_bind (Task.sketch_mapErr (sketch_limit hL Uncounted.stable (fun _ hA => hA.1)
    fun h r hA => ⟨hA.1, by rw [filterMap_push rfl]; exact hA.2⟩)) fun limit =>
    Machine.Sketch.of_fact fun hlimit => ?_
  subst hlimit
  refine Task.sketch_bind (Task.sketch_mapErr sketch_count) fun leased => ?_
  have hkeep : ∀ h ev, Counts u ((leased : List LeasedHost).map (·.id)) p n h →
      (h.push ev).state = h.state →
        Counts u (leased.map (·.id)) p n (h.push ev) := fun h ev hA hs =>
    ⟨by rw [hs]; exact hA.1, hA.2.imp fun w hw => ⟨counted_push hw.1 _, hw.2⟩⟩
  split
  · exact Task.sketch_throw fun h _ hA => ⟨∅, .of_clean hA.1⟩
  rename_i hlt
  -- The host to be picked counts as one more.
  have hle : (leased.map (·.id)).dedup.length + 1 ≤ limit := by
    have hdedup := (List.dedup_sublist (leased.map (·.id))).length_le
    rw [List.length_map] at hdedup
    omega
  refine Task.sketch_bind (B := fun _ => Counts u (leased.map (·.id)) p n) (Task.sketch_mapErr ?_)
    fun host => ?_
  · exact Task.sketch_fetch (fun _ => Counts.stable) Fits.stable
      (fun h _ _ hI hA _ _ => ⟨hI, hkeep h _ hA rfl⟩)
      fun h _ hI hA _ => ⟨hI, ∅, .of_clean hA.1⟩
  split
  · rename_i host
    refine Task.sketch_bind (B := fun _ => Counts u (leased.map (·.id)) p n) ?_ fun now => ?_
    · exact Task.sketch_utcNow (fun _ => Counts.stable) fun h _ hI hA _ => ⟨hI, hkeep h _ hA rfl⟩
    refine Task.sketch_bind (B := fun _ => Counts u (leased.map (·.id)) p n)
      (Task.sketch_addTimeDelta (fun _ _ _ hA => hA) fun h _ hA => ⟨∅, .of_clean hA.1⟩)
      fun untill => ?_
    refine Task.sketch_bind (Task.sketch_mapErr (sketch_update (by simpa using hle))) fun _ => ?_
    exact sketch_granted (writes_of_writesIn <| Task.emits_bind (Task.emits_mapErr emits_fetch_in)
      fun _ => Task.emits_bind (Task.emits_mapErr emits_commit_in) fun _ => Task.emits_pure _)
  · exact Task.sketch_throw fun h _ hA => ⟨∅, .of_clean hA.1⟩

/-- A call that begins has not counted. -/
theorem uncounted_of_call {h : History} (hpast : ∀ ev ∈ h.trace, ev.pid = p → ev.calls ≤ n)
    (hclean : Clean p h.state) {κ : Call} : Uncounted p (n + 1) (h.push (.called p (n + 1) κ)) := by
  refine ⟨hclean, ?_⟩
  rw [filterMap_push rfl, List.filterMap_eq_nil_iff]
  intro ev hev
  unfold counting
  split
  · refine if_neg fun hp => ?_
    have hle := hpast _ hev hp.1
    simp only [Event.calls] at hle
    omega
  · rfl

end Calls

/-- **The limit is a limit**, in every run in which the gaps of the user's requests are harmless:
    started with no more hosts than the limit, the user never holds more. -/
theorem held_le_of_run (t : Tables) (timer : ReleaseTimer) (service : HostsService)
    (groups : UserId → List String) (u : UserId) {L : Nat}
    (hL : service.limitOf (t.leaseLimits.filter fun l => l.group ∈ groups u) = some L)
    (h₀ : (held u t.world).card ≤ L) {c : System}
    (hrun : machine.Run (LimitCond service groups u) (t.systemWith timer) c) :
    (held u c.hist.state).card ≤ L := by
  refine (run_sound (fun h => Limited t u L h.state) (fun _ _ _ _ => True) (fun _ _ hc => hc.1)
    ⟨t.world_keyed, t.hosts_holds _, rfl, h₀⟩ (fun _ _ _ => trivial) (fun _ _ _ => .true)
    (fun _ _ _ _ _ hI => hI) ?_ hrun).1.held
  intro p n κ l hok
  refine ⟨Uncounted p (n + 1), Uncounted.stable,
    fun h hpast _ _ hclean => uncounted_of_call hpast hclean, ?_⟩
  have hnothing : (∀ y, κ.writes y → ∃ hw, y = .hosts hw ∧ ∀ row,
      (HostWrite.set hw row).userId ≠ some u) →
      machine.Sketch (LimitCond service groups u) (fun h => Limited t u L h.state) p (n + 1)
        (fun _ _ => True) (κ.body l) (Uncounted p (n + 1)) := fun hW =>
    (sketch_granting_nothing (κ.emits l) hW).pre fun _ _ hA => hA.1
  -- Only a lease of `u` itself can grant `u` something.
  cases κ with
  | lease self v userGroups hostsIds leaseFor =>
    obtain ⟨rfl, rfl⟩ := hok
    by_cases hv : v = u
    · subst hv
      rcases Call.body_cases (.lease self v (groups v) hostsIds leaseFor) l with hb | hb
      · rw [hb]; exact fun _ _ _ => trivial
      · rw [hb]
        exact .bind (lease_limited hL hostsIds leaseFor) fun _ _ _ _ => trivial
    · refine hnothing fun y hy => ?_
      obtain ⟨until_, rfl⟩ := hy
      exact ⟨_, rfl, fun row hu => hv (Option.some.inj hu)⟩
  | leaseRandom self v userGroups leaseFor groupId =>
    obtain ⟨rfl, rfl⟩ := hok
    by_cases hv : v = u
    · subst hv
      rcases Call.body_cases (.leaseRandom self v (groups v) leaseFor groupId) l with hb | hb
      · rw [hb]; exact fun _ _ _ => trivial
      · rw [hb]
        exact .bind (leaseRandom_limited hL leaseFor groupId) fun _ _ _ _ => trivial
    · refine hnothing fun y hy => ?_
      obtain ⟨id, until_, rfl⟩ := hy
      exact ⟨_, rfl, fun row hu => hv (Option.some.inj hu)⟩
  | free => exact hnothing fun y hy => ⟨_, hy, fun row => nofun⟩
  | freeAll => exact hnothing fun y hy => ⟨_, hy, fun row => nofun⟩
  | _ => cases hok

/-- With a limit of one, `alice` leases a host while a second request of hers is refused. -/
theorem held_le_of_run_small : ∃ c,
    machine.Run (LimitCond ⟨1⟩ (fun _ => []) alice.id) ((small none).systemWith .new) c ∧
      (held alice.id c.hist.state).card ≤ 1 := by
  obtain ⟨c, hrun, -⟩ := machine.exists_run_of_exec (LimitCond ⟨1⟩ (fun _ => []) alice.id)
    ((small none).systemWith .new)
    [.call (.task 0) (.lease ⟨1⟩ alice.id [] [⟨1⟩] 100),
      .call (.task 1) (.leaseRandom ⟨1⟩ alice.id [] 100 ⟨1⟩),
      .act (.task 0) {}, .act (.task 0) {}, .act (.task 1) {}, .act (.task 0) {},
      .act (.task 0) {}, .act (.task 1) {}, .act (.task 0) {}, .act (.task 0) {},
      .act (.task 0) {}, .act (.task 1) {}, .act (.task 1) {}, .act (.task 0) {}]
    (fun c => (held alice.id c.hist.state).card == 1) (by decide +kernel)
  exact ⟨c, hrun, held_le_of_run _ _ ⟨1⟩ (fun _ => []) alice.id (by decide) (by decide +kernel)
    hrun⟩

/-- With a limit of one, two requests of `alice` overlap, and she holds two hosts. -/
theorem not_held_le : ∃ c,
    machine.Run (Machine.Calling (limited ⟨1⟩ fun _ => [])) ((small none).systemWith .new) c ∧
      HostsService.limitOf ⟨1⟩ [] = some 1 ∧ (held alice.id (small none).world).card ≤ 1 ∧
      ¬ (held alice.id c.hist.state).card ≤ 1 := by
  obtain ⟨c, hrun, hc⟩ := machine.exists_run_of_exec
    (Machine.Calling (limited ⟨1⟩ fun _ => [])) ((small none).systemWith .new)
    [.call (.task 0) (.lease ⟨1⟩ alice.id [] [⟨1⟩] 100),
      .call (.task 1) (.lease ⟨1⟩ alice.id [] [⟨2⟩] 100),
      .act (.task 0) {}, .act (.task 0) {}, .act (.task 1) {}, .act (.task 1) {},
      .act (.task 0) {}, .act (.task 0) {}, .act (.task 0) {}, .act (.task 0) {},
      .act (.task 0) {}, .act (.task 0) {}, .act (.task 1) {}, .act (.task 1) {},
      .act (.task 1) {}, .act (.task 1) {}, .act (.task 1) {}, .act (.task 1) {}]
    (fun c => decide (¬ (held alice.id c.hist.state).card ≤ 1)) (by decide +kernel)
  exact ⟨c, hrun, by decide, by decide +kernel, of_decide_eq_true hc⟩

end Tachikoma
