import Tachikoma.Proof.ExtendGap
import Tachikoma.Requests

/-!
# How long a lease can get

Whoever leases over HTTP gets at most `MAX_LEASE` from now on: the pages, the API and the tools all
check that before they call the service (`Request.call_leaseFor_le`). The extend button moves
deadlines by the hours that the client sends, and nothing compares those with anything. It moves
only what it has read as expiring within the half hour, though, so hours below the maximum leave
room (`fits_of_expiring`), unless a host was leased or extended further between the read and the
update. **The maximum holds as long as nothing else happens** (`RoomLeft`).

An operation that changes a deadline has read the clock, and was not complete before.
-/

set_option autoImplicit false

namespace Tachikoma

open Interleaving Versioned

variable {ε α : Type} {p : Pid} {n : Nat}

/-- What the `n`-th call of `p` reads on the clock, if that is what the event does. -/
def clockOf (p : Pid) (n : Nat) : Ev → Option Time
  | .did q m .now t _ _ => if q = p ∧ m = n then some t else none
  | _ => none

/-- The clock readings of a call. -/
def readings (p : Pid) (n : Nat) (tr : Trace) : List Time := tr.filterMap (clockOf p n)

/-- Whenever a call has changed a deadline, the new one is at most `MAX_LEASE` after any time `t` at
    which the call may be complete. -/
def WithinMaximum (tr : Trace) : Prop :=
  ∀ p n e r w w', Event.did p n e r w w' ∈ tr → ∀ t, (∀ s ∈ readings p n tr, s ≤ t) →
    ∀ id row d, w'.host id = some row → row.leasedUntil = some d →
      (∀ row₀, w.host id = some row₀ → row₀.leasedUntil ≠ some d) → d ≤ t + MAX_LEASE

/-- The calls come in as requests, where a lease is asked for. -/
def arriving (p : Pid) (κ : Call) : Prop :=
  proper p κ ∧ (κ.leaseFor ≠ none ∨ (∃ tgHandle hours, κ = .extendUserHosts tgHandle hours) →
    ∃ service user request, Request.call service user request = some κ)

/-- The time before which the expiring hosts that the task `p` asks for end, if that is what the
    event does. -/
def expiryQuery (p : Pid) : Ev → Option Time
  | .did q _ (.fetch _ (.getExpiringHostsForUser _ until_)) _ _ _ =>
      if q = p then some until_ else none
  | _ => none

theorem expiryQuery_of_ne {ev : Ev} (h : ev.pid ≠ p) : expiryQuery p ev = none := by
  unfold expiryQuery
  split
  · rename_i q _ _ _ _ _ _ _
    exact if_neg h
  · rfl

/-- When a task extends leases, it does so by less than the maximum, and the hosts that were
    committed to since it read them still end before the time up to which it looked. -/
def RoomLeft (h : History) (ev : Ev) : Prop :=
  ∀ x ∈ extending ev, TimeDelta.hours x.hours.toInt < MAX_LEASE ∧ ∀ id ∈ x.ids,
    ∀ r ∈ committedSince (isExtendQuery x.task) id h.trace,
      ∀ until_ ∈ h.trace.findSome? (expiryQuery x.task), ∀ d ∈ r.leasedUntil, d < until_

instance (h : History) (ev : Ev) : Decidable (RoomLeft h ev) := by
  unfold RoomLeft
  infer_instance

/-- The steps of runs in which the extensions leave room. -/
def MaximumCond (h : History) (ev : Ev) : Prop := Machine.Calling arriving h ev ∧ RoomLeft h ev

/-- Hours below the maximum fit a host that is about to expire. -/
theorem fits_of_expiring {d now : Time} {hours : Int} (hd : d < now + EXPIRATION_NOTIFY_WINDOW)
    (hhours : TimeDelta.hours hours < MAX_LEASE) :
    d + TimeDelta.hours hours ≤ now + MAX_LEASE := by
  have hroom : EXPIRATION_NOTIFY_WINDOW + TimeDelta.hours hours ≤ MAX_LEASE := by
    -- The maximum is a number of hours, so what is below it is so by more than the half hour.
    change hours * 3600000000 < (63 * 24 + 23) * 3600000000 at hhours
    show (30 * 60000000 : Int) + hours * 3600000000 ≤ (63 * 24 + 23) * 3600000000
    omega
  calc d + TimeDelta.hours hours
      ≤ now + EXPIRATION_NOTIFY_WINDOW + TimeDelta.hours hours :=
        Int.add_le_add_right (Int.le_of_lt hd) _
    _ = now + (EXPIRATION_NOTIFY_WINDOW + TimeDelta.hours hours) := Int.add_assoc ..
    _ ≤ now + MAX_LEASE := Int.add_le_add_left hroom now

/-! ## Deadlines that are covered -/

/-- The call has read the clock at a time from which on the deadline is within the maximum. -/
def Covered (p : Pid) (n : Nat) (d : Time) (tr : Trace) : Prop :=
  ∃ s ∈ readings p n tr, d ≤ s + MAX_LEASE

theorem Covered.push {d : Time} {h : History} (hd : Covered p n d h.trace) (ev : Ev) :
    Covered p n d (h.push ev).trace := by
  obtain ⟨s, hs, hle⟩ := hd
  exact ⟨s, mem_filterMap_push hs, hle⟩

/-- Every deadline that was changed is covered by the call that did it. -/
def AllCovered (h : History) : Prop :=
  ∀ p n e r w w', Event.did p n e r w w' ∈ h.trace → ∀ id row d, w'.host id = some row →
    row.leasedUntil = some d → (∀ row₀, w.host id = some row₀ → row₀.leasedUntil ≠ some d) →
    Covered p n d h.trace

theorem AllCovered.withinMaximum {h : History} (hI : AllCovered h) : WithinMaximum h.trace := by
  intro p n e r w w' hev t ht id row d hrow hd hne
  obtain ⟨s, hs, hle⟩ := hI p n e r w w' hev id row d hrow hd hne
  exact Int.le_trans hle (Int.add_le_add_right (ht s hs) MAX_LEASE)

/-- The deadlines that the task has pending are covered. -/
def Covering (p : Pid) (n : Nat) (h : History) : Prop :=
  h.state.db.hosts.Holds fun x _ v => x.pid = p → ∀ row d, v = some row →
    row.leasedUntil = some d → Covered p n d h.trace

theorem Clean.covering {h : History} (hc : Clean p h.state) : Covering p n h :=
  hc.hosts.mono fun _ _ _ hne hpid => absurd hpid hne

theorem allCovered_nil (w : World) : AllCovered ⟨w, []⟩ :=
  fun _ _ _ _ _ _ hev => absurd hev List.not_mem_nil

theorem AllCovered.called {h : History} (hI : AllCovered h) (q : Pid) (m : Nat) (κ : Call) :
    AllCovered (h.push (.called q m κ)) := by
  intro p n e r w w' hev id row d hrow hd hne
  rw [Hist.push_trace] at hev
  have hev := (List.mem_cons.mp hev).resolve_left nofun
  exact (hI p n e r w w' hev id row d hrow hd hne).push _

section Step

variable {h : History} {e : Effect} {r : e.Res} {w' : World}

theorem AllCovered.did (hI : AllCovered h) (hA : Covering p n h) (hacts : Acts p h.state e r w') :
    AllCovered (h.push (.did p n e r h.state w')) := by
  intro q m e' r' w₁ w₂ hev id row d hrow hd hne
  rw [Hist.push_trace] at hev
  rcases List.mem_cons.mp hev with heq | hev
  · cases heq
    rcases hacts.host n id with heq | ⟨-, heq⟩
    · obtain ⟨tx, -, hp⟩ := pending_of_committedRow (heq.symm.trans hrow)
      exact (hA id _ _ hp rfl row d rfl hd).push _
    · exact absurd hd (hne row (heq.symm.trans hrow))
  · exact (hI q m e' r' w₁ w₂ hev id row d hrow hd hne).push _

theorem Covering.did {q : Pid} {m : Nat} (hA : Covering p n h) (hacts : Acts q h.state e r w')
    (hw : q = p → ∀ tx x id row d, e = .execute tx (.hosts x) →
      (h.state.db.hosts.cell id).view ⟨q, tx.no⟩ = some row → x.sel id row = true →
      (x.set row).leasedUntil = some d → Covered p n d h.trace) :
    Covering p n (h.push (.did q m e r h.state w')) := by
  have hkept := hacts.hosts_holds hA fun tx x id row he hrow hsel hpid row' d hrow' hd => by
    cases hrow'
    exact hw hpid tx x id row d he hrow hsel hd
  exact hkept.mono fun x id v hv hpid row d hrow hd => (hv hpid row d hrow hd).push _

/-- A step that is no `UPDATE` of hosts changes no row. -/
theorem Covering.kept {q : Pid} {m : Nat} (hA : Covering p n h) (hacts : Acts q h.state e r w')
    (he : ∀ tx x, e ≠ .execute tx (.hosts x)) : Covering p n (h.push (.did q m e r h.state w')) :=
  hA.did hacts fun _ tx x _ _ _ hx => absurd hx (he tx x)

end Step

variable {Cond : History → Ev → Prop}

theorem Covering.stable {Inv : History → Prop} : machine.Stable Cond Inv p (Covering p n) := by
  intro h ev _ hA hne hl _
  cases ev with
  | called q m κ =>
    exact Table.Holds.mono hA fun x id v hv hpid row d hrow hd => (hv hpid row d hrow hd).push _
  | did q m e r w w' =>
    obtain ⟨rfl, hacts⟩ := acts_of_legal hl
    exact hA.did hacts fun hq => absurd hq hne

/-! ## The calls -/

/-- Whatever the task ends with, what it has pending is covered. -/
def covered (p : Pid) (n : Nat) : Exit ε α → History → Prop :=
  exits (fun _ => Covering p n) (Covering p n) (Covering p n)

/-- A part that writes nothing. -/
theorem sketch_covered {x : Task ε α} (hx : Prog.Emits (Writes fun _ => False) x) :
    machine.Sketch Cond AllCovered p n (covered p n) x (Covering p n) := by
  refine (Machine.Sketch.keep hx Covering.stable ?_).post fun r _ _ hA => by cases r <;> exact hA
  intro h env e r w' he hI hA ha _
  exact ⟨hI.did hA (acts_of_act ha), hA.did (acts_of_act ha)
    fun _ tx x _ _ _ hx => (he tx _ hx).elim⟩

theorem sketch_withTx_covered {f : SqlxError → ε} {scope : RegistryTx → Task ε α}
    (hscope : ∀ tx, machine.Sketch Cond AllCovered p n (covered p n) (scope tx)
      fun h => Clean p h.state) :
    machine.Sketch Cond AllCovered p n (covered p n) (withTx f scope) fun h => Clean p h.state := by
  have hquiet : ∀ (h : History) (e : Effect) (r : e.Res) (w' : World),
      (∀ tx x, e ≠ .execute tx x) → AllCovered h → Covering p n h → Acts p h.state e r w' →
      AllCovered (h.push (.did p n e r h.state w')) ∧
        Covering p n (h.push (.did p n e r h.state w')) :=
    fun h e r w' he hI hA hacts => ⟨hI.did hA hacts, hA.kept hacts fun tx _ => he tx _⟩
  refine Task.sketch_withTx (fun _ h => Clean p h.state) (fun _ => covered p n)
    (fun _ => stable_clean) (stable_exits (fun _ => Covering.stable) Covering.stable
      Covering.stable) ?_ ?_ hscope ?_
  · exact fun h tx w' hI hc hacts _ =>
      ⟨(hquiet h _ _ w' (by simp) hI hc.covering hacts).1, hacts.clean (by simp) hc⟩
  · exact fun h err w' hI hc hacts _ => hquiet h _ _ w' (by simp) hI hc.covering hacts
  · intro tx r h w' hI hQ hacts _
    have hA : Covering p n h := by cases r <;> exact hQ
    obtain ⟨hI', hA'⟩ := hquiet h _ _ w' (by simp) hI hA hacts
    exact ⟨hI', by cases r <;> exact hA'⟩

/-- A statement that fails writes nothing. -/
theorem Acts.hosts_of_error {tx : RegistryTx} {x : Write} {err : SqlxError} {w w' : World}
    (h : Acts p w (.execute tx x) (.error err) w') : w'.db.hosts = w.db.hosts := by
  cases h with
  | quiet _ _ _ _ _ _ hhosts => exact hhosts
  | executeFails => rfl

/-- An update of host rows, whose deadlines are covered when it succeeds. -/
theorem sketch_update_covered {tx : RegistryTx} {x : HostWrite} {A : History → Prop}
    (hcovering : ∀ h, A h → Covering p n h)
    (hdeadlines : ∀ h w' id row d, Cond h (.did p n (.execute tx (.hosts x)) (.ok ()) h.state w') →
      A h → (h.state.db.hosts.cell id).view ⟨p, tx.no⟩ = some row → x.sel id row = true →
      (x.set row).leasedUntil = some d → Covered p n d h.trace) :
    machine.Sketch Cond AllCovered p n (exits (ε := SqlxError) (fun _ => Covering p n)
      (Covering p n)
      (Covering p n)) (tx.execute (.hosts x)) A := by
  refine Task.sketch_execute (fun _ => Covering.stable) Covering.stable ?_ ?_
  · intro h a w' hI hA hacts hc
    cases a
    refine ⟨hI.did (hcovering h hA) hacts, (hcovering h hA).did hacts
      fun _ tx' x' id row d he => ?_⟩
    cases he
    exact hdeadlines h w' id row d hc hA
  · intro h err w' hI hA hacts _
    refine ⟨hI.did (hcovering h hA) hacts, ?_⟩
    show Table.Holds _ w'.db.hosts
    rw [hacts.hosts_of_error]
    exact (hcovering h hA).mono fun _ _ _ hv hpid row d hrow hd => (hv hpid row d hrow hd).push _

/-- The end of a lease: the deadline is counted from a reading of the clock. -/
theorem sketch_grant {tx : RegistryTx} {userId : UserId} {hostsIds : List HostId}
    {leaseFor : TimeDelta} (hle : leaseFor ≤ MAX_LEASE) {f : SqlxError → ε}
    {rest : Unit → Task ε α} (hrest : ∀ u, Prog.Emits (Writes fun _ => False) (rest u)) :
    machine.Sketch Cond AllCovered p n (covered p n)
      (utcNow >>= fun now => addTimeDelta now leaseFor >>= fun untill =>
        (tx.leaseHosts userId hostsIds untill).mapErr f >>= rest : Task ε α)
      (Covering p n) := by
  refine Task.sketch_bind (B := fun now h => Covering p n h ∧ now ∈ readings p n h.trace) ?_
    fun now => Task.sketch_bind
      (B := fun untill h => Covering p n h ∧ Covered p n untill h.trace) ?_
      fun untill => Task.sketch_bind (B := fun _ => Covering p n) (Task.sketch_mapErr ?_)
        fun u => sketch_covered (hrest u)
  · refine Task.sketch_utcNow (fun now => Covering.stable.and stable_mem_filterMap) ?_
    intro h now hI hA _
    refine ⟨hI.did hA (acts_now now), hA.kept (acts_now now) (by simp), ?_⟩
    exact mem_filterMap_push_iff.mpr (.inl (if_pos ⟨rfl, rfl⟩))
  · exact Task.sketch_addTimeDelta
      (fun _ _ _ hA => ⟨hA.1, now, hA.2, Int.add_le_add_left hle now⟩) fun _ _ hA => hA.1
  · exact sketch_update_covered (fun _ hA => hA.1) fun h _ _ _ _ _ hA _ _ hd => by
      cases Option.some.inj hd
      exact hA.2

theorem sketch_limit_covered {ε : Type} {f : SqlxError → ε} (self : HostsService) {tx : RegistryTx}
    {userGroups : List String} :
    machine.Sketch Cond AllCovered p n (covered p n)
      ((self.getLeaseLimit tx userGroups).mapErr f) (Covering p n) := by
  have hemits :
      Prog.Emits (WritesIn tx fun _ => False) ((self.getLeaseLimit tx userGroups).mapErr f) :=
    Task.emits_mapErr (self.emits_getLeaseLimit userGroups)
  exact sketch_covered (writes_of_scope hemits)

theorem sketch_lease_covered (self : HostsService) (userId : UserId) (userGroups : List String)
    (hostsIds : List HostId) {leaseFor : TimeDelta} (hle : leaseFor ≤ MAX_LEASE) :
    machine.Sketch Cond AllCovered p n (covered p n)
      (self.lease userId userGroups hostsIds leaseFor) fun h => Clean p h.state := by
  refine sketch_withTx_covered fun tx => ?_
  refine Task.sketch_bind ((sketch_covered (writes_of_writesIn
    (Task.emits_mapErr emits_fetch_in))).pre fun _ _ hc => hc.covering) fun leased => ?_
  dsimp only
  split
  · exact sketch_covered (writes_of_writesIn
      (Task.emits_bind emits_hashOrder_in fun _ => Task.emits_throw _))
  refine Task.sketch_bind (sketch_limit_covered self) fun limit => ?_
  split
  · exact Task.sketch_throw fun _ _ hA => hA
  · exact sketch_grant hle fun _ => writes_of_writesIn <|
      Task.emits_bind (Task.emits_mapErr emits_fetch_in) fun _ =>
        Task.emits_bind (Task.emits_mapErr emits_commit_in) fun _ => Task.emits_pure _

theorem sketch_leaseRandom_covered (self : HostsService) (userId : UserId)
    (userGroups : List String) {leaseFor : TimeDelta} (hle : leaseFor ≤ MAX_LEASE)
    (groupId : GroupId) :
    machine.Sketch Cond AllCovered p n (covered p n)
      (self.leaseRandom userId userGroups leaseFor groupId) fun h => Clean p h.state := by
  refine sketch_withTx_covered fun tx => ?_
  refine Task.sketch_bind ((sketch_limit_covered self).pre fun _ _ hc => hc.covering)
    fun limit => ?_
  refine Task.sketch_bind (sketch_covered (writes_of_writesIn
    (Task.emits_mapErr emits_fetch_in))) fun leased => ?_
  split
  · exact Task.sketch_throw fun _ _ hA => hA
  refine Task.sketch_bind (sketch_covered (writes_of_writesIn
    (Task.emits_mapErr emits_fetch_in))) fun host => ?_
  split
  · exact sketch_grant hle fun _ => writes_of_writesIn <|
      Task.emits_bind (Task.emits_mapErr emits_fetch_in) fun _ =>
        Task.emits_bind (Task.emits_mapErr emits_commit_in) fun _ => Task.emits_pure _
  · exact Task.sketch_throw fun _ _ hA => hA

/-! ## The extension -/

/-- Between the read of the hosts that end within the half hour from `now` and the update. -/
structure ReadEnding (p : Pid) (n : Nat) (now : Time) (expiring : List LeasedHost)
    (h : History) : Prop where
  clean : Clean p h.state
  clock : now ∈ readings p n h.trace
  query : h.trace.findSome? (expiryQuery p) = some (now + EXPIRATION_NOTIFY_WINDOW)
  rows : ∀ l ∈ expiring, Tracked (isExtendQuery p)
    (fun r => ∀ d ∈ r.leasedUntil, d < now + EXPIRATION_NOTIFY_WINDOW) l.id h

theorem ReadEnding.stable {Inv : History → Prop} {now : Time} {expiring : List LeasedHost} :
    machine.Stable Cond Inv p (ReadEnding p n now expiring) := by
  intro h ev hI hA hne hl hc
  refine ⟨stable_clean h ev hI hA.clean hne hl hc, mem_filterMap_push hA.clock, ?_, fun l hl' => ?_⟩
  · rw [Hist.push_trace, List.findSome?_cons, expiryQuery_of_ne hne]
    exact hA.query
  · exact Tracked.stable (fun _ => pid_of_isExtendQuery) h ev hI (hA.rows l hl') hne hl hc

/-- Every deadline that the update moves ends within the half hour, so its new one is covered. -/
theorem ReadEnding.covered {now : Time} {expiring : List LeasedHost} {h : History}
    (hA : ReadEnding p n now expiring h) {tx : RegistryTx} {hours : Int32} {w' : World}
    (hroom : RoomLeft h (.did p n
      (.execute tx (.hosts (.extendHostsLease (expiring.map (·.id)) hours))) (.ok ()) h.state w'))
    {id : HostId} {row : HostRow} {d : Time}
    (hrow : (h.state.db.hosts.cell id).view ⟨p, tx.no⟩ = some row)
    (hsel : (HostWrite.extendHostsLease (expiring.map (·.id)) hours).sel id row = true)
    (hd : ((HostWrite.extendHostsLease (expiring.map (·.id)) hours).set row).leasedUntil = some d) :
    Covered p n d h.trace := by
  obtain ⟨d₀, hd₀, rfl⟩ := Option.map_eq_some_iff.mp hd
  have hid : id ∈ expiring.map (·.id) := (of_decide_eq_true hsel).1
  obtain ⟨l, hl, rfl⟩ := List.mem_map.mp hid
  obtain ⟨hhours, hsince⟩ := hroom _ rfl
  rw [hA.clean.view] at hrow
  have hsoon : d₀ < now + EXPIRATION_NOTIFY_WINDOW := by
    rcases hA.rows l hl row hrow with hcommitted | ⟨-, hread⟩
    · exact hsince l.id hid row hcommitted _ hA.query d₀ hd₀
    · exact hread d₀ hd₀
  exact ⟨now, hA.clock, fits_of_expiring hsoon hhours⟩

theorem sketch_extend_covered (tgHandle : String) (hours : Int32) :
    machine.Sketch MaximumCond AllCovered p n (covered p n) (extendUserHosts tgHandle hours)
      fun h => Clean p h.state := by
  refine sketch_withTx_covered fun tx => ?_
  refine Task.sketch_bind (B := fun _ h => Clean p h.state) (Task.sketch_mapErr ?_) fun user => ?_
  · refine Task.sketch_fetch (fun _ => stable_clean) Covering.stable ?_ ?_
    · exact fun h order user hI hc _ _ => ⟨hI.did hc.covering (acts_fetch _), hc⟩
    · exact fun h err hI hc _ => ⟨hI.did hc.covering (acts_fetch _),
        hc.covering.kept (acts_fetch _) (by simp)⟩
  split
  · exact Task.sketch_throw fun _ _ hc => hc.covering
  rename_i user
  refine Task.sketch_bind (B := fun now h => Clean p h.state ∧ now ∈ readings p n h.trace) ?_
    fun now => ?_
  · refine Task.sketch_utcNow (fun now => stable_clean.and stable_mem_filterMap) ?_
    intro h now hI hc _
    exact ⟨hI.did hc.covering (acts_now now), hc,
      mem_filterMap_push_iff.mpr (.inl (if_pos ⟨rfl, rfl⟩))⟩
  refine Task.sketch_bind (B := fun expiring => ReadEnding p n now (expiring : List LeasedHost))
    (Task.sketch_mapErr ?_) fun expiring => ?_
  · refine Task.sketch_fetch (fun _ => ReadEnding.stable) Covering.stable ?_ ?_
    · intro h order expiring hI hA hrun _
      obtain ⟨hclean, hclock⟩ := hA
      have hdec := decoded_getExpiringHostsForUser hrun
      have hquery : expiryQuery p (.did p n (.fetch tx (.getExpiringHostsForUser user.id
          (now + EXPIRATION_NOTIFY_WINDOW))) (.ok expiring) h.state h.state) =
          some (now + EXPIRATION_NOTIFY_WINDOW) := if_pos rfl
      refine ⟨hI.did hclean.covering (acts_fetch _), hclean, mem_filterMap_push hclock, ?_,
        fun l hl => ?_⟩
      · rw [Hist.push_trace, List.findSome?_cons, hquery]
      refine tracked_of_mark (by simp [isExtendQuery, extendQuery]) fun row hrow d hd => ?_
      obtain ⟨r, hr, ⟨-, hexp⟩, -⟩ := hdec.sound l hl
      rw [hclean.view, hrow] at hr
      cases hr
      obtain ⟨d', hd', hlt⟩ := expiresBefore_iff.mp hexp
      cases hd.symm.trans hd'
      exact hlt
    · exact fun h err hI hA _ => ⟨hI.did hA.1.covering (acts_fetch _),
        hA.1.covering.kept (acts_fetch _) (by simp)⟩
  split
  · exact Task.sketch_pure fun _ _ hA => hA.clean.covering
  refine Task.sketch_bind (B := fun _ => Covering p n) (Task.sketch_mapErr ?_) fun _ => ?_
  · exact sketch_update_covered (fun _ hA => hA.clean.covering)
      fun _ _ _ _ _ hc hA hrow hsel hd => hA.covered hc.2 hrow hsel hd
  · exact sketch_covered (writes_of_writesIn <|
      Task.emits_bind (Task.emits_mapErr emits_fetch_in) fun _ =>
        Task.emits_bind (Task.emits_mapErr emits_commit_in) fun _ =>
          Task.emits_bind (emits_updatedLines _ _) fun _ => Task.emits_pure _)

/-! ## Every run -/

/-- A call that neither leases nor extends sets no deadline. -/
theorem Call.leasedUntil_none {κ : Call} (hlease : κ.leaseFor = none)
    (hextend : ∀ tgHandle hours, κ ≠ .extendUserHosts tgHandle hours) {x : HostWrite}
    (hx : κ.writes (.hosts x)) (row : HostRow) : (x.set row).leasedUntil = none := by
  cases κ with
  | lease => cases hlease
  | leaseRandom => cases hlease
  | extendUserHosts tgHandle hours => exact absurd rfl (hextend tgHandle hours)
  | free => cases hx; rfl
  | freeAll => cases hx; rfl
  | linkUser => obtain ⟨_, hx⟩ := hx; cases hx
  | authenticate => obtain ⟨_, _, hx⟩ := hx; cases hx
  | release => obtain ⟨_, hx⟩ := hx; cases hx; rfl
  | notifyReleasedHosts => exact hx.elim
  | notifySoonRelease => exact hx.elim

theorem sketch_other_covered {κ : Call} (hlease : κ.leaseFor = none)
    (hextend : ∀ tgHandle hours, κ ≠ .extendUserHosts tgHandle hours) (l : Local) :
    machine.Sketch Cond AllCovered p n (fun _ _ => True) (κ.body l) (Covering p n) := by
  refine (Machine.Sketch.keep (κ.emits l) Covering.stable ?_).post fun _ _ _ _ => trivial
  intro h e env r w' he hI hA ha _
  refine ⟨hI.did hA (acts_of_act ha), hA.did (acts_of_act ha) fun _ tx x id row d hx _ _ hd => ?_⟩
  rw [Call.leasedUntil_none hlease hextend (he tx _ hx)] at hd
  cases hd

/-- A call that comes in covers what it changes. -/
theorem sketch_arriving {κ : Call} (hκ : arriving p κ) (l : Local) :
    machine.Sketch MaximumCond AllCovered p n (fun _ _ => True) (κ.body l)
      fun h => Clean p h.state := by
  have hle : ∀ d, κ.leaseFor = some d → d ≤ MAX_LEASE := by
    intro d hd
    obtain ⟨service, user, request, hcall⟩ := hκ.2 (.inl (by simp [hd]))
    exact Request.call_leaseFor_le hcall hd
  rcases κ.body_cases l with hb | hb
  · rw [hb]; exact fun _ _ _ => trivial
  cases κ with
  | lease self userId userGroups hostsIds leaseFor =>
    rw [hb]
    exact .bind (sketch_lease_covered self userId userGroups hostsIds (hle leaseFor rfl))
      fun _ _ _ _ => trivial
  | leaseRandom self userId userGroups leaseFor groupId =>
    rw [hb]
    exact .bind (sketch_leaseRandom_covered self userId userGroups (hle leaseFor rfl) groupId)
      fun _ _ _ _ => trivial
  | extendUserHosts tgHandle hours =>
    rw [hb]
    exact .bind (sketch_extend_covered tgHandle hours) fun _ _ _ _ => trivial
  | _ =>
      exact (sketch_other_covered rfl (by intro _ _ hx; cases hx) l).pre fun _ _ hc => hc.covering

/-- **The maximum holds for every entry point**, in every run whose extensions leave room. -/
theorem withinMaximum_of_run (t : Tables) (timer : ReleaseTimer) {c : System}
    (hrun : machine.Run MaximumCond (t.systemWith timer) c) : WithinMaximum c.hist.trace := by
  exact AllCovered.withinMaximum (h := c.hist) (run_of_sketches AllCovered
    (fun _ _ hc => hc.1) (allCovered_nil _) (fun h p n κ hI => hI.called p n κ)
    (fun p n κ l hok => sketch_arriving hok l) hrun)

theorem arriving_of_call {i : Nat} {service : HostsService} {user : AuthUser} {request : Request}
    {κ : Call} (hcall : request.call service user = some κ) (hpass : κ.isPass = false) :
    arriving (.task i) κ := ⟨hpass, fun _ => ⟨service, user, request, hcall⟩⟩

/-- The calls of one task that presses a button of `alice`'s. -/
def pressing (hours : Int32) (p : Pid) : Call → Bool
  | .extendUserHosts tgHandle h => decide (p = .task 0 ∧ tgHandle = "7" ∧ h = hours)
  | _ => false

theorem arriving_of_pressing {hours : Int32} (data : String)
    (hdata : handleExtendCallback "7" (some data) = some ("7", hours)) {p : Pid} {κ : Call}
    (h : pressing hours p κ = true) : arriving p κ := by
  cases κ with
  | extendUserHosts tgHandle hours' =>
    obtain ⟨rfl, rfl, rfl⟩ := of_decide_eq_true h
    have hcall : (Request.extendCallback 7 (some data)).call ⟨3⟩ ⟨alice.id, "", [], none, ""⟩ =
        some (.extendUserHosts "7" hours') := by
      show (handleExtendCallback "7" (some data)).map _ = _
      rw [hdata]
      rfl
    exact arriving_of_call hcall rfl
  | _ => cases h

/-- `alice` presses the button for another day. -/
theorem withinMaximum_of_run_small : ∃ c,
    machine.Run MaximumCond ((small (some (true, 5))).systemWith .new) c ∧
      WithinMaximum c.hist.trace := by
  obtain ⟨c, hrun, -⟩ := machine.exists_run_of_exec
    (fun h ev => Machine.Calling (fun p κ => pressing 24 p κ = true) h ev ∧ RoomLeft h ev)
    ((small (some (true, 5))).systemWith .new)
    [.call (.task 0) (.extendUserHosts "7" 24), .act (.task 0) {}, .act (.task 0) {},
      .act (.task 0) {}, .act (.task 0) {}, .act (.task 0) {}, .act (.task 0) {},
      .act (.task 0) {}]
    (fun c => c.hist.state.host ⟨1⟩ ==
      some (host1 (some (true, 5 + TimeDelta.hours 24))).toHostRow) (by decide +kernel)
  have hrun : machine.Run MaximumCond _ c := hrun.mono machine fun h ev hc => by
    refine ⟨?_, hc.2⟩
    cases ev with
    | called p n κ => exact arriving_of_pressing "extend:24" rfl hc.1
    | did => trivial
  exact ⟨c, hrun, withinMaximum_of_run _ _ hrun⟩

/-- The last event moves the deadline of the first host past the maximum, though its task has read
    no time but 0. -/
def exceeds (tr : Trace) : Bool :=
  match tr with
  | .did p n _ _ w w' :: _ =>
    decide (∀ s ∈ readings p n tr, s ≤ 0) &&
      match w.host ⟨1⟩, w'.host ⟨1⟩ with
      | some row₀, some row =>
        decide (row₀.leasedUntil ≠ row.leasedUntil ∧ ∃ d ∈ row.leasedUntil, MAX_LEASE < d)
      | _, _ => false
  | _ => false

theorem not_withinMaximum_of_exceeds {tr : Trace} (h : exceeds tr = true) :
    ¬ WithinMaximum tr := by
  unfold exceeds at h
  split at h
  · rename_i p n e r w w' past
    rw [Bool.and_eq_true, decide_eq_true_eq] at h
    obtain ⟨hclock, h⟩ := h
    split at h
    · rename_i row₀ row hrow₀ hrow
      obtain ⟨hne, d, hd, hlt⟩ := of_decide_eq_true h
      intro hwithin
      have hle := hwithin p n e r w w' List.mem_cons_self 0 hclock ⟨1⟩ row d hrow hd ?_
      · rw [Int.zero_add] at hle
        exact absurd hle (Int.not_le.mpr hlt)
      · intro row' hrow' heq
        rw [hrow₀] at hrow'
        cases hrow'
        exact hne (heq.trans hd.symm)
    · cases h
  · cases h

/-- What no button offers: `alice` extends a lease by some 245 000 years. -/
theorem not_withinMaximum : ∃ c,
    machine.Run (Machine.Calling arriving) ((small (some (true, 5))).systemWith .new) c ∧
      ¬ WithinMaximum c.hist.trace := by
  obtain ⟨c, hrun, hc⟩ := machine.exists_run_of_exec
    (Machine.Calling fun p κ => pressing 2147483647 p κ = true)
    ((small (some (true, 5))).systemWith .new)
    [.call (.task 0) (.extendUserHosts "7" 2147483647), .act (.task 0) {}, .act (.task 0) {},
      .act (.task 0) {}, .act (.task 0) {}, .act (.task 0) {}, .act (.task 0) {},
      .act (.task 0) {}]
    (fun c => exceeds c.hist.trace) (by decide +kernel)
  have hrun : machine.Run (Machine.Calling arriving) _ c := hrun.mono machine fun h ev hc => by
    cases ev with
    | called p n κ => exact arriving_of_pressing "extend:2147483647" rfl hc
    | did => trivial
  exact ⟨c, hrun, not_withinMaximum_of_exceeds hc⟩

end Tachikoma
