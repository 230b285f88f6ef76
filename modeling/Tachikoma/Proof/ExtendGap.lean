import Tachikoma.Proof.Gap

/-!
# An extension moves the deadlines it has read

`extend_user_hosts` reads which of the user's hosts are about to expire and moves their deadlines by
id; the update looks at no holder. It moves the user's own deadlines only, as long as none of the
hosts it has read went to somebody else in between (`NoneTaken`).
-/

set_option autoImplicit false

namespace Tachikoma

open Interleaving

/-- The user whose expiring hosts the task `p` asks for, if that is what the event does. -/
def extendQuery (p : Pid) : Ev → Option UserId
  | .did q _ (.fetch _ (.getExpiringHostsForUser userId _)) _ _ _ =>
      if q = p then some userId else none
  | _ => none

def isExtendQuery (p : Pid) (ev : Ev) : Bool := (extendQuery p ev).isSome

theorem pid_of_isExtendQuery {p : Pid} {ev : Ev} (h : isExtendQuery p ev = true) : ev.pid = p := by
  unfold isExtendQuery extendQuery at h
  split at h
  · rename_i q _ _ _ _ _ _ _
    by_cases hq : q = p
    · exact hq
    · rw [if_neg hq] at h; cases h
  · cases h

/-- An update by which a task extended leases. -/
structure Extending where
  task : Pid
  call : Nat
  tx : TxId
  ids : List HostId
  hours : Int32
  before : World

def extending : Ev → Option Extending
  | .did p n (.execute tx (.hosts (.extendHostsLease ids hours))) (.ok ()) w _ =>
    some ⟨p, n, ⟨p, tx.no⟩, ids, hours, w⟩
  | _ => none

/-- The user that the `n`-th call of `p` found under a Telegram account. -/
def lookedUp (p : Pid) (n : Nat) : Ev → Option UserId
  | .did q m (.fetch _ (.getUserByTgHandle _)) (.ok (some user)) _ _ =>
    if q = p ∧ m = n then some user.id else none
  | _ => none

/-- Every deadline that an extension moves is one of the user that the same call had looked up. -/
def ExtendsOwn (tr : Trace) : Prop :=
  ∀ x ∈ tr.filterMap extending, ∃ u ∈ tr.filterMap (lookedUp x.task x.call), ∀ id ∈ x.ids,
    ∀ row ∈ (x.before.db.hosts.cell id).view x.tx,
      ((HostWrite.extendHostsLease x.ids x.hours).set row).leasedUntil ≠ row.leasedUntil →
        row.userId = some u

instance (tr : Trace) : Decidable (ExtendsOwn tr) := by
  unfold ExtendsOwn
  infer_instance

theorem ExtendsOwn.push {h : History} {ev : Ev} (hf : ExtendsOwn h.trace)
    (hev : extending ev = none) : ExtendsOwn (h.push ev).trace := by
  intro x hmem
  rw [filterMap_push hev] at hmem
  obtain ⟨u, hu, hrows⟩ := hf x hmem
  exact ⟨u, mem_filterMap_push hu, hrows⟩

theorem extending_of_writes {p : Pid} {n : Nat} {W : Write → Prop} {e : Effect} {r : e.Res}
    {w w' : World} (he : Writes W e)
    (hW : ∀ ids hours, ¬ W (.hosts (.extendHostsLease ids hours))) :
    extending (.did p n e r w w') = none := by
  unfold extending
  split
  · rename_i heq
    cases heq
    exact absurd (he _ _ rfl) (hW _ _)
  · rfl

/-- When a task extends leases, the ones that were committed to since it read them as the user's
    still are, or they have ended. -/
def NoneTaken (h : History) (ev : Ev) : Prop :=
  ∀ x ∈ extending ev, x.hours ≠ 0 → ∀ id ∈ x.ids,
    ∀ r ∈ committedSince (isExtendQuery x.task) id h.trace,
      ∀ u ∈ h.trace.findSome? (extendQuery x.task), r.leasedUntil ≠ none → r.userId = some u

instance (h : History) (ev : Ev) : Decidable (NoneTaken h ev) := by
  unfold NoneTaken
  infer_instance

/-- The steps of runs in which the gaps of extensions are harmless. -/
def ExtendCond (h : History) (ev : Ev) : Prop := Machine.Calling proper h ev ∧ NoneTaken h ev

instance (h : History) (ev : Ev) : Decidable (ExtendCond h ev) :=
  inferInstanceAs (Decidable (_ ∧ _))

/-- Between the read of `u`'s expiring hosts and the update. -/
structure ReadExpiring (p : Pid) (n : Nat) (u : UserId) (expiring : List LeasedHost)
    (h : History) : Prop where
  clean : Clean p h.state
  lookup : u ∈ h.trace.filterMap (lookedUp p n)
  query : h.trace.findSome? (extendQuery p) = some u
  rows : ∀ l ∈ expiring, Tracked (isExtendQuery p) (fun r => r.userId = some u) l.id h

theorem ReadExpiring.stable {Cond : History → Ev → Prop} {Inv : History → Prop} {p : Pid} {n : Nat}
    {u : UserId} {expiring : List LeasedHost} :
    machine.Stable Cond Inv p (ReadExpiring p n u expiring) := by
  intro h ev hI hA hne hl hc
  refine ⟨stable_clean h ev hI hA.clean hne hl hc, mem_filterMap_push hA.lookup, ?_,
    fun l hl' => ?_⟩
  · have hnone : extendQuery p ev = none := by
      cases hq : extendQuery p ev with
      | none => rfl
      | some u' => exact absurd (pid_of_isExtendQuery (by simp [isExtendQuery, hq])) hne
    rw [Hist.push_trace, List.findSome?_cons, hnone]
    exact hA.query
  · exact Tracked.stable (fun _ => pid_of_isExtendQuery) h ev hI (hA.rows l hl') hne hl hc

/-- An update that moves a deadline hits a row that has one, by some hours. -/
theorem moves_of_ne {ids : List HostId} {hours : Int32} {row : HostRow}
    (h : ((HostWrite.extendHostsLease ids hours).set row).leasedUntil ≠ row.leasedUntil) :
    hours ≠ 0 ∧ row.leasedUntil ≠ none := by
  constructor
  · rintro rfl
    refine h ?_
    simp only [HostWrite.set]
    cases row.leasedUntil <;> simp [TimeDelta.hours]
  · intro hnone
    exact h (by simp [HostWrite.set, hnone])

/-- The update that extends what was read. -/
theorem ReadExpiring.extends {p : Pid} {n : Nat} {u : UserId} {expiring : List LeasedHost}
    {h : History} (hA : ReadExpiring p n u expiring h) (hI : ExtendsOwn h.trace) {tx : RegistryTx}
    {hours : Int32} {w' : World}
    (hc : NoneTaken h (.did p n
      (.execute tx (.hosts (.extendHostsLease (expiring.map (·.id)) hours))) (.ok ()) h.state w')) :
    ExtendsOwn (h.push (.did p n
      (.execute tx (.hosts (.extendHostsLease (expiring.map (·.id)) hours))) (.ok ())
      h.state w')).trace := by
  intro x hmem
  rcases mem_filterMap_push_iff.mp hmem with heq | hmem
  · cases heq
    refine ⟨u, mem_filterMap_push hA.lookup, fun id hid row hrow hmoves => ?_⟩
    obtain ⟨l, hl, rfl⟩ := List.mem_map.mp hid
    obtain ⟨hhours, huntil⟩ := moves_of_ne hmoves
    have hrow : (h.state.db.hosts.cell l.id).view ⟨p, tx.no⟩ = some row := hrow
    rw [hA.clean.view] at hrow
    rcases hA.rows l hl row hrow with hsince | ⟨_, hheld⟩
    · exact hc _ rfl hhours l.id (List.mem_map_of_mem hl) row hsince u hA.query huntil
    · exact hheld
  · obtain ⟨u', hu', hrows⟩ := hI x hmem
    exact ⟨u', mem_filterMap_push hu', hrows⟩

theorem extend_sketch (tgHandle : String) (hours : Int32) (p : Pid) (n : Nat) :
    machine.Sketch ExtendCond (fun h => ExtendsOwn h.trace) p n (fun _ _ => True)
      (extendUserHosts tgHandle hours) fun h => Clean p h.state := by
  refine Task.sketch_withTx (fun _ h => Clean p h.state) (fun _ _ _ => True)
    (fun _ => stable_clean) (fun _ => .true) ?_ ?_ ?_ ?_
  · intro h tx w' hI hc ha _
    exact ⟨hI.push rfl, ha.clean (by simp) hc⟩
  · intro h err w' hI _ _ _
    exact ⟨hI.push rfl, trivial⟩
  · intro tx
    refine sketch_of_onOk (Q := fun _ _ => True) (Task.sketch_bind (B := fun user h =>
      Clean p h.state ∧ ∀ u : User, user = some u → u.id ∈ h.trace.filterMap (lookedUp p n))
      (Task.sketch_mapErr ?_) fun user => ?_)
    · refine Task.sketch_fetch
        (fun user => stable_clean.and (.forall fun _ => .imp_const stable_mem_filterMap)) .true
          ?_ ?_
      · intro h order user hI hc _ _
        refine ⟨hI.push rfl, hc, fun u hu => mem_filterMap_push_iff.mpr (.inl ?_)⟩
        cases hu
        exact if_pos ⟨rfl, rfl⟩
      · intro h err hI _ _
        exact ⟨hI.push rfl, trivial⟩
    split
    · exact Task.sketch_throw fun _ _ _ => trivial
    rename_i user
    -- The user is the one of the account; then the clock, the hosts about to expire, the update.
    refine Task.sketch_bind (B := fun _ h =>
      Clean p h.state ∧ user.id ∈ h.trace.filterMap (lookedUp p n)) ?_ fun now => ?_
    · refine Task.sketch_utcNow (fun _ => stable_clean.and stable_mem_filterMap) ?_
      intro h now hI hA _
      exact ⟨hI.push rfl, hA.1, mem_filterMap_push (hA.2 user rfl)⟩
    refine Task.sketch_bind
      (B := fun expiring h => ReadExpiring p n user.id (expiring : List LeasedHost) h)
      (Task.sketch_mapErr ?_) fun expiring => ?_
    · refine Task.sketch_fetch (fun _ => ReadExpiring.stable) .true ?_ ?_
      · intro h order expiring hI hA hrun _
        obtain ⟨hclean, hlookup⟩ := hA
        have hdec := decoded_getExpiringHostsForUser hrun
        have hquery : extendQuery p (.did p n (.fetch tx (.getExpiringHostsForUser user.id
            (now + EXPIRATION_NOTIFY_WINDOW))) (.ok expiring) h.state h.state) = some user.id :=
          if_pos rfl
        refine ⟨hI.push rfl, hclean, mem_filterMap_push hlookup, ?_,
          fun l hl => tracked_of_mark ?_ ?_⟩
        · rw [Hist.push_trace, List.findSome?_cons, hquery]
        · rw [isExtendQuery, hquery]; rfl
        · intro row hrow
          obtain ⟨r, hr, ⟨hheld, -⟩, -⟩ := hdec.sound l hl
          rw [hclean.view, hrow] at hr
          cases hr
          exact hheld
      · intro h err hI _ _
        exact ⟨hI.push rfl, trivial⟩
    · split
      · exact Task.sketch_pure fun _ _ _ => trivial
      · refine Task.sketch_bind (B := fun _ _ => True) (Task.sketch_mapErr ?_) fun _ =>
          sketch_onOk ?_
        · refine Task.sketch_execute (fun _ => .true) .true ?_ ?_
          · intro h a w' hI hA _ hc
            cases a
            exact ⟨hA.extends hI hc.2, trivial⟩
          · intro h err w' hI _ _ _
            exact ⟨hI.push rfl, trivial⟩
        · refine sketch_silent (writes_of_writesIn <|
            Task.emits_bind (Task.emits_mapErr emits_fetch_in) fun _ =>
              Task.emits_bind (Task.emits_mapErr emits_commit_in) fun _ =>
                Task.emits_bind (emits_updatedLines _ _) fun _ => Task.emits_pure _) ?_
          exact fun h e env r w' he hI _ _ => hI.push (extending_of_writes he fun _ _ hf => hf)
  · intro tx r h w' hI _ _ _
    exact ⟨hI.push rfl, trivial⟩

/-- **An extension moves its user's deadlines only**, in every run whose gaps are harmless. -/
theorem extendsOwn_of_run (t : Tables) (timer : ReleaseTimer) {c : System}
    (hrun : machine.Run ExtendCond (t.systemWith timer) c) : ExtendsOwn c.hist.trace := by
  refine run_of_sketches (fun h => ExtendsOwn h.trace) (fun _ _ hc => hc.1) nofun
    (fun h p n κ hI => hI.push rfl) ?_ hrun
  intro p n κ l hok
  by_cases hκ : ∃ tgHandle hours, κ = .extendUserHosts tgHandle hours
  · obtain ⟨tgHandle, hours, rfl⟩ := hκ
    rcases Call.body_cases (.extendUserHosts tgHandle hours) l with hb | hb
    · rw [hb]; exact fun _ _ _ => trivial
    · rw [hb]
      exact .bind (extend_sketch tgHandle hours p n) fun _ _ _ _ => trivial
  · refine sketch_rest (κ.emits l) fun h e env r w' he hI _ _ => hI.push (extending_of_writes he ?_)
    intro ids hours hw
    cases κ with
    | extendUserHosts tgHandle hours => exact hκ ⟨_, _, rfl⟩
    | lease => obtain ⟨_, hw⟩ := hw; cases hw
    | leaseRandom => obtain ⟨_, _, hw⟩ := hw; cases hw
    | release => obtain ⟨_, hw⟩ := hw; cases hw
    | linkUser => obtain ⟨_, hw⟩ := hw; cases hw
    | authenticate => obtain ⟨_, _, hw⟩ := hw; cases hw
    | _ => cases hw

/-- `alice` extends a lease, and a release by `bob` in the gap does no harm. -/
theorem extendsOwn_of_run_small : ∃ c,
    machine.Run ExtendCond ((small (some (true, 5))).systemWith .new) c ∧
      ExtendsOwn c.hist.trace := by
  obtain ⟨c, hrun, -⟩ := machine.exists_run_of_exec ExtendCond
    ((small (some (true, 5))).systemWith .new)
    [.call (.task 0) (.extendUserHosts "7" 1), .act (.task 0) {}, .act (.task 0) {},
      .act (.task 0) {}, .act (.task 0) {}, .call (.task 1) (.free bob.id [⟨1⟩]),
      .act (.task 1) {}, .act (.task 1) {}, .act (.task 1) {}, .act (.task 0) {},
      .act (.task 0) {}, .act (.task 0) {}]
    (fun c => c.hist.state.host ⟨1⟩ == some (host1 (some (true, 3600000005))).toHostRow)
    (by decide +kernel)
  exact ⟨c, hrun, extendsOwn_of_run _ _ hrun⟩

/-- Between the read and the update of `alice`'s extension, `alice` frees the host and `bob` leases
    it. -/
theorem not_extendsOwn : ∃ c,
    machine.Run (Machine.Calling proper) ((small (some (true, 5))).systemWith .new) c ∧
      ¬ ExtendsOwn c.hist.trace := by
  obtain ⟨c, hrun, hc⟩ := machine.exists_run_of_exec (Machine.Calling proper)
    ((small (some (true, 5))).systemWith .new)
    [.call (.task 0) (.extendUserHosts "7" 1), .act (.task 0) {}, .act (.task 0) {},
      .act (.task 0) {}, .act (.task 0) {}, .call (.task 1) (.free alice.id [⟨1⟩]),
      .act (.task 1) {}, .act (.task 1) {}, .act (.task 1) {}, .act (.task 1) {},
      .call (.task 1) (.lease ⟨3⟩ bob.id [] [⟨1⟩] 100), .act (.task 1) {}, .act (.task 1) {},
      .act (.task 1) {}, .act (.task 1) {}, .act (.task 1) {}, .act (.task 1) {},
      .act (.task 1) {}, .act (.task 1) {}, .act (.task 0) {}, .act (.task 0) {},
      .act (.task 0) {}]
    (fun c => decide (¬ ExtendsOwn c.hist.trace)) (by decide +kernel)
  exact ⟨c, hrun, of_decide_eq_true hc⟩

end Tachikoma
