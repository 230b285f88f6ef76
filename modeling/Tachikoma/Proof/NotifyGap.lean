import Tachikoma.Proof.Notice

/-!
# The notifier unwraps the deadlines of what was read as expiring

`notify_soon_release` reads which leases are about to end. For each of their holders the notifier
reads the hosts again, in a transaction of its own and after messages to other users, and unwraps
their deadlines. The timer survives this, as long as no host that it is about to announce was freed
in between (`NoneFreed`). A panic there is the end of the timer's task, and `main` races the tasks:
it is the end of the server.
-/

set_option autoImplicit false

namespace Tachikoma

open Interleaving Unordered

/-- The hosts that the timer has read by their ids. -/
def reread : Ev → Option (List HostId)
  | .did .timer _ (.fetch _ (.getHosts ids)) (.ok _) _ _ => some ids
  | _ => none

/-- What the timer has begun to announce. -/
def notice : Ev → Option Notification
  | .did .timer _ (.notify _ notification) _ _ _ => some notification
  | _ => none

theorem notice_of_ne {ev : Ev} (h : ev.pid ≠ .timer) : notice ev = none := by
  unfold notice
  split
  · exact absurd rfl h
  · rfl

def Notification.isExpiration : Notification → Bool
  | .expirationSoon _ => true
  | .hostsReleased _ => false

/-- When the timer reads the hosts of an expiration notice, none that was committed to since it
    read them as expiring is free. -/
def NoneFreed (h : History) (ev : Ev) : Prop :=
  ∀ ids ∈ reread ev, ∀ announced ∈ h.trace.findSome? notice, announced.isExpiration = true →
    ∀ id ∈ ids, ∀ r ∈ committedSince isTimerQuery id h.trace, r.leasedUntil ≠ none

instance (h : History) (ev : Ev) : Decidable (NoneFreed h ev) := by
  unfold NoneFreed
  infer_instance

/-- The steps of runs in which the notifier's gaps are harmless. -/
def NotifyCond (h : History) (ev : Ev) : Prop := Machine.Calling proper h ev ∧ NoneFreed h ev

instance (h : History) (ev : Ev) : Decidable (NotifyCond h ev) :=
  inferInstanceAs (Decidable (_ ∧ _))

/-- After the timer has read the hosts `ids` as expiring. -/
structure ReadSoon (ids : List HostId) (h : History) : Prop where
  clean : Clean .timer h.state
  rows : ∀ id ∈ ids, Tracked isTimerQuery (fun r => r.leasedUntil ≠ none) id h

theorem ReadSoon.stable {Cond : History → Ev → Prop} {Inv : History → Prop} {ids : List HostId} :
    machine.Stable Cond Inv .timer (ReadSoon ids) := by
  intro h ev hI hA hne hl hc
  exact ⟨stable_clean h ev hI hA.clean hne hl hc, fun id hid =>
    Tracked.stable (fun _ => pid_of_isTimerQuery) h ev hI (hA.rows id hid) hne hl hc⟩

theorem ReadSoon.did {ids : List HostId} {h : History} (hA : ReadSoon ids h) {n : Nat} {e : Effect}
    {r : e.Res} {w' : World} (hacts : Acts .timer h.state e r w')
    (he : ∀ tx x, e ≠ .execute tx x)
    (hm : isTimerQuery (.did .timer n e r h.state w') = false) :
    ReadSoon ids (h.push (.did .timer n e r h.state w')) :=
  ⟨hacts.clean he hA.clean, fun id hid => (hA.rows id hid).did hacts hm⟩

/-- While a notice of some of them is under way. -/
def Announcing (ids some : List HostId) (h : History) : Prop :=
  ReadSoon ids h ∧ h.trace.findSome? notice = Option.some (.expirationSoon some)

theorem Announcing.stable {Cond : History → Ev → Prop} {Inv : History → Prop}
    {ids some : List HostId} : machine.Stable Cond Inv .timer (Announcing ids some) := by
  refine ReadSoon.stable.and fun h ev _ hA hne _ _ => ?_
  rw [Hist.push_trace, List.findSome?_cons, notice_of_ne hne]
  exact hA

theorem Announcing.did {ids some : List HostId} {h : History} (hA : Announcing ids some h) {n : Nat}
    {e : Effect} {r : e.Res} {w' : World} (hacts : Acts .timer h.state e r w')
    (he : ∀ tx x, e ≠ .execute tx x)
    (hm : isTimerQuery (.did .timer n e r h.state w') = false)
    (hn : notice (.did .timer n e r h.state w') = none) :
    Announcing ids some (h.push (.did .timer n e r h.state w')) := by
  refine ⟨hA.1.did hacts he hm, ?_⟩
  rw [Hist.push_trace, List.findSome?_cons, hn]
  exact hA.2

theorem sketch_notice (notifier : Notifier) {u : UserId} {all ids : List HostId} (hids : ids ≠ [])
    (hsub : ∀ id ∈ ids, id ∈ all) (n : Nat) :
    machine.Sketch NotifyCond (fun _ => True) .timer n
      (exits (fun _ => ReadSoon all) (ReadSoon all) fun _ => False)
      (notifier.notify u (.expirationSoon ids)) (ReadSoon all) := by
  have hstable : machine.Stable NotifyCond (fun _ => True) .timer (Announcing all ids) :=
    Announcing.stable
  refine (sketch_expirationSoon notifier hids (A := fun _ => Announcing all ids) (fun _ => hstable)
    hstable hstable hstable (.const (A := False)) ?_ ?_ ?_ ?_ ?_ ?_ ?_).post fun r h _ hQ => ?_
  · exact fun h _ hA _ => ⟨trivial, hA.did acts_notify (by simp) rfl, rfl⟩
  · intro h r w' _ hA hacts _
    have hA' := hA.did (n := n) hacts (by simp) rfl rfl
    exact ⟨trivial, fun _ => hA', fun _ => hA'⟩
  · intro h _ e r he _ hA hacts _
    exact ⟨trivial, hA.did hacts he.not_execute (by cases he <;> rfl) (by cases he <;> rfl)⟩
  · exact fun _ _ _ _ _ _ _ hA => hA
  · intro h _ tx order hs _ hA hrun hc
    -- A row of the read is as the pass saw it, with a deadline, or was committed since; the latter
    -- is what the condition is about.
    refine .inl fun host hhost hnone => ?_
    obtain ⟨hid, hrow⟩ := (mem_getHosts hrun).mp hhost
    rw [hA.1.clean.view] at hrow
    rcases hA.1.rows host.id (hsub _ hid) _ hrow with hsince | ⟨_, huntil⟩
    · exact hc.2 ids rfl _ hA.2 rfl host.id hid _ hsince hnone
    · exact huntil hnone
  · intro h sender msg r _ _ _ hA _
    have hA' := hA.did (n := n) (e := .send sender msg) (acts_send r) (by simp) rfl rfl
    exact ⟨trivial, fun _ => hA', fun _ => hA'⟩
  · intro h tx w' _ hacts _ _
    have hdid : Announcing all ids h →
        Announcing all ids (h.push (.did .timer n (.drop tx) () h.state w')) :=
      fun hA => hA.did hacts (by simp) rfl rfl
    exact ⟨trivial, fun _ => hdid, hdid, False.elim⟩
  · cases r with
    | ok a => exact hQ.1
    | err e => exact hQ.1
    | panic msg => exact hQ

/-- While the users of a list are still to be told. -/
def StillToTell (all : List HostId) (rest : List (UserId × List HostId)) (h : History) : Prop :=
  ReadSoon all h ∧ ∀ x ∈ rest, ∀ id ∈ x.2, id ∈ all

theorem StillToTell.tail {all : List HostId} {x : UserId × List HostId}
    {rest : List (UserId × List HostId)} {h : History} (hA : StillToTell all (x :: rest) h) :
    StillToTell all rest h :=
  ⟨hA.1, fun y hy => hA.2 y (List.mem_cons_of_mem _ hy)⟩

theorem sketch_notifySoon_all (notifier : Notifier) {all : List HostId} (n : Nat)
    (sent : UserId → Option (List HostId)) (expiring : List (UserId × List HostId)) :
    machine.Sketch NotifyCond (fun _ => True) .timer n
      (exits (fun _ => StillToTell all []) (fun _ => True) fun _ => False)
      (ReleaseTimer.notifySoon notifier sent expiring) (StillToTell all expiring) := by
  refine sketch_notifySoon notifier (I := fun _ => StillToTell all)
    (fun _ _ => ReadSoon.stable.and .const) ?_ (fun _ _ _ _ _ _ hA _ => hA.tail) ?_ sent expiring
  · intro h o _ rest _ hA _
    exact ⟨trivial, hA.1.did (acts_hashOrder o) (by simp) rfl, hA.2⟩
  · intro u ids rest _ ids' hids' hmem
    refine Machine.Sketch.of_fact fun hsub => ?_
    have hrest : ∀ h, ReadSoon all h → StillToTell all rest h :=
      fun h hA => ⟨hA, fun y hy => hsub y (List.mem_cons_of_mem _ hy)⟩
    refine (sketch_notice notifier hids' (fun id hid => ?_) n).post fun r h _ hQ => ?_
    · exact hsub _ List.mem_cons_self id ((hmem id).mp hid).1
    · cases r with
      | ok a => exact hrest h hQ
      | err e => exact hrest h hQ
      | panic msg => exact hQ

theorem sketch_notifySoonRelease (self : ReleaseTimer) (notifier : Notifier) (n : Nat) :
    machine.Sketch NotifyCond (fun _ => True) .timer n (fun r _ => ∀ msg, r ≠ .panic msg)
      (self.notifySoonRelease notifier) fun h => Clean .timer h.state := by
  refine Task.sketch_withTx (fun _ h => Clean .timer h.state) (fun _ r _ => ∀ msg, r ≠ .panic msg)
    (fun _ => stable_clean) (fun _ => .const) ?_ ?_ ?_ ?_
  · exact fun h tx w' _ hc ha _ => ⟨trivial, ha.clean (by simp) hc⟩
  · exact fun h err w' _ _ _ _ => ⟨trivial, nofun⟩
  · intro tx
    refine Machine.Sketch.post (Q := exits (fun _ _ => True) (fun _ => True) fun _ => False) ?_ ?_
    · refine Task.sketch_bind (B := fun _ h => Clean .timer h.state)
        (Task.sketch_utcNow (fun _ => stable_clean) fun h now _ hc _ => ⟨trivial, hc⟩) fun now => ?_
      refine Task.sketch_bind
        (B := fun hosts h => ReadSoon ((hosts : List LeasedHost).map (·.id)) h)
        (Task.sketch_mapErr ?_) fun hosts => ?_
      · refine Task.sketch_fetch (fun _ => ReadSoon.stable) .true ?_ fun _ _ _ _ _ =>
          ⟨trivial, trivial⟩
        intro h order hosts _ hclean hrun _
        -- From this read on its hosts are tracked: each has had a deadline here.
        have hdec := decoded_getLeasedUntilHosts hrun
        refine ⟨trivial, hclean, fun id hid => tracked_of_mark rfl fun row hrow hnone => ?_⟩
        obtain ⟨l, hl, rfl⟩ := List.mem_map.mp hid
        obtain ⟨r, hr, _, _, huntil, _⟩ := hdec.sound l hl
        rw [hclean.view, hrow] at hr
        cases hr
        rw [hnone] at huntil
        cases huntil
      · dsimp only
        refine Task.sketch_bind (B := fun _ => ReadSoon (hosts.map (·.id))) ?_ fun order => ?_
        · refine Task.sketch_hashOrder (fun _ => ReadSoon.stable) ?_
          intro h o _ hA _
          exact ⟨trivial, hA.did (acts_hashOrder o) (by simp) rfl⟩
        refine Task.sketch_bind (B := fun _ _ => True)
          (((sketch_notifySoon_all notifier n _ _).pre fun h _ hA => ⟨hA, ?_⟩).post ?_)
          fun _ => Task.sketch_pure fun _ _ _ => trivial
        · intro x hx id hid
          obtain ⟨l, hl, _, rfl⟩ := mem_usersHosts.mp ⟨x.2, mem_arrange.mp hx, hid⟩
          exact List.mem_map_of_mem hl
        · intro r h _ hQ
          cases r with
          | panic msg => exact hQ
          | _ => trivial
    · intro r h _ hQ msg hr
      subst hr
      exact hQ
  · exact fun tx r h w' _ hQ _ _ => ⟨trivial, hQ⟩

/-! ## The passes that cannot panic -/

theorem ReleaseTimer.calm_release (self : ReleaseTimer) : Task.Calm self.release := by
  refine Task.calm_withTx fun tx => Task.calm_bind Task.calm_utcNow fun now => ?_
  refine Task.calm_bind (Task.calm_mapErr (Task.calm_fetch _ _)) fun expired => ?_
  split
  · exact Task.calm_pure _
  · refine Task.calm_bind (Task.calm_mapErr (Task.calm_execute _ _)) fun _ => ?_
    refine Task.calm_bind (Task.calm_mapErr (Task.calm_commit _)) fun _ => ?_
    exact Task.calm_bind Task.calm_hashOrder fun _ => Task.calm_pure _

/-- A message about released hosts has no deadlines in it. -/
theorem Notifier.calm_hostsReleased (self : Notifier) (u : UserId) (ids : List HostId) :
    Task.Calm (self.notify u (.hostsReleased ids)) := by
  refine fun _ => Task.calm_withTx fun tx => ?_
  refine Task.calm_bind (Task.calm_mapErr (Task.calm_fetch _ _)) fun user => ?_
  split
  · exact Task.calm_throw _
  · split
    · exact Task.calm_throw _
    · dsimp only
      split
      · exact Task.calm_pure _
      · refine Task.calm_bind (Task.calm_mapErr (Task.calm_fetch _ _)) fun hosts => ?_
        intro r
        cases r with
        | ok _ => exact nofun
        | error _ => exact nofun

theorem ReleaseTimer.calm_notifyReleased (notifier : Notifier)
    (released : List (UserId × List HostId)) : Task.Calm (notifyReleased notifier released) := by
  induction released with
  | nil => exact Task.calm_pure _
  | cons x rest ih =>
    exact Task.calm_bind (Task.calm_attempt (notifier.calm_hostsReleased _ _)) fun _ => ih

theorem ReleaseTimer.calm_notifyReleasedHosts (notifier : Notifier) (released : List LeasedHost) :
    Task.Calm (notifyReleasedHosts notifier released) :=
  Task.calm_bind Task.calm_hashOrder fun _ => calm_notifyReleased _ _

theorem afterRelease_ne_crashed {self : ReleaseTimer}
    {r : Exit AnyError (List LeasedHost × ReleaseTimer)} (hr : ∀ msg, r ≠ .panic msg) :
    afterRelease self r ≠ .crashed := by
  cases r with
  | ok r => exact nofun
  | err e => exact nofun
  | panic msg => exact absurd rfl (hr msg)

theorem afterNotifyReleased_ne_crashed {self : ReleaseTimer} {r : Exit AnyError Unit}
    (hr : ∀ msg, r ≠ .panic msg) : afterNotifyReleased self r ≠ .crashed := by
  cases r with
  | ok r => exact nofun
  | err e => exact nofun
  | panic msg => exact absurd rfl (hr msg)

theorem afterPass_ne_crashed {self : ReleaseTimer} {r : Exit AnyError ReleaseTimer}
    (hr : ∀ msg, r ≠ .panic msg) : afterPass self r ≠ .crashed := by
  cases r with
  | ok r => exact nofun
  | err e => exact nofun
  | panic msg => exact absurd rfl (hr msg)

/-- **The timer does not panic**, in every run whose gaps are harmless. -/
theorem timer_ne_crashed_of_run (t : Tables) (timer : ReleaseTimer) {c : System}
    (hrun : machine.Run NotifyCond (t.systemWith timer) c) :
    (c.threads .timer).prog ≠ .ret .crashed := by
  intro hcrashed
  refine (timer_sound (fun _ => True) (fun l _ => l ≠ .crashed) (fun _ _ hc => hc.1) trivial nofun
    (fun _ => .const) (fun _ _ _ _ _ => trivial) (fun _ _ _ _ _ _ _ => trivial) ?_ hrun).2
      .crashed hcrashed rfl
  intro n κ l hpass
  refine ⟨fun h => Clean .timer h.state ∧ l ≠ .crashed, stable_clean.and .const,
    fun h _ hl hc => ⟨hc, hl⟩, Machine.Sketch.of_fact fun hl => ?_⟩
  have hbody : κ.body l = κ.program l.releaseTimer := by
    cases l with
    | crashed => exact absurd rfl hl
    | _ => rfl
  rw [hbody]
  have hcalm : ∀ {α : Type} {x : Task AnyError α} {f : Exit AnyError α → Local}, Task.Calm x →
      (∀ r, (∀ msg, r ≠ .panic msg) → f r ≠ .crashed) →
      machine.Sketch NotifyCond (fun _ => True) .timer n (fun l _ => l ≠ .crashed)
        (Prog.bind x fun r => .ret (f r)) fun h => Clean .timer h.state := fun hx hf =>
    .bind ((Machine.Sketch.of_returns hx).pre fun _ _ _ => trivial) fun r _ _ hr => hf r hr
  cases κ with
  | release => exact hcalm (ReleaseTimer.calm_release _) fun _ => afterRelease_ne_crashed
  | notifyReleasedHosts notifier released =>
    exact hcalm (ReleaseTimer.calm_notifyReleasedHosts notifier released)
      fun _ => afterNotifyReleased_ne_crashed
  | notifySoonRelease notifier =>
    exact .bind (sketch_notifySoonRelease _ notifier n) fun r _ _ hr => afterPass_ne_crashed hr
  | _ => cases hpass

/-- `alice` is told of a lease that ends soon, while `bob` releases what `bob` does not hold. -/
theorem timer_ne_crashed_of_run_small : ∃ c,
    machine.Run NotifyCond ((small (some (true, 5))).systemWith .new) c ∧
      (c.threads .timer).prog ≠ .ret .crashed := by
  obtain ⟨c, hrun, -⟩ := machine.exists_run_of_exec NotifyCond
    ((small (some (true, 5))).systemWith .new)
    [.call .timer (.notifySoonRelease ⟨fun _ => .ok 7⟩), .act .timer {}, .act .timer {},
      .act .timer {}, .call (.task 0) (.free bob.id [⟨1⟩]), .act (.task 0) {}, .act (.task 0) {},
      .act (.task 0) {}, .act (.task 0) {}, .act .timer {}, .act .timer {}, .act .timer {},
      .act .timer {}, .act .timer {}, .act .timer {}, .act .timer {}, .act .timer {},
      .act .timer {}, .act .timer {}]
    (fun c => (c.threads .timer).prog.value?.isSome) (by decide +kernel)
  exact ⟨c, hrun, timer_ne_crashed_of_run _ _ hrun⟩

/-- `alice` frees the host between the timer's query and its second look at the host. -/
theorem timer_crashed : ∃ c,
    machine.Run (Machine.Calling proper) ((small (some (true, 5))).systemWith .new) c ∧
      (c.threads .timer).prog = .ret .crashed := by
  obtain ⟨c, hrun, hc⟩ := machine.exists_run_of_exec (Machine.Calling proper)
    ((small (some (true, 5))).systemWith .new)
    [.call .timer (.notifySoonRelease ⟨fun _ => .ok 7⟩), .act .timer {}, .act .timer {},
      .act .timer {}, .call (.task 0) (.free alice.id [⟨1⟩]), .act (.task 0) {},
      .act (.task 0) {}, .act (.task 0) {}, .act (.task 0) {}, .act .timer {}, .act .timer {},
      .act .timer {}, .act .timer {}, .act .timer {}, .act .timer {}, .act .timer {},
      .act .timer {}]
    (fun c => (c.threads .timer).prog.value?.any Local.isCrashed) (by decide +kernel)
  obtain ⟨l, hvalue, hl⟩ := (Option.any_eq_true _ _).mp hc
  rw [Prog.value?_eq_some] at hvalue
  rw [Local.isCrashed_iff.mp hl] at hvalue
  exact ⟨c, hrun, hvalue⟩

end Tachikoma
