import Tachikoma.Proof.Passes

/-!
# The timer remembers what its passes sent

`sent_hosts_notification` is an unseen map, extended where a message went out, pruned by a later
pass and by a release. Between two passes it is exactly what the passes so far make of it
(`ReleaseTimer.Recalls`): **a host is in the list of a user if and only if it is `Remembered`**. The
proof follows the text of the two passes; the edits themselves are in `Tachikoma/Proof/Passes.lean`.

What a pass sends is new to the map, so nothing that is remembered is sent again, and a user who is
told twice of one host was told the second time because a pass in between forgot the first.
-/

set_option autoImplicit false

namespace Tachikoma

open Interleaving Unordered

/-- The map is what is remembered of the passes so far. -/
structure ReleaseTimer.Recalls (timer : ReleaseTimer) (h : History) : Prop where
  sent : Tracks (sentHostIds timer.sentHostsNotification) (passes h.trace)
  delay : timer.expirationNotifyDelayTime = EXPIRATION_NOTIFY_WINDOW

theorem ReleaseTimer.Recalls.stable {Cond : History → Ev → Prop} {Inv : History → Prop}
    {self : ReleaseTimer} : machine.Stable Cond Inv .timer self.Recalls := by
  intro h ev hI hA hne hl hc
  exact ⟨stable_passes h ev hI hA.sent hne hl hc, hA.delay⟩

/-- No pass of the history has sent what was remembered. -/
def Fresh (h : History) : Prop := Unrepeated (passes h.trace)

theorem Fresh.push_of_ne {h : History} {ev : Ev} (hI : Fresh h) (hne : ev.pid ≠ .timer) :
    Fresh (h.push ev) := by
  rw [Fresh, Hist.push_trace, passes_of_ne hne]
  exact hI

theorem Fresh.called {h : History} (hI : Fresh h) (p : Pid) (n : Nat) (κ : Call) :
    Fresh (h.push (.called p n κ)) := by
  rw [Fresh, Hist.push_trace]
  rcases passes_called p n κ h.trace with ⟨kind, hps⟩ | hps
  · rw [hps]
    exact hI.cons_new kind
  · rw [hps]
    exact hI

/-- What is no notice sends nothing. -/
theorem Fresh.did {h : History} {n : Nat} {e : Effect} {r : e.Res} {w' : World} (hI : Fresh h)
    (he : NoNotice e) : Fresh (h.push (.did .timer n e r h.state w')) := by
  cases hps : passes h.trace with
  | nil =>
    rw [Fresh, Hist.push_trace, passes, hps]
    trivial
  | cons p ps =>
    rw [Fresh, hps] at hI
    rw [Fresh, passes_did hps]
    refine ⟨fun u x hx => hI.1 u x ?_, hI.2⟩
    rwa [Pass.Sends, note_sent he] at hx

/-- In a pass of which `P` holds, when `sent` is remembered. -/
def During (kind : PassKind) (P : Pass → Prop) (sent : UserId → List HostId) (h : History) : Prop :=
  ∃ p ps, passes h.trace = p :: ps ∧ p.kind = kind ∧ P p ∧ Tracks sent (p :: ps)

section Memory

variable {Cond : History → Ev → Prop} {Inv : History → Prop} {n : Nat} {kind : PassKind}
  {P P' : Pass → Prop} {sent sent' : UserId → List HostId} {h : History}

theorem During.stable : machine.Stable Cond Inv .timer (During kind P sent) :=
  stable_passes (A := fun qs => ∃ p ps, qs = p :: ps ∧ p.kind = kind ∧ P p ∧ Tracks sent (p :: ps))

theorem During.mono (hA : During kind P sent h) (hP : ∀ p, p.kind = kind → P p → P' p) :
    During kind P' sent h := by
  obtain ⟨p, ps, hps, hkind, hp, ht⟩ := hA
  exact ⟨p, ps, hps, hkind, hP p hkind hp, ht⟩

theorem During.recalls {self : ReleaseTimer}
    (hA : During kind P (ReleaseTimer.sentHostIds self.sentHostsNotification) h)
    (hdelay : self.expirationNotifyDelayTime = EXPIRATION_NOTIFY_WINDOW) : self.Recalls h := by
  obtain ⟨p, ps, hps, -, -, ht⟩ := hA
  exact ⟨hps ▸ ht, hdelay⟩

/-- An effect that leaves no trace in a pass changes nothing of it. -/
theorem passes_quiet {e : Effect} {r : e.Res} {w' : World}
    (hnote : ∀ p : Pass, p.note h.trace (.did .timer n e r h.state w') = p) :
    passes (h.push (.did .timer n e r h.state w')).trace = passes h.trace := by
  cases hps : passes h.trace with
  | nil => rw [Hist.push_trace, passes, hps]; rfl
  | cons p ps => rw [passes_did hps, hnote]

theorem ReleaseTimer.Recalls.quiet {self : ReleaseTimer} (hA : self.Recalls h) {e : Effect}
    {r : e.Res} {w' : World}
    (hnote : ∀ p : Pass, p.note h.trace (.did .timer n e r h.state w') = p) :
    self.Recalls (h.push (.did .timer n e r h.state w')) :=
  ⟨passes_quiet hnote ▸ hA.sent, hA.delay⟩

/-- The beginning of a pass. -/
theorem ReleaseTimer.Recalls.begin {self : ReleaseTimer} (hA : self.Recalls h) {κ : Call}
    (hκ : κ.passKind = some kind) (n : Nat) :
    During kind (fun p => p.read = none ∧ p.sent = [] ∧ p.freed = false)
      (sentHostIds self.sentHostsNotification) (h.push (.called .timer n κ)) := by
  refine ⟨.new kind, passes h.trace, ?_, rfl, ⟨rfl, rfl, rfl⟩, hA.sent.cons_new kind⟩
  rw [Hist.push_trace, passes_begun hκ]

/-- An effect that is no notice. -/
theorem During.did {e : Effect} {r : e.Res} {w' : World} (hA : During kind P sent h) (hI : Fresh h)
    (he : NoNotice e)
    (hnote : ∀ p ps, p.kind = kind → P p → Tracks sent (p :: ps) →
      P' (p.note h.trace (.did .timer n e r h.state w')) ∧
        Tracks sent' (p.note h.trace (.did .timer n e r h.state w') :: ps)) :
    Fresh (h.push (.did .timer n e r h.state w')) ∧
      During kind P' sent' (h.push (.did .timer n e r h.state w')) := by
  obtain ⟨p, ps, hps, hkind, hp, ht⟩ := hA
  obtain ⟨hp', ht'⟩ := hnote p ps hkind hp ht
  exact ⟨hI.did he, _, ps, passes_did hps n e r w', (note_kind _ _ p).trans hkind, hp', ht'⟩

/-- An effect that leaves no trace in the pass. -/
theorem During.quiet {e : Effect} {r : e.Res} {w' : World} (hA : During kind P sent h)
    (hI : Fresh h) (he : NoNotice e)
    (hnote : ∀ p : Pass, p.note h.trace (.did .timer n e r h.state w') = p) :
    Fresh (h.push (.did .timer n e r h.state w')) ∧
      During kind P sent (h.push (.did .timer n e r h.state w')) :=
  hA.did hI he fun p ps _ hp ht => by rw [hnote p]; exact ⟨hp, ht⟩

/-- A pass that fails before it has sent or freed anything. -/
theorem During.stops {self : ReleaseTimer} {e : Effect} {r : e.Res} {w' : World}
    (hA : During kind P (ReleaseTimer.sentHostIds self.sentHostsNotification) h) (hI : Fresh h)
    (hdelay : self.expirationNotifyDelayTime = EXPIRATION_NOTIFY_WINDOW) (he : NoNotice e)
    (hnote : ∀ p : Pass, p.note h.trace (.did .timer n e r h.state w') = p) :
    Fresh (h.push (.did .timer n e r h.state w')) ∧
      self.Recalls (h.push (.did .timer n e r h.state w')) :=
  ⟨hI.did he, (hA.quiet hI he hnote).2.recalls hdelay⟩

/-! ## A pass that announces -/

/-- While the users of a list are to be told of leases that this pass has read. -/
def Telling (sent : UserId → List HostId) (rest : List (UserId × List HostId)) : History → Prop :=
  During .notifySoonRelease (fun p => ∀ v ∈ rest, ∀ x ∈ v.2, ¬ p.Forgets v.1 x) sent

theorem Telling.tail {rest : List (UserId × List HostId)} {v : UserId × List HostId}
    (hA : Telling sent (v :: rest) h) : Telling sent rest h :=
  hA.mono fun _ _ hp w hw => hp w (List.mem_cons_of_mem _ hw)

/-- A notice goes out. What it lists was not in the map and is not forgotten by its own pass, so it
    was not remembered. -/
theorem Telling.send {u : UserId} {ids ids' : List HostId} {rest : List (UserId × List HostId)}
    (hA : Telling sent ((u, ids) :: rest) h) (hI : Fresh h)
    (hids : ∀ x ∈ ids', x ∈ ids ∧ x ∉ sent u) {sender : MsgSender} {msg : Message}
    (hu : sender.user.id = u)
    (hmsg : msg.notification = .expirationSoon ids') :
    Fresh (h.push (.did .timer n (.send sender msg) (.ok ()) h.state h.state)) ∧
      Telling (Function.update sent u (sent u ++ ids')) rest
        (h.push (.did .timer n (.send sender msg) (.ok ()) h.state h.state)) := by
  obtain ⟨p, ps, hps, hkind, hp, ht⟩ := hA
  have hps' := passes_did hps n (.send sender msg) (.ok ()) h.state
  have hnote : p.note h.trace (.did .timer n (.send sender msg) (.ok ()) h.state h.state) =
      { p with sent := (u, ids') :: p.sent } := by
    simp only [Pass.note, hmsg, hu]
  rw [hnote] at hps'
  refine ⟨?_, _, ps, hps', hkind, fun v hv x hx => hp v (List.mem_cons_of_mem _ hv) x hx,
    ht.send rfl fun _ _ => Iff.rfl⟩
  rw [Fresh, hps] at hI
  rw [Fresh, hps']
  refine ⟨fun v x hx => ?_, hI.2⟩
  obtain ⟨w, hw, rfl, hx⟩ := hx
  rcases List.mem_cons.mp hw with rfl | hw
  · have hno : ¬ Remembered u x (p :: ps) := fun hrem => (hids x hx).2 ((ht u x).mpr hrem)
    exact fun hrem => hno (.inr ⟨hrem, hp _ List.mem_cons_self x (hids x hx).1⟩)
  · exact hI.1 w.1 x ⟨w, hw, rfl, hx⟩

/-- The query for the leases about to end. What this pass has read it does not forget. -/
theorem During.reads {sent : UserId → Option (List HostId)}
    (hA : During .notifySoonRelease (fun p => p.read = none ∧ p.sent = [] ∧ p.freed = false)
      (ReleaseTimer.sentHostIds sent) h) (hI : Fresh h) (tx : RegistryTx) (until_ : Time)
    (hosts : List LeasedHost) :
    Fresh (h.push (.did .timer n (.fetch tx (.getLeasedUntilHosts until_)) (.ok hosts) h.state
        h.state)) ∧
      Telling (ReleaseTimer.sentHostIds (ReleaseTimer.retain
          ((ReleaseTimer.usersHosts hosts).flatMap (·.2)) sent)) (ReleaseTimer.usersHosts hosts)
        (h.push (.did .timer n (.fetch tx (.getLeasedUntilHosts until_)) (.ok hosts) h.state
          h.state)) := by
  refine hA.did hI (noNotice_of_ne (by simp)) fun p ps hkind hp ht => ⟨?_, ?_⟩
  · intro v hv x hx hforgets
    obtain ⟨l, hl, -, hid⟩ := mem_usersHosts.mp ⟨v.2, hv, hx⟩
    rcases hforgets with ⟨-, r, hr, hno⟩ | ⟨hkind', -⟩
    · cases Option.some.inj hr
      exact hno l hl hid
    · exact absurd (hkind.symm.trans hkind') (by simp)
  · exact ht.retain (r := ⟨hosts, h.state, h.trace⟩) hkind hp.1 hp.2.1 rfl

theorem sketch_telling_notice (notifier : Notifier) {u : UserId} {ids ids' : List HostId}
    {rest : List (UserId × List HostId)} (hids' : ids' ≠ [])
    (hmem : ∀ x ∈ ids', x ∈ ids ∧ x ∉ sent u) :
    machine.Sketch Cond Fresh .timer n
      (exits (fun _ => Telling (Function.update sent u (sent u ++ ids')) rest) (Telling sent rest)
        fun _ => True)
      (notifier.notify u (.expirationSoon ids')) (Telling sent ((u, ids) :: rest)) := by
  have hst : machine.Stable Cond Fresh .timer
      (Telling (Function.update sent u (sent u ++ ids')) rest) := During.stable
  refine (sketch_expirationSoon notifier hids' (A := fun _ => Telling sent ((u, ids) :: rest))
    (B := Telling sent ((u, ids) :: rest)) (fun _ => During.stable) During.stable hst hst
    .true ?_ ?_ ?_ ?_ ?_ ?_ ?_).post fun r h _ hQ => ?_
  · exact fun h hI hA _ => hA.did hI (noNotice_of_ne (by simp)) fun p ps _ hp ht =>
      ⟨hp, ht.congr rfl fun _ _ => Iff.rfl⟩
  · intro h r w' hI hA _ _
    have hA' : Fresh (h.push (.did .timer n .begin r h.state w')) ∧
        Telling sent ((u, ids) :: rest) (h.push (.did .timer n .begin r h.state w')) :=
      hA.quiet hI (noNotice_of_ne (by simp)) fun _ => rfl
    exact ⟨hA'.1, fun _ => hA'.2, fun _ => hA'.2⟩
  · intro h _ e r he hI hA _ _
    refine hA.did hI (noNotice_of_ne (by cases he <;> simp)) fun p ps _ hp ht => ?_
    cases he with
    | getUserById => exact ⟨hp, ht⟩
    | getHosts => exact ⟨hp, ht⟩
    | now => exact ⟨hp, ht.congr rfl fun _ _ => Iff.rfl⟩
  · exact fun _ _ _ _ _ _ _ hA => hA
  · exact fun _ _ _ _ _ _ _ _ _ => .inr fun _ _ _ => trivial
  · intro h sender msg r hu hmsg hI hA _
    cases r with
    | ok _ =>
      have hA' := hA.send (n := n) hI hmem hu hmsg
      exact ⟨hA'.1, fun _ => hA'.2, nofun⟩
    | error _ =>
      -- A message that does not go out is not noted.
      obtain ⟨p, ps, hps, hkind, hp, ht⟩ := hA
      have hps' := passes_did hps n (.send sender msg) (.error ()) h.state
      have hsame :
          passes (h.push (.did .timer n (.send sender msg) (.error ()) h.state h.state)).trace =
          passes h.trace := hps'.trans hps.symm
      exact ⟨by rw [Fresh, hsame]; exact hI, nofun, fun _ => ⟨p, ps, hps', hkind, hp, ht⟩⟩
  · intro h tx w' hI _ _ hA
    have hquiet : ∀ {sent rest}, Telling sent rest h →
        Telling sent rest (h.push (.did .timer n (.drop tx) () h.state w')) := fun hA =>
      (hA.quiet hI (noNotice_of_ne (by simp)) fun _ => rfl).2
    exact ⟨hI.did (noNotice_of_ne (by simp)), fun _ => hquiet, hquiet, fun _ => trivial⟩
  · cases r with
    | ok a => exact hQ
    | err e => exact hQ.tail
    | panic msg => trivial

theorem sketch_telling {E : History → Prop} (notifier : Notifier)
    (sent : UserId → Option (List HostId)) (expiring : List (UserId × List HostId)) :
    machine.Sketch Cond Fresh .timer n
      (exits (fun sent => Telling (ReleaseTimer.sentHostIds sent) []) E fun _ => True)
      (ReleaseTimer.notifySoon notifier sent expiring)
      (Telling (ReleaseTimer.sentHostIds sent) expiring) := by
  refine sketch_notifySoon notifier (I := Telling) (fun _ _ => During.stable) ?_
    (fun _ _ _ _ _ _ hA _ => hA.tail) ?_ sent expiring
  · exact fun h o sent rest hI hA _ => hA.quiet hI (e := .hashOrder) (noNotice_of_ne (by simp))
      fun _ => rfl
  · exact fun u ids rest sent ids' hids' hmem =>
      sketch_telling_notice notifier hids' fun x hx => (hmem x).mp hx

theorem sketch_notifySoonRelease_recalls (self : ReleaseTimer) (notifier : Notifier)
    (hdelay : self.expirationNotifyDelayTime = EXPIRATION_NOTIFY_WINDOW) :
    machine.Sketch Cond Fresh .timer n
      (exits (fun self' => ReleaseTimer.Recalls self') self.Recalls fun _ => True)
      (self.notifySoonRelease notifier)
      (During .notifySoonRelease (fun p => p.read = none ∧ p.sent = [] ∧ p.freed = false)
        (ReleaseTimer.sentHostIds self.sentHostsNotification)) := by
  refine Task.sketch_withTx (fun _ => During .notifySoonRelease
      (fun p => p.read = none ∧ p.sent = [] ∧ p.freed = false)
      (ReleaseTimer.sentHostIds self.sentHostsNotification))
    (fun _ => exits (fun self' => ReleaseTimer.Recalls self') self.Recalls fun _ => True)
    (fun _ => During.stable)
    (fun r => stable_exits (fun _ => ReleaseTimer.Recalls.stable)
      ReleaseTimer.Recalls.stable .true r)
    ?_ ?_ ?_ ?_
  · exact fun h tx w' hI hA _ _ => hA.quiet hI (noNotice_of_ne (by simp)) fun _ => rfl
  · exact fun h err w' hI hA _ _ =>
      hA.stops hI hdelay (noNotice_of_ne (by simp)) fun _ => rfl
  · intro tx
    refine Task.sketch_bind (B := fun _ => During .notifySoonRelease
      (fun p => p.read = none ∧ p.sent = [] ∧ p.freed = false)
      (ReleaseTimer.sentHostIds self.sentHostsNotification)) ?_ fun now => ?_
    · refine Task.sketch_utcNow (fun _ => During.stable) fun h now hI hA _ => ?_
      exact hA.did hI (noNotice_of_ne (by simp)) fun p ps _ hp ht =>
        ⟨hp, ht.congr rfl fun _ _ => Iff.rfl⟩
    refine Task.sketch_bind (B := fun hosts => Telling (ReleaseTimer.sentHostIds
        (ReleaseTimer.retain ((ReleaseTimer.usersHosts (hosts : List LeasedHost)).flatMap (·.2))
          self.sentHostsNotification)) (ReleaseTimer.usersHosts hosts))
      (Task.sketch_mapErr ?_) fun hosts => ?_
    · refine Task.sketch_fetch (fun _ => During.stable) ReleaseTimer.Recalls.stable ?_ ?_
      · exact fun h order hosts hI hA _ _ => hA.reads hI tx _ hosts
      · exact fun h err hI hA _ =>
          hA.stops hI hdelay (noNotice_of_ne (by simp)) fun _ => rfl
    dsimp only
    refine Task.sketch_bind (B := fun order => Telling (ReleaseTimer.sentHostIds
        (ReleaseTimer.retain ((ReleaseTimer.usersHosts hosts).flatMap (·.2))
          self.sentHostsNotification)) (arrange order (ReleaseTimer.usersHosts hosts)))
      ?_ fun order => ?_
    · refine Task.sketch_hashOrder (fun _ => During.stable) fun h order hI hA _ => ?_
      refine ⟨hI.did (noNotice_of_ne (by simp)), ?_⟩
      exact (hA.quiet hI (noNotice_of_ne (by simp)) fun _ => rfl).2.mono
        fun p _ hp v hv => hp v (mem_arrange.mp hv)
    refine Task.sketch_bind (B := fun sent => Telling (ReleaseTimer.sentHostIds sent) [])
      (sketch_telling notifier _ _) fun sent => Task.sketch_pure fun h _ hA => ?_
    exact During.recalls hA hdelay
  · intro tx r h w' hI hQ _ _
    refine ⟨hI.did (noNotice_of_ne (by simp)), ?_⟩
    cases r with
    | ok self' => exact hQ.quiet fun _ => rfl
    | err e => exact hQ.quiet fun _ => rfl
    | panic msg => trivial

/-! ## A pass that releases -/

theorem sketch_release_recalls (self : ReleaseTimer)
    (hdelay : self.expirationNotifyDelayTime = EXPIRATION_NOTIFY_WINDOW) :
    machine.Sketch Cond Fresh .timer n
      (exits (fun r => ReleaseTimer.Recalls r.2) self.Recalls fun _ => True) self.release
      (During .release (fun p => p.read = none ∧ p.sent = [] ∧ p.freed = false)
        (ReleaseTimer.sentHostIds self.sentHostsNotification)) := by
  refine Task.sketch_withTx (fun _ => During .release
      (fun p => p.read = none ∧ p.sent = [] ∧ p.freed = false)
      (ReleaseTimer.sentHostIds self.sentHostsNotification))
    (fun _ => exits (fun r => ReleaseTimer.Recalls r.2) self.Recalls fun _ => True)
    (fun _ => During.stable)
    (fun r => stable_exits (fun _ => ReleaseTimer.Recalls.stable)
      ReleaseTimer.Recalls.stable .true r)
    ?_ ?_ ?_ ?_
  · exact fun h tx w' hI hA _ _ => hA.quiet hI (noNotice_of_ne (by simp)) fun _ => rfl
  · exact fun h err w' hI hA _ _ =>
      hA.stops hI hdelay (noNotice_of_ne (by simp)) fun _ => rfl
  · intro tx
    refine Task.sketch_bind (B := fun _ => During .release
      (fun p => p.read = none ∧ p.sent = [] ∧ p.freed = false)
      (ReleaseTimer.sentHostIds self.sentHostsNotification)) ?_ fun now => ?_
    · refine Task.sketch_utcNow (fun _ => During.stable) fun h now hI hA _ => ?_
      exact hA.did hI (noNotice_of_ne (by simp)) fun p ps _ hp ht =>
        ⟨hp, ht.congr rfl fun _ _ => Iff.rfl⟩
    -- Until the commit, what the pass has read is only read.
    refine Task.sketch_bind (B := fun hosts => During .release
      (fun p => (∃ r, p.read = some r ∧ r.hosts = hosts) ∧ p.sent = [] ∧ p.freed = false)
      (ReleaseTimer.sentHostIds self.sentHostsNotification)) (Task.sketch_mapErr ?_) fun hosts => ?_
    · refine Task.sketch_fetch (fun _ => During.stable) ReleaseTimer.Recalls.stable ?_ ?_
      · intro h order hosts hI hA _ _
        refine hA.did hI (noNotice_of_ne (by simp)) fun p ps hkind hp ht =>
          ⟨⟨⟨_, rfl, rfl⟩, hp.2⟩, ht.congr rfl fun u x => ?_⟩
        simp [Pass.note, Pass.Forgets, Pass.ReadsWithout, Pass.Releases, hkind, hp.2.2]
      · exact fun h err hI hA _ =>
          hA.stops hI hdelay (noNotice_of_ne (by simp)) fun _ => rfl
    split
    · exact Task.sketch_pure fun h _ hA => hA.recalls hdelay
    refine Task.sketch_bind (B := fun _ => During .release
      (fun p => (∃ r, p.read = some r ∧ r.hosts = hosts) ∧ p.sent = [] ∧ p.freed = false)
      (ReleaseTimer.sentHostIds self.sentHostsNotification)) (Task.sketch_mapErr ?_) fun _ => ?_
    · refine Task.sketch_execute (fun _ => During.stable) ReleaseTimer.Recalls.stable ?_ ?_
      · exact fun h _ w' hI hA _ _ => hA.quiet hI (noNotice_of_ne (by simp)) fun _ => rfl
      · exact fun h err w' hI hA _ _ =>
          hA.stops hI hdelay (noNotice_of_ne (by simp)) fun _ => rfl
    refine Task.sketch_bind (B := fun _ h => ∀ order, During .release (fun _ => True)
        (ReleaseTimer.sentHostIds (ReleaseTimer.forget self.sentHostsNotification
          (arrange order (ReleaseTimer.usersHosts hosts)))) h) (Task.sketch_mapErr ?_) fun _ => ?_
    · refine Task.sketch_commit (fun _ => .forall fun _ => During.stable)
        ReleaseTimer.Recalls.stable ?_ ?_
      · intro h w' hI hA _ _
        refine ⟨hI.did (noNotice_of_ne (by simp)), fun order => ?_⟩
        refine (hA.did hI (noNotice_of_ne (by simp)) fun p ps hkind hp ht => ⟨trivial, ?_⟩).2
        obtain ⟨⟨r, hread, rfl⟩, hsent, hfreed⟩ := hp
        exact ht.forget hkind hread hsent hfreed rfl
      · exact fun h err w' hI hA _ _ =>
          hA.stops hI hdelay (noNotice_of_ne (by simp)) fun _ => rfl
    refine Task.sketch_bind (B := fun order => During .release (fun _ => True)
      (ReleaseTimer.sentHostIds (ReleaseTimer.forget self.sentHostsNotification
        (arrange order (ReleaseTimer.usersHosts hosts)))))
      (Task.sketch_hashOrder (fun _ => During.stable) ?_) fun order =>
        Task.sketch_pure fun h _ hA => During.recalls hA hdelay
    exact fun h order hI hA _ => (hA order).quiet hI (noNotice_of_ne (by simp)) fun _ => rfl
  · intro tx r h w' hI hQ _ _
    refine ⟨hI.did (noNotice_of_ne (by simp)), ?_⟩
    cases r with
    | ok r => exact hQ.quiet fun _ => rfl
    | err e => exact hQ.quiet fun _ => rfl
    | panic msg => trivial

/-! ## Any pass -/

/-- Messages about released hosts are not what is remembered. -/
theorem sketch_notifyReleasedHosts_recalls (notifier : Notifier) (released : List LeasedHost) :
    machine.Sketch Cond Fresh .timer n
      (fun _ => During .notifyReleasedHosts (fun _ => True) sent)
      (ReleaseTimer.notifyReleasedHosts notifier released)
      (During .notifyReleasedHosts (fun _ => True) sent) := by
  refine Machine.Sketch.keep (ReleaseTimer.emits_notifyReleasedHosts_noNotice notifier released)
    During.stable fun h e env r w' he hI hA _ _ => ?_
  refine hA.did hI he fun p ps hkind _ ht =>
    ⟨trivial, ht.congr (note_sent he _ p) fun u x => ?_⟩
  simp [Pass.Forgets, Pass.ReadsWithout, Pass.Releases, note_kind, hkind]

/-- What the timer keeps between two passes. -/
def Local.Recalls (l : Local) (h : History) : Prop :=
  l = .crashed ∨ ∃ self, l = .timer self ∧ self.Recalls h

theorem Local.Recalls.stable {l : Local} : machine.Stable Cond Inv .timer l.Recalls := by
  rintro h ev hI (hl | ⟨self, hl, hA⟩) hne hlegal hc
  · exact .inl hl
  · exact .inr ⟨self, hl, ReleaseTimer.Recalls.stable h ev hI hA hne hlegal hc⟩

theorem Call.sketch_recalls {κ : Call} (hκ : κ.passKind = some kind) {self : ReleaseTimer}
    (hdelay : self.expirationNotifyDelayTime = EXPIRATION_NOTIFY_WINDOW) :
    machine.Sketch Cond Fresh .timer n Local.Recalls (κ.program self)
      (During kind (fun p => p.read = none ∧ p.sent = [] ∧ p.freed = false)
        (ReleaseTimer.sentHostIds self.sentHostsNotification)) := by
  cases κ with
  | release =>
    cases hκ
    refine .bind (sketch_release_recalls self hdelay) fun r h _ hQ => ?_
    cases r with
    | ok r => exact .inr ⟨_, rfl, hQ⟩
    | err e => exact .inr ⟨_, rfl, hQ⟩
    | panic msg => exact .inl rfl
  | notifyReleasedHosts notifier released =>
    cases hκ
    refine .bind ((sketch_notifyReleasedHosts_recalls notifier released).pre
      fun h _ hA => hA.mono fun _ _ _ => trivial) fun r h _ hQ => ?_
    cases r with
    | ok r => exact .inr ⟨_, rfl, hQ.recalls hdelay⟩
    | err e => exact .inr ⟨_, rfl, hQ.recalls hdelay⟩
    | panic msg => exact .inl rfl
  | notifySoonRelease notifier =>
    cases hκ
    refine .bind (sketch_notifySoonRelease_recalls self notifier hdelay) fun r h _ hQ => ?_
    cases r with
    | ok r => exact .inr ⟨_, rfl, hQ⟩
    | err e => exact .inr ⟨_, rfl, hQ⟩
    | panic msg => exact .inl rfl
  | _ => cases hκ

end Memory

/-! ## Runs -/

theorem Call.exists_passKind {κ : Call} (h : κ.isPass = true) : ∃ kind, κ.passKind = some kind := by
  cases κ with
  | release => exact ⟨_, rfl⟩
  | notifyReleasedHosts => exact ⟨_, rfl⟩
  | notifySoonRelease => exact ⟨_, rfl⟩
  | _ => cases h

/-- In every run of a new timer, whatever the other tasks do in between and inside its passes, the
    map between two passes is what is remembered, and nothing remembered was sent. -/
theorem recalls_of_run {t : Tables} {c : System}
    (hrun : machine.Run (Machine.Calling proper) t.system c) :
    Fresh c.hist ∧ ∀ l, (c.threads .timer).prog = .ret l → l.Recalls c.hist := by
  refine timer_sound Fresh Local.Recalls (fun _ _ hc => hc) trivial
    (.inr ⟨_, rfl, tracks_nil, rfl⟩) (fun _ => Local.Recalls.stable)
    (fun h p n κ hI => hI.called p n κ) (fun h i n e r w' hI => hI.push_of_ne nofun) ?_
    (show machine.Run _ (t.systemWith .new) c from hrun)
  intro n κ l hpass
  obtain ⟨kind, hκ⟩ := Call.exists_passKind hpass
  cases l with
  | crashed => exact ⟨fun _ => True, .true, fun _ _ _ _ => trivial, fun _ _ _ => .inl rfl⟩
  | timer self =>
    refine ⟨fun h => During kind (fun p => p.read = none ∧ p.sent = [] ∧ p.freed = false)
        (ReleaseTimer.sentHostIds self.sentHostsNotification) h ∧
      self.expirationNotifyDelayTime = EXPIRATION_NOTIFY_WINDOW,
      During.stable.and .const, fun h _ hl _ => ?_,
      Machine.Sketch.of_fact fun hdelay => Call.sketch_recalls hκ hdelay⟩
    rcases hl with hl | ⟨self', hl, hA⟩
    · cases hl
    · cases hl
      exact ⟨hA.begin hκ n, hA.delay⟩
  | _ =>
    -- The timer has nothing else to start from.
    refine ⟨fun _ => False, .const, fun h _ hl _ => ?_, .of_false⟩
    rcases hl with hl | ⟨self', hl, -⟩ <;> cases hl

/-- **Nobody is told twice of one expiry.** Two passes of a timer have both sent a user a notice
    that lists a host: then a pass in between has read which leases are about to end and not found
    the host among them, or has found it expired in the hands of the user and released it. -/
theorem forgotten_between_of_run (t : Tables) {c : System}
    (hrun : machine.Run (Machine.Calling proper) t.system c) {later between earlier : List Pass}
    {p₁ p₂ : Pass} (hpasses : passes c.hist.trace = later ++ p₂ :: between ++ p₁ :: earlier)
    {u : UserId} {x : HostId} (h₁ : p₁.Sends u x) (h₂ : p₂.Sends u x) :
    ∃ q ∈ between, q.ReadsWithout x ∨ q.Releases u x := by
  have hfresh := (recalls_of_run hrun).1
  rw [Fresh, hpasses, List.append_assoc] at hfresh
  exact exists_forgets h₁ (hfresh.of_append.1 u x h₂)

/-- `alice` is told of the first host twice: it was extended in between, and a pass that came before
    the second notice found nothing about to end. -/
theorem forgotten_between_of_run_small : ∃ c later between earlier p₁ p₂,
    machine.Run (Machine.Calling proper) (small (some (true, 5))).system c ∧
      passes c.hist.trace = later ++ p₂ :: between ++ p₁ :: earlier ∧
      p₁.Sends alice.id ⟨1⟩ ∧ p₂.Sends alice.id ⟨1⟩ ∧
      ∃ q ∈ between, q.ReadsWithout ⟨1⟩ ∨ q.Releases alice.id ⟨1⟩ := by
  obtain ⟨c, hrun, hc⟩ := machine.exists_run_of_exec (Machine.Calling proper)
    (small (some (true, 5))).system
    (List.flatten [[.call .timer (.notifySoonRelease ⟨fun _ => .ok 7⟩)],
      .replicate 13 (.act .timer {}),
      [.call (.task 0) (.extendUserHosts "7" 24)], .replicate 9 (.act (.task 0) {}),
      [.call .timer (.notifySoonRelease ⟨fun _ => .ok 7⟩)], .replicate 5 (.act .timer {}),
      [.call .timer (.notifySoonRelease ⟨fun _ => .ok 7⟩)],
      .replicate 13 (.act .timer { time := TimeDelta.hours 24 })])
    (fun c => (passes c.hist.trace).length = 3 &&
      decide (∀ pass ∈ (passes c.hist.trace).eraseIdx 1, pass.Sends alice.id ⟨1⟩))
    (by decide +kernel)
  obtain ⟨hlength, hsends⟩ := (Bool.and_eq_true _ _).mp hc
  obtain ⟨p₂, q, p₁, hpasses⟩ := List.length_eq_three.mp (of_decide_eq_true hlength)
  have hsends := of_decide_eq_true hsends
  rw [hpasses] at hsends
  have h₁ : p₁.Sends alice.id ⟨1⟩ := hsends p₁ (by simp)
  have h₂ : p₂.Sends alice.id ⟨1⟩ := hsends p₂ (by simp)
  have hpasses : passes c.hist.trace = [] ++ p₂ :: [q] ++ p₁ :: [] := hpasses
  exact ⟨c, [], [q], [], p₁, p₂, hrun, hpasses, h₁, h₂,
    forgotten_between_of_run _ hrun hpasses h₁ h₂⟩

end Tachikoma
