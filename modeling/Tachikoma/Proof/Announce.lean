import Tachikoma.Proof.Holders
import Tachikoma.Proof.Memory
import Tachikoma.Proof.NotifyGap

/-!
# No expiring lease goes unannounced

The timer keeps its announcements under the user and the host, and a lease is neither: **a notice of
a lease that is over suppresses the notice of the next one**, if the same user leases the same host
again before a pass has found the host not about to end. An extension that leaves less than half an
hour is passed over in the same way.

Where operations come between the passes, this is the only way to miss a notice. A pass tells a user
of exactly the leases it reads and does not remember (`Pass.Exact`), whatever fails; so nothing is
missed in a run if and only if what its passes remember of the leases they read is of these leases
(`Pass.UpToDate`). What is remembered is said in terms of what the passes have read, released and
sent (`Remembered`), not of the map of the timer.
-/

set_option autoImplicit false

namespace Tachikoma

open Interleaving Unordered

/-! ## Leases and their notices -/

/-- The user holds the host, and the lease ends before the time. -/
def World.Expiring (w : World) (until_ : Time) (u : UserId) (x : HostId) : Prop :=
  ∃ row ∈ w.host x, row.userId = some u ∧ expiresBefore until_ row = true

instance (w : World) (until_ : Time) (u : UserId) (x : HostId) :
    Decidable (w.Expiring until_ u x) :=
  inferInstanceAs (Decidable (∃ row ∈ w.host x, _))

/-- The notice of leases that end soon that an event has sent: to whom, and of which hosts. -/
def sentNotice : Ev → Option (UserId × List HostId)
  | .did _ _ (.send sender msg) (.ok _) _ _ =>
    match msg.notification with
    | .expirationSoon ids => some (sender.user.id, ids)
    | .hostsReleased _ => none
  | _ => none

/-- The user was sent a notice of the host since its row was committed last. While the user holds
    the host, that is since the lease began or was extended last. -/
def Announced (u : UserId) (x : HostId) : Trace → Prop
  | [] => False
  | ev :: tr =>
    committedRow x ev = none ∧ ((∃ v ∈ sentNotice ev, v.1 = u ∧ x ∈ v.2) ∨ Announced u x tr)

instance (u : UserId) (x : HostId) : ∀ tr, Decidable (Announced u x tr)
  | [] => inferInstanceAs (Decidable False)
  | ev :: tr =>
    have := instDecidableAnnounced u x tr
    inferInstanceAs (Decidable
      (committedRow x ev = none ∧ ((∃ v ∈ sentNotice ev, v.1 = u ∧ x ∈ v.2) ∨ Announced u x tr)))

namespace Pass

variable (p : Pass)

/-- Of every lease about to end that was not announced yet, the pass tells the holder. -/
def Announces : Prop :=
  p.kind = .notifySoonRelease → ∀ r ∈ p.read, ∃ now ∈ p.now, ∀ u x,
    r.world.Expiring (now + EXPIRATION_NOTIFY_WINDOW) u x → ¬ Announced u x r.past → p.Tells u x

/-- What is remembered of the leases that the pass reads was sent of these leases: what was sent
    before the host was leased, freed or extended was forgotten by a pass in between. -/
def UpToDate : Prop :=
  p.kind = .notifySoonRelease → ∀ r ∈ p.read, ∀ l ∈ r.hosts,
    Remembered l.user.id l.id (passes r.past) → Announced l.user.id l.id r.past

instance : Decidable p.UpToDate :=
  inferInstanceAs (Decidable (_ → ∀ r ∈ p.read, ∀ l ∈ r.hosts, _))

/-- The pass has read the leases that end in the half hour from `now` on. -/
def ReadsExpiring (now : Time) (r : Reading) : Prop :=
  ∀ u x, (∃ l ∈ r.hosts, l.user.id = u ∧ l.id = x) ↔
    r.world.Expiring (now + EXPIRATION_NOTIFY_WINDOW) u x ∧ r.world.user u ≠ none

/-- What a pass that announces comes to: it tells of the leases that it has read and does not
    remember. -/
def Exact : Prop :=
  p.kind = .notifySoonRelease → ∀ r ∈ p.read, (∃ now ∈ p.now, ReadsExpiring now r) ∧
    ∀ l ∈ r.hosts, p.Tells l.user.id l.id ↔ ¬ Remembered l.user.id l.id (passes r.past)

variable {p}

theorem exact_of_kind (h : p.kind ≠ .notifySoonRelease) : p.Exact := fun hkind => absurd hkind h

theorem exact_of_unread (h : p.read = none) : p.Exact := by
  intro _ r hr
  rw [h] at hr
  cases hr

/-- **A pass misses nothing** if and only if what it remembers is up to date. -/
theorem Exact.announces_iff (h : p.Exact)
    (husers : ∀ r ∈ p.read, ∀ until_ u x, r.world.Expiring until_ u x → r.world.user u ≠ none) :
    p.Announces ↔ p.UpToDate := by
  constructor
  · intro hannounces hkind r hr l hl hrem
    obtain ⟨⟨now, hnow, hreads⟩, htells⟩ := h hkind r hr
    obtain ⟨now', hnow', hall⟩ := hannounces hkind r hr
    obtain rfl : now = now' := Option.some.inj (hnow.symm.trans hnow')
    have hexpiring := ((hreads l.user.id l.id).mp ⟨l, hl, rfl, rfl⟩).1
    by_contra hno
    exact (htells l hl).mp (hall _ _ hexpiring hno) hrem
  · intro hdate hkind r hr
    obtain ⟨⟨now, hnow, hreads⟩, htells⟩ := h hkind r hr
    refine ⟨now, hnow, fun u x hexpiring hno => ?_⟩
    obtain ⟨l, hl, rfl, rfl⟩ := (hreads u x).mpr ⟨hexpiring, husers r hr _ u x hexpiring⟩
    exact (htells l hl).mpr fun hrem => hno (hdate hkind r hr l hl hrem)

end Pass

/-! ## What a pass still owes -/

/-- In a pass that has read `r`, when `sent` is remembered and the users of a list are still to
    come: whoever is not told, not remembered and not to come is nobody's holder. -/
structure Pass.Owes (r : Reading) (sent : UserId → List HostId)
    (rest : List (UserId × List HostId)) (p : Pass) : Prop where
  kind : p.kind = .notifySoonRelease
  read : p.read = some r
  reads : ∃ now ∈ p.now, ReadsExpiring now r
  told : ∀ u x, p.Tells u x → ¬ Remembered u x (passes r.past)
  owed : ∀ l ∈ r.hosts, p.Tells l.user.id l.id ∨
    Remembered l.user.id l.id (passes r.past) ∨ ∃ ids, (l.user.id, ids) ∈ rest ∧ l.id ∈ ids
  /-- The map has what was remembered before, and what this pass tells. -/
  known : ∀ l ∈ r.hosts, l.id ∈ sent l.user.id →
    p.Tells l.user.id l.id ∨ Remembered l.user.id l.id (passes r.past)
  kept : ∀ l ∈ r.hosts, Remembered l.user.id l.id (passes r.past) → l.id ∈ sent l.user.id

namespace Pass.Owes

variable {r : Reading} {sent : UserId → List HostId} {rest : List (UserId × List HostId)} {p : Pass}
  {u : UserId} {ids ids' : List HostId}

/-- What a pass has sent plays no part. -/
theorem of_sent (h : p.Owes r sent rest) (s : List (UserId × List HostId)) :
    Pass.Owes r sent rest { p with sent := s } :=
  ⟨h.kind, h.read, h.reads, h.told, h.owed, h.known, h.kept⟩

/-- A user of whose hosts all are in the map. -/
theorem skip (h : p.Owes r sent ((u, ids) :: rest)) (hids : ∀ id ∈ ids, id ∈ sent u) :
    p.Owes r sent rest := by
  refine { h with owed := fun l hl => ?_ }
  rcases h.owed l hl with htold | hrem | ⟨ids', hmem, hid⟩
  · exact .inl htold
  · exact .inr (.inl hrem)
  rcases List.mem_cons.mp hmem with heq | hmem
  · obtain ⟨rfl, rfl⟩ := Prod.mk.inj heq
    exact (h.known l hl (hids l.id hid)).imp_right .inl
  · exact .inr (.inr ⟨ids', hmem, hid⟩)

/-- The call that tells a user of what is not in the map. -/
theorem tell (h : p.Owes r sent ((u, ids) :: rest))
    (hlisted : ∀ id ∈ ids, ∃ l ∈ r.hosts, l.user.id = u ∧ l.id = id)
    (hids' : ∀ id, id ∈ ids' ↔ id ∈ ids ∧ id ∉ sent u) :
    Pass.Owes r sent rest { p with told := (u, ids') :: p.told } := by
  have htells : ∀ v x, Pass.Tells v x { p with told := (u, ids') :: p.told } ↔
      (u = v ∧ x ∈ ids') ∨ p.Tells v x := by
    intro v x
    simp only [Pass.Tells, List.exists_mem_cons_iff]
  have hmore : ∀ v x, p.Tells v x → Pass.Tells v x { p with told := (u, ids') :: p.told } :=
    fun v x htold => (htells v x).mpr (.inr htold)
  refine ⟨h.kind, h.read, h.reads, fun v x htold => ?_, fun l hl => ?_,
    fun l hl hsent => (h.known l hl hsent).imp_left (hmore _ _), h.kept⟩
  · rcases (htells v x).mp htold with ⟨rfl, hx⟩ | htold
    · -- What is told was not in the map, so it was not remembered.
      obtain ⟨hid, hno⟩ := (hids' x).mp hx
      obtain ⟨l, hl, rfl, rfl⟩ := hlisted x hid
      exact fun hrem => hno (h.kept l hl hrem)
    · exact h.told v x htold
  · rcases h.owed l hl with htold | hrem | ⟨ids'', hmem, hid⟩
    · exact .inl (hmore _ _ htold)
    · exact .inr (.inl hrem)
    rcases List.mem_cons.mp hmem with heq | hmem
    · obtain ⟨rfl, rfl⟩ := Prod.mk.inj heq
      by_cases hsent : l.id ∈ sent l.user.id
      · exact (h.known l hl hsent).imp (hmore _ _) .inl
      · exact .inl ((htells _ _).mpr (.inl ⟨rfl, (hids' l.id).mpr ⟨hid, hsent⟩⟩))
    · exact .inr (.inr ⟨ids'', hmem, hid⟩)

/-- The message has arrived, and what it lists goes into the map. -/
theorem remember (h : p.Owes r sent rest) (htold : ∀ x ∈ ids', p.Tells u x) :
    p.Owes r (Function.update sent u (sent u ++ ids')) rest := by
  refine { h with known := fun l hl hsent => ?_, kept := fun l hl hrem => ?_ }
  · by_cases hu : l.user.id = u
    · rw [hu, Function.update_self, List.mem_append] at hsent
      rcases hsent with hsent | hnew
      · exact h.known l hl (hu ▸ hsent)
      · exact .inl (hu ▸ htold l.id hnew)
    · rw [Function.update_of_ne hu] at hsent
      exact h.known l hl hsent
  · by_cases hu : l.user.id = u
    · rw [hu, Function.update_self, List.mem_append]
      exact .inl (hu ▸ h.kept l hl hrem)
    · rw [Function.update_of_ne hu]
      exact h.kept l hl hrem

/-- **A pass that owes nobody anything has been exact.** -/
theorem exact (h : p.Owes r sent []) : p.Exact := by
  intro _ r' hr'
  obtain rfl : r = r' := Option.some.inj (h.read.symm.trans hr')
  refine ⟨h.reads, fun l hl => ⟨h.told _ _, fun hno => ?_⟩⟩
  rcases h.owed l hl with htold | hrem | ⟨ids, hids, -⟩
  · exact htold
  · exact absurd hrem hno
  · cases hids

end Pass.Owes

/-! ## Runs with the operations between the passes -/

/-- The event is a step of a pass. -/
def ofPass : Ev → Bool
  | .did .timer _ _ _ _ _ => true
  | _ => false

/-- The timer has moved last. -/
def Running (h : History) : Prop := ∃ ev ∈ h.trace.head?, ev.pid = .timer

/-- The steps of runs in which the other tasks act between the passes: what comes before a step of a
    pass is a step of the same pass, or its call. -/
def BetweenPasses (h : History) (ev : Ev) : Prop :=
  Machine.Calling proper h ev ∧ (ofPass ev = true → Running h)

instance (h : History) : Decidable (Running h) :=
  inferInstanceAs (Decidable (∃ ev ∈ h.trace.head?, _))

instance (h : History) (ev : Ev) : Decidable (BetweenPasses h ev) :=
  inferInstanceAs (Decidable (_ ∧ _))

theorem not_running_push {h : History} {ev : Ev} (hne : ev.pid ≠ .timer) :
    ¬ Running (h.push ev) := by
  intro hyp
  obtain ⟨ev', hev', hpid⟩ := hyp
  rw [Hist.push_trace] at hev'
  obtain rfl : ev = ev' := Option.some.inj hev'
  exact hne hpid

/-- In a pass of which `P` holds, after passes that were exact. -/
def Underway (P : Pass → List Pass → Prop) (h : History) : Prop :=
  ∃ p ps, passes h.trace = p :: ps ∧ (∀ q ∈ ps, q.Exact) ∧ P p ps

/-- All passes so far were exact. -/
def AllExact (h : History) : Prop := ∀ q ∈ passes h.trace, q.Exact

section Underway

variable {Cond : History → Ev → Prop} {Inv : History → Prop} {n : Nat} {h : History}
  {P P' : Pass → List Pass → Prop}

theorem Underway.stable : machine.Stable Cond Inv .timer (Underway P) :=
  stable_passes (A := fun qs => ∃ p ps, qs = p :: ps ∧ (∀ q ∈ ps, q.Exact) ∧ P p ps)

theorem AllExact.stable : machine.Stable Cond Inv .timer AllExact :=
  stable_passes (A := fun qs => ∀ q ∈ qs, q.Exact)

theorem AllExact.called (hA : AllExact h) {κ : Call} {kind : PassKind} (hκ : κ.passKind = some kind)
    (n : Nat) : Underway (fun p ps => p = .new kind ∧ passes h.trace = ps)
      (h.push (.called .timer n κ)) := by
  refine ⟨.new kind, passes h.trace, ?_, hA, rfl, rfl⟩
  rw [Hist.push_trace, passes_begun hκ]

theorem Underway.did {e : Effect} {r : e.Res} {w' : World} (hA : Underway P h)
    (hnote : ∀ p ps, passes h.trace = p :: ps → P p ps →
      P' (p.note h.trace (.did .timer n e r h.state w')) ps) :
    Underway P' (h.push (.did .timer n e r h.state w')) := by
  obtain ⟨p, ps, hps, hexact, hp⟩ := hA
  exact ⟨_, ps, passes_did hps n e r w', hexact, hnote p ps hps hp⟩

theorem Underway.allExact (hA : Underway P h) (hP : ∀ p ps, P p ps → p.Exact) : AllExact h := by
  obtain ⟨p, ps, hps, hexact, hp⟩ := hA
  intro q hq
  rw [hps] at hq
  rcases List.mem_cons.mp hq with rfl | hq
  · exact hP q ps hp
  · exact hexact q hq

theorem AllExact.quiet (hA : AllExact h) {e : Effect} {r : e.Res} {w' : World}
    (hnote : ∀ p : Pass, p.note h.trace (.did .timer n e r h.state w') = p) :
    AllExact (h.push (.did .timer n e r h.state w')) := by
  rw [AllExact, passes_quiet hnote]
  exact hA

end Underway

/-! ## A pass that announces -/

/-- What is no call of `notify`, no query for leases and no commit changes of a pass at most what it
    has sent. -/
theorem note_quiet {past : Trace} {n : Nat} {e : Effect} {r : e.Res} {w w' : World} {p : Pass}
    (hnow : p.now ≠ none) (hnotify : ∀ u x, e ≠ .notify u x)
    (hquery : ∀ tx until_, e ≠ .fetch tx (.getLeasedUntilHosts until_))
    (hcommit : ∀ tx, e ≠ .commit tx) :
    ∃ s, p.note past (.did .timer n e r w w') = { p with sent := s } := by
  by_cases he : e = .now
  · -- Only the first look at the clock is noted.
    subst he
    obtain ⟨now, hnow⟩ := Option.ne_none_iff_exists'.mp hnow
    refine ⟨p.sent, ?_⟩
    show { p with now := p.now.or (some r) } = p
    rw [hnow, Option.some_or, ← hnow]
  unfold Pass.note
  split
  · rename_i heq
    cases heq
    exact absurd rfl he
  · rename_i heq
    cases heq
    exact absurd rfl (hquery _ _)
  · rename_i heq
    cases heq
    exact absurd rfl (hcommit _)
  · rename_i heq
    cases heq
    exact absurd rfl (hnotify _ _)
  · split
    · exact ⟨_, rfl⟩
    · exact ⟨_, rfl⟩
  · exact ⟨_, rfl⟩

/-- In a pass that has read the leases of `hosts`. As long as only the timer moves, they have their
    deadlines. -/
structure Notifying (hosts : List LeasedHost) (P : Pass → Prop) (h : History) : Prop where
  clean : Clean .timer h.state
  dated : Running h → ∀ l ∈ hosts, ∀ row, h.state.host l.id = some row → row.leasedUntil ≠ none
  pass : Underway (fun p _ => P p) h

section Notifying

variable {Inv : History → Prop} {n : Nat} {h : History} {hosts : List LeasedHost}
  {P P' : Pass → Prop}

theorem Notifying.stable {Cond : History → Ev → Prop} :
    machine.Stable Cond Inv .timer (Notifying hosts P) := by
  intro h ev hI hA hne hl hc
  exact {
    clean := stable_clean h ev hI hA.clean hne hl hc
    dated := fun hrunning => absurd hrunning (not_running_push hne)
    pass := Underway.stable h ev hI hA.pass hne hl hc }

theorem Notifying.did {e : Effect} {r : e.Res} {w' : World} (hA : Notifying hosts P h)
    (hacts : Acts .timer h.state e r w') (hc : BetweenPasses h (.did .timer n e r h.state w'))
    (hexecute : ∀ tx x, e ≠ .execute tx x) (hcommit : ∀ tx, e ≠ .commit tx)
    (hnote : ∀ p, P p → P' (p.note h.trace (.did .timer n e r h.state w'))) :
    Notifying hosts P' (h.push (.did .timer n e r h.state w')) where
  clean := hacts.clean hexecute hA.clean
  dated _ l hl row hrow := by
    have hrow : w'.host l.id = some row := hrow
    rw [hacts.host_of_ne_commit hcommit] at hrow
    exact hA.dated (hc.2 rfl) l hl row hrow
  pass := hA.pass.did fun p _ _ => hnote p

theorem Notifying.mono (hA : Notifying hosts P h) (hP : ∀ p, P p → P' p) :
    Notifying hosts P' h := by
  obtain ⟨p, ps, hps, hexact, hp⟩ := hA.pass
  exact ⟨hA.clean, hA.dated, p, ps, hps, hexact, hP p hp⟩

/-- What a pass over `hosts` still owes. -/
def Owing (hosts : List LeasedHost) (sent : UserId → List HostId)
    (rest : List (UserId × List HostId)) (p : Pass) : Prop :=
  ∃ r : Reading, r.hosts = hosts ∧ p.Owes r sent rest

/-- While the users of a list are to be told of leases that this pass has read. -/
def ToTell (hosts : List LeasedHost) (sent : UserId → List HostId)
    (rest : List (UserId × List HostId)) (h : History) : Prop :=
  Notifying hosts (Owing hosts sent rest) h ∧
    ∀ v ∈ rest, ∀ id ∈ v.2, ∃ l ∈ hosts, l.user.id = v.1 ∧ l.id = id

variable {sent : UserId → List HostId} {rest : List (UserId × List HostId)} {u : UserId}
  {ids ids' : List HostId}

/-- One notice. The call settles what the pass owes the user, whatever becomes of the message. -/
theorem sketch_notify (notifier : Notifier) (hids' : ids' ≠ [])
    (hmem : ∀ id, id ∈ ids' ↔ id ∈ ids ∧ id ∉ sent u) :
    machine.Sketch BetweenPasses (fun _ => True) .timer n
      (exits (fun _ => ToTell hosts (Function.update sent u (sent u ++ ids')) rest)
        (ToTell hosts sent rest) fun _ => False)
      (notifier.notify u (.expirationSoon ids')) (ToTell hosts sent ((u, ids) :: rest)) := by
  refine Machine.Sketch.of_fact fun hlisted => ?_
  have hlistedRest : ∀ v ∈ rest, ∀ id ∈ v.2, ∃ l ∈ hosts, l.user.id = v.1 ∧ l.id = id :=
    fun v hv => hlisted v (List.mem_cons_of_mem _ hv)
  have hlistedSelf : ∀ id ∈ ids, ∃ l ∈ hosts, l.user.id = u ∧ l.id = id :=
    hlisted _ List.mem_cons_self
  -- From the call on the user is told.
  let told : History → Prop :=
    Notifying hosts fun p => Owing hosts sent rest p ∧ ∀ x ∈ ids', p.Tells u x
  have hstable : machine.Stable BetweenPasses (fun _ => True) .timer told := Notifying.stable
  have hkeep : ∀ h (e : Effect) (r : e.Res) w', told h → Acts .timer h.state e r w' →
      BetweenPasses h (.did .timer n e r h.state w') → (∀ tx x, e ≠ .execute tx x) →
      (∀ u x, e ≠ .notify u x) → (∀ tx until_, e ≠ .fetch tx (.getLeasedUntilHosts until_)) →
      (∀ tx, e ≠ .commit tx) → told (h.push (.did .timer n e r h.state w')) := by
    intro h e r w' hA hacts hc hexecute hnotify hquery hcommit
    refine hA.did hacts hc hexecute hcommit fun p hp => ?_
    obtain ⟨⟨reading, hreading, howes⟩, htold⟩ := hp
    have hnow : p.now ≠ none := by
      obtain ⟨now, hnow, -⟩ := howes.reads
      rw [Option.mem_def.mp hnow]
      exact Option.some_ne_none now
    have hquiet : ∃ s, p.note h.trace (.did .timer n e r h.state w') = { p with sent := s } :=
      note_quiet hnow hnotify hquery hcommit
    obtain ⟨s, hs⟩ := hquiet
    rw [hs]
    exact ⟨⟨reading, hreading, howes.of_sent s⟩, htold⟩
  refine (sketch_expirationSoon notifier hids' (A := fun _ => told) (fun _ => hstable)
    hstable hstable
    hstable (.const (A := False)) ?_ ?_ ?_ ?_ ?_ ?_ ?_).post fun r h _ hQ => ?_
  · intro h _ hA hc
    refine ⟨trivial, hA.did acts_notify hc (by simp) (by simp) fun p hp => ?_⟩
    obtain ⟨reading, rfl, howes⟩ := hp
    refine ⟨⟨reading, rfl, howes.tell hlistedSelf hmem⟩, fun x hx => ?_⟩
    exact ⟨(u, ids'), List.mem_cons_self, rfl, hx⟩
  · intro h r w' _ hA hacts hc
    have hbegun := hkeep h .begin r w' hA hacts hc (by simp) (by simp) (by simp) (by simp)
    exact ⟨trivial, fun _ => hbegun, fun _ => hbegun⟩
  · intro h _ e r he _ hA hacts hc
    exact ⟨trivial, hkeep h e r h.state hA hacts hc he.not_execute (by cases he <;> simp)
      (by cases he <;> simp) (by cases he <;> simp)⟩
  · exact fun _ _ _ _ _ _ _ hA => hA
  · -- The hosts of the message have their deadlines, as nobody else has moved since they were read.
    intro h _ tx order hs _ hA hrun hc
    refine .inl fun host hhost => ?_
    obtain ⟨hid, hrow⟩ := (mem_getHosts hrun).mp hhost
    rw [hA.clean.view] at hrow
    obtain ⟨l, hl, -, hlid⟩ := hlistedSelf host.id ((hmem host.id).mp hid).1
    rw [← hlid] at hrow
    exact hA.dated (hc.2 rfl) l hl _ hrow
  · intro h sender msg r _ _ _ hA hc
    have hsent := hkeep h (.send sender msg) r h.state hA (acts_send r) hc (by simp) (by simp)
      (by simp) (by simp)
    exact ⟨trivial, fun _ => hsent, fun _ => hsent⟩
  · intro h tx w' _ hacts hc _
    have hdropped : told h → told (h.push (.did .timer n (.drop tx) () h.state w')) := fun hA =>
      hkeep h (.drop tx) () w' hA hacts hc (by simp) (by simp) (by simp) (by simp)
    exact ⟨trivial, fun _ => hdropped, hdropped, False.elim⟩
  · cases r with
    | ok a =>
      refine ⟨hQ.mono fun p hp => ?_, hlistedRest⟩
      obtain ⟨⟨reading, hreading, howes⟩, htold⟩ := hp
      exact ⟨reading, hreading, howes.remember htold⟩
    | err e => exact ⟨hQ.mono fun p hp => hp.1, hlistedRest⟩
    | panic msg => exact hQ

/-- The loop over the users. -/
theorem sketch_notifyAll {E : History → Prop} (notifier : Notifier)
    (sent : UserId → Option (List HostId)) (expiring : List (UserId × List HostId)) :
    machine.Sketch BetweenPasses (fun _ => True) .timer n
      (exits (fun sent => ToTell hosts (ReleaseTimer.sentHostIds sent) []) E fun _ => False)
      (ReleaseTimer.notifySoon notifier sent expiring)
      (ToTell hosts (ReleaseTimer.sentHostIds sent) expiring) := by
  refine sketch_notifySoon notifier (I := ToTell hosts)
    (fun _ _ => Notifying.stable.and .const) ?_ ?_ ?_ sent expiring
  · intro h o sent rest _ hA hc
    exact ⟨trivial, hA.1.did (acts_hashOrder o) hc (by simp) (by simp) fun _ hp => hp, hA.2⟩
  · intro h u ids rest sent _ hA hids
    refine ⟨hA.1.mono fun p hp => ?_, fun v hv => hA.2 v (List.mem_cons_of_mem _ hv)⟩
    obtain ⟨reading, hreading, howes⟩ := hp
    exact ⟨reading, hreading, howes.skip hids⟩
  · exact fun u ids rest sent ids' hids' hmem => sketch_notify notifier hids' hmem

end Notifying

/-- In a pass that has not read anything yet; `sent` is what is remembered. -/
def Opening (now : Option Time) (sent : UserId → List HostId) (h : History) : Prop :=
  Clean .timer h.state ∧ Underway (fun p ps =>
    p = { Pass.new .notifySoonRelease with now := now } ∧ Tracks sent (p :: ps)) h

section Opening

variable {Inv : History → Prop} {n : Nat} {h : History} {now : Option Time}

theorem Opening.stable {Cond : History → Ev → Prop} {sent : UserId → List HostId} :
    machine.Stable Cond Inv .timer (Opening now sent) := stable_clean.and Underway.stable

theorem Opening.allExact {sent : UserId → List HostId} (hA : Opening now sent h) : AllExact h :=
  hA.2.allExact fun _ _ hp => Pass.exact_of_unread (by rw [hp.1]; rfl)

theorem Opening.quiet {sent : UserId → List HostId} {e : Effect} {r : e.Res} {w' : World}
    (hA : Opening now sent h) (hacts : Acts .timer h.state e r w')
    (hexecute : ∀ tx x, e ≠ .execute tx x)
    (hnote : ∀ p : Pass, p.note h.trace (.did .timer n e r h.state w') = p) :
    Opening now sent (h.push (.did .timer n e r h.state w')) :=
  ⟨hacts.clean hexecute hA.1, hA.2.did fun p ps _ hp => by rw [hnote p]; exact hp⟩

/-- A row that is read has a deadline, and its holder and its host are read from it. -/
theorem readsExpiring_of_decoded {tx : RegistryTx} {order : List Nat} {now : Time}
    {hosts : List LeasedHost} (hclean : Clean .timer h.state)
    (hrun : Select.run order (h.state.db.view ⟨.timer, tx.no⟩)
      (.getLeasedUntilHosts (now + EXPIRATION_NOTIFY_WINDOW)) = .ok hosts) :
    Pass.ReadsExpiring now ⟨hosts, h.state, h.trace⟩ := by
  have hdec := decoded_getLeasedUntilHosts hrun
  intro u x
  constructor
  · intro hyp
    obtain ⟨l, hl, rfl, rfl⟩ := hyp
    obtain ⟨row, hrow, hexpires, hheld, -, huser⟩ := hdec.sound l hl
    rw [hclean.view] at hrow
    rw [mem_view_users, hclean.view_user] at huser
    refine ⟨⟨row, hrow, hheld, hexpires⟩, ?_⟩
    rw [huser]
    exact Option.some_ne_none _
  · intro hyp
    obtain ⟨⟨row, hrow, hheld, hexpires⟩, huser⟩ := hyp
    obtain ⟨userRow, huser⟩ := Option.ne_none_iff_exists'.mp huser
    have hrow' : (h.state.db.hosts.cell x).view ⟨.timer, tx.no⟩ = some row := by
      rw [hclean.view]
      exact hrow
    have huser' : ({ userRow with id := u } : User) ∈ (h.state.db.view ⟨.timer, tx.no⟩).users := by
      rw [mem_view_users, hclean.view_user]
      exact huser
    obtain ⟨l, hl, hid, hlu⟩ := hdec.complete x row _ hrow' hexpires hheld huser'
    exact ⟨l, hl, by rw [hlu], hid⟩

/-- **The query.** What is left of the map is what was remembered of the leases that are read, and
    everybody is still to be told. -/
theorem Opening.reads {sent : UserId → Option (List HostId)} {tx : RegistryTx} {order : List Nat}
    {now : Time} {hosts : List LeasedHost}
    (hA : Opening (some now) (ReleaseTimer.sentHostIds sent) h)
    (hrun : Select.run order (h.state.db.view ⟨.timer, tx.no⟩)
      (.getLeasedUntilHosts (now + EXPIRATION_NOTIFY_WINDOW)) = .ok hosts) :
    ToTell hosts (ReleaseTimer.sentHostIds (ReleaseTimer.retain
        ((ReleaseTimer.usersHosts hosts).flatMap (·.2)) sent)) (ReleaseTimer.usersHosts hosts)
      (h.push (.did .timer n (.fetch tx (.getLeasedUntilHosts (now + EXPIRATION_NOTIFY_WINDOW)))
        (.ok hosts) h.state h.state)) := by
  have hlisted : ∀ v ∈ ReleaseTimer.usersHosts hosts, ∀ id ∈ v.2,
      ∃ l ∈ hosts, l.user.id = v.1 ∧ l.id = id :=
    fun v hv id hid => mem_usersHosts.mp ⟨v.2, hv, hid⟩
  refine ⟨⟨hA.1, fun _ l hl row hrow => ?_, hA.2.did ?_⟩, hlisted⟩
  · have hrow : h.state.host l.id = some row := hrow
    obtain ⟨row', hrow', -, -, huntil, -⟩ := (decoded_getLeasedUntilHosts hrun).sound l hl
    rw [hA.1.view, hrow] at hrow'
    cases hrow'
    rw [huntil]
    exact Option.some_ne_none _
  intro p ps hps hp
  obtain ⟨rfl, htracks⟩ := hp
  have hnone : ∀ u x, ¬ Pass.Tells u x
      { Pass.new .notifySoonRelease with
        now := some now, read := some ⟨hosts, h.state, h.trace⟩ } := by
    intro u x hyp
    obtain ⟨v, hv, -⟩ := hyp
    cases hv
  -- What is left of the memory is what was remembered: all of it is in the list just read.
  have hleft : ∀ l ∈ hosts, l.id ∈ ReleaseTimer.sentHostIds (ReleaseTimer.retain
      ((ReleaseTimer.usersHosts hosts).flatMap (·.2)) sent) l.user.id ↔
        Remembered l.user.id l.id (passes h.trace) := by
    intro l hl
    rw [mem_retain, hps, ← htracks]
    refine and_iff_left ?_
    obtain ⟨ids, hids, hid⟩ := mem_usersHosts.mpr ⟨l, hl, rfl, rfl⟩
    exact List.mem_flatMap.mpr ⟨_, hids, hid⟩
  refine ⟨⟨hosts, h.state, h.trace⟩, rfl, rfl, rfl, ⟨now, rfl, readsExpiring_of_decoded hA.1 hrun⟩,
    fun u x htold => absurd htold (hnone u x), fun l hl => ?_, fun l hl hsent => ?_, fun l hl => ?_⟩
  · exact .inr (.inr (mem_usersHosts.mpr ⟨l, hl, rfl, rfl⟩))
  · exact .inr ((hleft l hl).mp hsent)
  · exact (hleft l hl).mpr

theorem sketch_notifySoonRelease_exact (self : ReleaseTimer) (notifier : Notifier)
    (hdelay : self.expirationNotifyDelayTime = EXPIRATION_NOTIFY_WINDOW) :
    machine.Sketch BetweenPasses (fun _ => True) .timer n
      (exits (fun _ => AllExact) AllExact fun _ => False) (self.notifySoonRelease notifier)
      (Opening none (ReleaseTimer.sentHostIds self.sentHostsNotification)) := by
  let opening (now : Option Time) : History → Prop :=
    Opening now (ReleaseTimer.sentHostIds self.sentHostsNotification)
  refine Task.sketch_withTx (fun _ => opening none)
    (fun _ => exits (fun _ => AllExact) AllExact fun _ => False) (fun _ => Opening.stable)
    (fun r => stable_exits (fun _ => AllExact.stable) AllExact.stable .const r) ?_ ?_ ?_ ?_
  · exact fun h tx w' _ hA hacts _ => ⟨trivial, Opening.quiet hA hacts (by simp) fun _ => rfl⟩
  · exact fun h err w' _ hA _ _ => ⟨trivial, hA.allExact.quiet fun _ => rfl⟩
  · intro tx
    refine Task.sketch_bind (B := fun now => opening (some now)) ?_ fun now => ?_
    · refine Task.sketch_utcNow (fun _ => Opening.stable) fun h now _ hA _ => ⟨trivial, hA.1, ?_⟩
      refine hA.2.did fun p ps _ hp => ?_
      obtain ⟨rfl, htracks⟩ := hp
      exact ⟨rfl, htracks.congr rfl fun _ _ => Iff.rfl⟩
    refine Task.sketch_bind (B := fun hosts => ToTell hosts (ReleaseTimer.sentHostIds
        (ReleaseTimer.retain ((ReleaseTimer.usersHosts (hosts : List LeasedHost)).flatMap (·.2))
          self.sentHostsNotification)) (ReleaseTimer.usersHosts hosts))
      (Task.sketch_mapErr ?_) fun hosts => ?_
    · rw [hdelay]
      refine Task.sketch_fetch (fun _ => Notifying.stable.and .const) AllExact.stable ?_ ?_
      · exact fun h order hosts _ hA hrun _ => ⟨trivial, Opening.reads hA hrun⟩
      · exact fun h err _ hA _ => ⟨trivial, hA.allExact.quiet fun _ => rfl⟩
    dsimp only
    refine Task.sketch_bind (B := fun order => ToTell hosts (ReleaseTimer.sentHostIds
        (ReleaseTimer.retain ((ReleaseTimer.usersHosts hosts).flatMap (·.2))
          self.sentHostsNotification)) (arrange order (ReleaseTimer.usersHosts hosts)))
      ?_ fun order => ?_
    · refine Task.sketch_hashOrder (fun _ => Notifying.stable.and .const) fun h order _ hA hc => ?_
      refine ⟨trivial, hA.1.did (acts_hashOrder order) hc (by simp) (by simp) fun p hp => ?_,
        fun v hv => hA.2 v (mem_arrange.mp hv)⟩
      -- The users come in another order.
      obtain ⟨reading, rfl, howes⟩ := hp
      refine ⟨reading, rfl, { howes with owed := fun l hl => ?_ }⟩
      exact (howes.owed l hl).imp_right <| Or.imp_right fun ⟨ids, hids, hid⟩ =>
        ⟨ids, mem_arrange.mpr hids, hid⟩
    refine Task.sketch_bind (B := fun sent => ToTell hosts (ReleaseTimer.sentHostIds sent) [])
      (sketch_notifyAll notifier _ _) fun sent => Task.sketch_pure fun h _ hA => ?_
    refine hA.1.pass.allExact fun p ps hp => ?_
    obtain ⟨reading, -, howes⟩ := hp
    exact howes.exact
  · intro tx r h w' _ hQ _ _
    refine ⟨trivial, ?_⟩
    cases r with
    | ok self' => exact AllExact.quiet hQ fun _ => rfl
    | err e => exact AllExact.quiet hQ fun _ => rfl
    | panic msg => exact hQ

end Opening

/-! ## Any pass -/

section Pass

variable {n : Nat} {kind : PassKind}

/-- A pass that does not announce, and cannot panic. -/
theorem sketch_quietPass {α : Type} {x : Task AnyError α} (hx : Task.Calm x)
    (hkind : kind ≠ .notifySoonRelease) :
    machine.Sketch BetweenPasses (fun _ => True) .timer n
      (fun r h => (∀ msg, r ≠ .panic msg) ∧ AllExact h) x (Underway fun p _ => p.kind = kind) := by
  have hkeep : machine.Sketch BetweenPasses (fun _ => True) .timer n
      (fun _ => Underway fun p _ => p.kind = kind) x (Underway fun p _ => p.kind = kind) := by
    refine Machine.Sketch.keep (emits_true x) Underway.stable fun h e env r w' _ _ hA _ _ => ?_
    exact ⟨trivial, hA.did fun p ps _ hp => (note_kind _ _ p).trans hp⟩
  refine (((Machine.Sketch.of_returns hx).and hkeep).pre fun h _ hA => ⟨trivial, hA⟩).post ?_
  intro r h _ hQ
  exact ⟨hQ.1, hQ.2.allExact fun p _ hp => Pass.exact_of_kind (hp ▸ hkind)⟩

theorem Call.sketch_exact {κ : Call} (hκ : κ.passKind = some kind) {self : ReleaseTimer}
    (hdelay : self.expirationNotifyDelayTime = EXPIRATION_NOTIFY_WINDOW) :
    machine.Sketch BetweenPasses (fun _ => True) .timer n (fun l h => l ≠ .crashed ∧ AllExact h)
      (κ.program self) fun h => Clean .timer h.state ∧ Underway (fun p ps => p = .new kind ∧
        Tracks (ReleaseTimer.sentHostIds self.sentHostsNotification) (p :: ps)) h := by
  have hother : ∀ h, (Clean .timer h.state ∧ Underway (fun p ps => p = .new kind ∧
      Tracks (ReleaseTimer.sentHostIds self.sentHostsNotification) (p :: ps)) h) →
      Underway (fun p _ => p.kind = kind) h := by
    intro h hA
    obtain ⟨p, ps, hps, hexact, rfl, -⟩ := hA.2
    exact ⟨_, ps, hps, hexact, rfl⟩
  -- Only one of the three passes tells of leases about to end; the others leave what was told.
  cases κ with
  | release =>
    cases hκ
    have hkind : PassKind.release ≠ .notifySoonRelease := nofun
    refine .bind ((sketch_quietPass self.calm_release hkind).pre fun h _ hA => hother h hA) ?_
    exact fun r h _ hQ => ⟨afterRelease_ne_crashed hQ.1, hQ.2⟩
  | notifyReleasedHosts notifier released =>
    cases hκ
    have hkind : PassKind.notifyReleasedHosts ≠ .notifySoonRelease := nofun
    refine .bind ((sketch_quietPass (ReleaseTimer.calm_notifyReleasedHosts notifier released)
      hkind).pre fun h _ hA => hother h hA) ?_
    exact fun r h _ hQ => ⟨afterNotifyReleased_ne_crashed hQ.1, hQ.2⟩
  | notifySoonRelease notifier =>
    cases hκ
    refine .bind ((sketch_notifySoonRelease_exact self notifier hdelay).pre fun h _ hA => hA) ?_
    intro r h _ hQ
    cases r with
    | ok self' => exact ⟨nofun, hQ⟩
    | err e => exact ⟨nofun, hQ⟩
    | panic msg => exact hQ.elim
  | _ => cases hκ

end Pass

/-! ## Runs -/

/-- Between two passes the timer is there, and its passes so far were exact. -/
theorem exact_of_idle {t : Tables} {c : System} (hrun : machine.Run BetweenPasses t.system c)
    {l : Local} (hl : (c.threads .timer).prog = .ret l) : l ≠ .crashed ∧ AllExact c.hist := by
  refine ((timer_sound Fresh (fun l h => l.Recalls h ∧ l ≠ .crashed ∧ AllExact h)
    (fun _ _ hc => hc.1) trivial
    ⟨.inr ⟨_, rfl, tracks_nil, rfl⟩, nofun, fun q hq => absurd hq List.not_mem_nil⟩
    (fun _ => Local.Recalls.stable.and (Machine.Stable.const.and AllExact.stable))
    (fun h p n κ hI => hI.called p n κ) (fun h i n e r w' hI => hI.push_of_ne nofun) ?_
    (show machine.Run _ (t.systemWith .new) c from hrun)).2 l hl).2
  intro n κ l hpass
  obtain ⟨kind, hκ⟩ := Call.exists_passKind hpass
  cases l with
  | timer self =>
    -- What the pass remembers and what it tells are two sketches of one program.
    refine ⟨fun h => ((Clean .timer h.state ∧ Underway (fun p ps => p = .new kind ∧
        Tracks (ReleaseTimer.sentHostIds self.sentHostsNotification) (p :: ps)) h) ∧
      During kind (fun p => p.read = none ∧ p.sent = [] ∧ p.freed = false)
        (ReleaseTimer.sentHostIds self.sentHostsNotification) h) ∧
      self.expirationNotifyDelayTime = EXPIRATION_NOTIFY_WINDOW,
      ((stable_clean.and Underway.stable).and During.stable).and .const,
      fun h _ hpost hclean => ?_, Machine.Sketch.of_fact fun hdelay => ?_⟩
    · obtain ⟨hl | ⟨self', hl, hA⟩, -, hexact⟩ := hpost
      · cases hl
      cases hl
      obtain ⟨p, ps, hps, hbefore, rfl, hpast⟩ := hexact.called hκ n
      exact ⟨⟨⟨hclean, _, ps, hps, hbefore, rfl, hpast ▸ hA.sent.cons_new kind⟩, hA.begin hκ n⟩,
        hA.delay⟩
    · exact ((Call.sketch_exact hκ hdelay).and (Call.sketch_recalls hκ hdelay)).post
        fun l h _ hQ => ⟨hQ.2, hQ.1⟩
  | _ =>
    -- The timer has nothing else to start from.
    refine ⟨fun _ => False, .const, fun h _ hpost _ => ?_, .of_false⟩
    obtain ⟨hl | ⟨self', hl, -⟩, hthere, -⟩ := hpost
    · exact hthere hl
    · cases hl

/-- The passes that are over. -/
def finished (c : System) : List Pass :=
  match (c.threads .timer).prog with
  | .ret _ => passes c.hist.trace
  | .op _ _ => (passes c.hist.trace).tail

theorem mem_finished_of_tail {c : System} {q : Pass} (hq : q ∈ (passes c.hist.trace).tail) :
    q ∈ finished c := by
  unfold finished
  split
  · exact List.mem_of_mem_tail hq
  · exact hq

/-- The passes before the newest one are those of before, and the one that was newest if a pass has
    just begun. -/
theorem mem_tail_passes {ev : Ev} {tr : Trace} {q : Pass} (hq : q ∈ (passes (ev :: tr)).tail) :
    q ∈ (passes tr).tail ∨ begun ev ≠ none ∧ q ∈ passes tr := by
  rw [passes] at hq
  split at hq
  · rename_i hbegun
    exact .inr ⟨by rw [hbegun]; exact Option.some_ne_none _, hq⟩
  · rw [List.tail_modifyHead] at hq
    exact .inl hq

/-- **A pass is exact**: in every run with the operations between the passes, every pass that is
    over and has read the leases about to end has told their holders of exactly those that it did
    not remember. -/
theorem exact_of_run {t : Tables} {c : System} (hrun : machine.Run BetweenPasses t.system c) :
    ∀ q ∈ finished c, q.Exact := by
  induction hrun with
  | refl => exact fun q hq => absurd hq List.not_mem_nil
  | @step c c' l ev hrun hstep hev hcond ih =>
    have hrun' : machine.Run BetweenPasses t.system c' := .step hrun hstep hev hcond
    intro q hq
    unfold finished at hq
    split at hq
    · rename_i hidle
      exact (exact_of_idle hrun' hidle).2 q hq
    rw [hev, Hist.push_trace] at hq
    rcases mem_tail_passes hq with htail | ⟨hbegun, hmem⟩
    · exact ih q (mem_finished_of_tail htail)
    -- A pass begins, so the timer was between two passes.
    obtain ⟨p, κ, a, rfl, hidle, rfl⟩ | ⟨p, env, e, k, r, s', rfl, -, -, rfl⟩ :=
      machine.step_cases hstep
    · have htrace := congrArg Hist.trace hev
      rw [Hist.push_trace, Hist.push_trace] at htrace
      obtain rfl := (List.cons.inj htrace).1
      cases p with
      | timer => exact (exact_of_idle hrun hidle).2 q hmem
      | task i => exact absurd rfl hbegun
    · have htrace := congrArg Hist.trace hev
      rw [Hist.push_trace, Hist.push_trace] at htrace
      obtain rfl := (List.cons.inj htrace).1
      exact absurd rfl hbegun

/-! ## Holders are users -/

/-- What a pass has read it has read from the world that it found. -/
theorem world_of_note {past : Trace} {p : Pass} {q : Pid} {n : Nat} {e : Effect} {res : e.Res}
    {w w' : World} {r : Reading} (hr : r ∈ (p.note past (.did q n e res w w')).read) :
    r ∈ p.read ∨ r.world = w := by
  unfold Pass.note at hr
  split at hr
  · exact .inl hr
  · rename_i heq
    cases heq
    cases Option.some.inj hr
    exact .inr rfl
  · exact .inl hr
  · exact .inl hr
  · split at hr
    · exact .inl hr
    · exact .inl hr
  · exact .inl hr

/-- At every read of every run, who holds a host is a user. -/
theorem holdersKnown_of_run {t : Tables} {c : System}
    (hrun : machine.Run (Machine.Calling proper) t.system c) :
    ∀ q ∈ passes c.hist.trace, ∀ r ∈ q.read, HoldersKnown r.world := by
  refine (run_of_sketches (fun h => HoldersKnown h.state ∧
      ∀ q ∈ passes h.trace, ∀ r ∈ q.read, HoldersKnown r.world) (fun _ _ hc => hc)
    ⟨t.world_holdersKnown, fun q hq => absurd hq List.not_mem_nil⟩ ?_ ?_
    (show machine.Run _ (t.systemWith .new) c from hrun)).2
  · intro h p n κ hI
    refine ⟨hI.1, fun q hq r hr => ?_⟩
    rw [Hist.push_trace] at hq
    rcases passes_called p n κ h.trace with ⟨kind, hps⟩ | hps
    · rw [hps] at hq
      rcases List.mem_cons.mp hq with rfl | hq
      · cases hr
      · exact hI.2 q hq r hr
    · rw [hps] at hq
      exact hI.2 q hq r hr
  -- A step keeps the foreign key, and the readings of a pass are of states that had it.
  · intro p n κ l _
    refine sketch_rest (emits_true _) fun h e env r w' _ hI hact _ => ?_
    refine ⟨(acts_of_act hact).holdersKnown hI.1, fun q hq reading hr => ?_⟩
    have hbegun : begun (.did p n e r h.state w') = none := rfl
    rw [Hist.push_trace, passes, hbegun] at hq
    cases hps : passes h.trace with
    | nil => rw [hps] at hq; cases hq
    | cons q' qs =>
      rw [hps] at hq hI
      rcases List.mem_cons.mp hq with rfl | hq
      · rcases world_of_note hr with hr | hw
        · exact hI.2 q' List.mem_cons_self reading hr
        · exact hw ▸ hI.1
      · exact hI.2 q (List.mem_cons_of_mem _ hq) reading hr

theorem mem_passes_of_finished {c : System} {q : Pass} (hq : q ∈ finished c) :
    q ∈ passes c.hist.trace := by
  unfold finished at hq
  split at hq
  · exact hq
  · exact List.mem_of_mem_tail hq

/-- **No expiring lease goes unannounced**, in a run with the operations between the passes, if and
    only if its passes remember no notice of a lease that was leased, freed or extended since. -/
theorem announces_iff_of_run (t : Tables) {c : System}
    (hrun : machine.Run BetweenPasses t.system c) :
    (∀ p ∈ finished c, p.Announces) ↔ ∀ p ∈ finished c, p.UpToDate := by
  refine forall₂_congr fun p hp => ?_
  refine (exact_of_run hrun p hp).announces_iff fun r hr until_ u x hexpiring => ?_
  have hknown :=
    holdersKnown_of_run (hrun.mono _ fun _ _ hc => hc.1) p (mem_passes_of_finished hp) r hr
  obtain ⟨row, hrow, hheld, -⟩ := hexpiring
  exact hknown.committed x row u hrow hheld

/-- `alice` is told of a lease that is about to end, extends it, and is told again a day later: a
    pass in between has found the host not about to end. -/
theorem announces_iff_of_run_small : ∃ c,
    machine.Run BetweenPasses (small (some (true, 5))).system c ∧ (finished c).length = 3 ∧
      (∀ p ∈ (finished c).eraseIdx 1, p.Tells alice.id ⟨1⟩) ∧ ∀ p ∈ finished c, p.Announces := by
  obtain ⟨c, hrun, hc⟩ := machine.exists_run_of_exec BetweenPasses (small (some (true, 5))).system
    (List.flatten [[.call .timer (.notifySoonRelease ⟨fun _ => .ok 7⟩)],
      .replicate 13 (.act .timer {}),
      [.call (.task 0) (.extendUserHosts "7" 24)], .replicate 9 (.act (.task 0) {}),
      [.call .timer (.notifySoonRelease ⟨fun _ => .ok 7⟩)], .replicate 5 (.act .timer {}),
      [.call .timer (.notifySoonRelease ⟨fun _ => .ok 7⟩)],
      .replicate 13 (.act .timer { time := TimeDelta.hours 24 })])
    (fun c => decide ((finished c).length = 3 ∧
      (∀ p ∈ (finished c).eraseIdx 1, p.Tells alice.id ⟨1⟩) ∧ ∀ p ∈ finished c, p.UpToDate))
    (by decide +kernel)
  obtain ⟨hlength, htells, hdate⟩ := of_decide_eq_true hc
  exact ⟨c, hrun, hlength, htells, (announces_iff_of_run _ hrun).mpr hdate⟩

/-- `alice` is told of a lease, frees the host and leases it again for a short while. The next pass
    finds a lease about to end that was never announced, and says nothing. -/
theorem not_announces : ∃ c, machine.Run BetweenPasses (small (some (true, 5))).system c ∧
    ¬ ∀ p ∈ finished c, p.Announces := by
  obtain ⟨c, hrun, hc⟩ := machine.exists_run_of_exec BetweenPasses (small (some (true, 5))).system
    (List.flatten [[.call .timer (.notifySoonRelease ⟨fun _ => .ok 7⟩)],
      .replicate 13 (.act .timer {}),
      [.call (.task 0) (.free alice.id [⟨1⟩])], .replicate 4 (.act (.task 0) {}),
      [.call (.task 0) (.lease ⟨3⟩ alice.id [] [⟨1⟩] 100)], .replicate 8 (.act (.task 0) {}),
      [.call .timer (.notifySoonRelease ⟨fun _ => .ok 7⟩)], .replicate 6 (.act .timer {})])
    (fun c => decide (∃ p ∈ finished c, p.kind = .notifySoonRelease ∧ ∃ r ∈ p.read, ∃ now ∈ p.now,
      r.world.Expiring (now + EXPIRATION_NOTIFY_WINDOW) alice.id ⟨1⟩ ∧
        ¬ Announced alice.id ⟨1⟩ r.past ∧ ¬ p.Tells alice.id ⟨1⟩))
    (by decide +kernel)
  obtain ⟨p, hp, hkind, r, hr, now, hnow, hexpiring, hno, hsilent⟩ := of_decide_eq_true hc
  refine ⟨c, hrun, fun hall => ?_⟩
  obtain ⟨now', hnow', hannounces⟩ := hall p hp hkind r hr
  obtain rfl : now = now' := Option.some.inj (hnow.symm.trans hnow')
  exact hsilent (hannounces _ _ hexpiring hno)

end Tachikoma
