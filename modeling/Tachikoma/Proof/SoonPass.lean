import Tachikoma.Proof.ReleasePass

/-!
# A pass that announces what expires soon

One pass of `notify_soon_release` over settled tables, user by user. It goes over the users in an
order that nobody chooses, and writes to one map on its way; still **what becomes of a user** is a
matter of the user's own hosts, of what the user was told of before, and of whether the one message
arrives.
-/

set_option autoImplicit false

namespace Tachikoma

open Interleaving Versioned Unordered

variable {p : Pid} {s : Setting} {t : Tables} {w : World}

/-! ## What a pass comes to for one user -/

/-- The hosts that one user is told of: a set for each call of `notify`. -/
def toldTo (u : UserId) (told : List (UserId × Notification)) : List (Set HostId) :=
  (told.filter (·.1 = u)).map fun x => {id | id ∈ Notifier.named x.2}

@[simp] theorem toldTo_nil (u : UserId) : toldTo u [] = [] := rfl

@[simp] theorem toldTo_append (u : UserId) (told told' : List (UserId × Notification)) :
    toldTo u (told ++ told') = toldTo u told ++ toldTo u told' := by
  simp [toldTo]

theorem toldTo_self (u : UserId) (n : Notification) :
    toldTo u [(u, n)] = [{id | id ∈ Notifier.named n}] := by
  simp [toldTo]

theorem toldTo_of_ne {u v : UserId} (h : v ≠ u) (n : Notification) : toldTo u [(v, n)] = [] := by
  simp [toldTo, h]

/-- A pass finds the hosts `expiring` of a user who was told of `before`. -/
structure Fares (expiring before : Set HostId) (told : List (Set HostId)) (arrived : Prop)
    (after : Set HostId) : Prop where
  quiet : expiring ⊆ before → told = [] ∧ ¬ arrived
  tells : ¬ expiring ⊆ before → told = [expiring \ before]
  keeps : ¬ arrived → after = before
  adds : arrived → after = before ∪ expiring

namespace Fares

variable {expiring before after after' : Set HostId} {told told' : List (Set HostId)}
  {arrived arrived' : Prop}

/-- A user without expiring hosts is passed over. -/
theorem of_none_expiring (h : Fares ∅ before told arrived after) :
    told = [] ∧ ¬ arrived ∧ after = before := by
  have hquiet := h.quiet (Set.empty_subset before)
  exact ⟨hquiet.1, hquiet.2, h.keeps hquiet.2⟩

/-- Nothing else plays a part. -/
theorem unique (h : Fares expiring before told arrived after)
    (h' : Fares expiring before told' arrived' after')
    (harrived : told ≠ [] → told' ≠ [] → (arrived ↔ arrived')) : told = told' ∧ after = after' := by
  by_cases hsub : expiring ⊆ before
  · obtain ⟨rfl, hno⟩ := h.quiet hsub
    obtain ⟨rfl, hno'⟩ := h'.quiet hsub
    exact ⟨rfl, (h.keeps hno).trans (h'.keeps hno').symm⟩
  · have htold := h.tells hsub
    have htold' := h'.tells hsub
    have hiff := harrived (by simp [htold]) (by simp [htold'])
    refine ⟨htold.trans htold'.symm, ?_⟩
    by_cases hyes : arrived
    · exact (h.adds hyes).trans (h'.adds (hiff.mp hyes)).symm
    · exact (h.keeps hyes).trans (h'.keeps fun hyes' => hyes (hiff.mpr hyes')).symm

/-- The user is told of what is new. -/
theorem told_congr {before' : Set HostId} (h : Fares expiring before told arrived after)
    (h' : Fares expiring before' told' arrived' after')
    (hnew : expiring \ before = expiring \ before') : told = told' := by
  by_cases hsub : expiring ⊆ before
  · have hsub' : expiring ⊆ before' := by
      rw [← Set.sdiff_eq_empty, ← hnew]
      exact Set.sdiff_eq_empty.mpr hsub
    exact (h.quiet hsub).1.trans (h'.quiet hsub').1.symm
  · have hsub' : ¬ expiring ⊆ before' := by
      rw [← Set.sdiff_eq_empty, ← hnew]
      exact fun hempty => hsub (Set.sdiff_eq_empty.mp hempty)
    rw [h.tells hsub, h'.tells hsub', hnew]

theorem mem_of_told (h : Fares expiring before told arrived after) {hosts : Set HostId}
    (hhosts : hosts ∈ told) : hosts = expiring \ before := by
  by_cases hsub : expiring ⊆ before
  · rw [(h.quiet hsub).1] at hhosts
    cases hhosts
  · rw [h.tells hsub] at hhosts
    exact List.mem_singleton.mp hhosts

end Fares

/-! ## The loop over the users -/

/-- The hosts that a list of users with their hosts has under one of them. -/
def hostsUnder (soon : List (UserId × List HostId)) (u : UserId) : Set HostId :=
  {id | ∃ ids, (u, ids) ∈ soon ∧ id ∈ ids}

/-- What is remembered for a user, whatever the order. -/
def sentTo (sent : UserId → Option (List HostId)) (u : UserId) : Set HostId :=
  {id | id ∈ ReleaseTimer.sentHostIds sent u}

theorem hostsUnder_cons_of_ne {u v : UserId} (h : v ≠ u) (ids : List HostId)
    (soon : List (UserId × List HostId)) : hostsUnder ((v, ids) :: soon) u = hostsUnder soon u := by
  ext id
  simp [hostsUnder, Ne.symm h]

theorem hostsUnder_of_notMem {u : UserId} {soon : List (UserId × List HostId)}
    (h : u ∉ soon.map Prod.fst) : hostsUnder soon u = ∅ := by
  ext id
  simp only [hostsUnder, Set.mem_ofPred_eq, Set.mem_empty_iff_false, iff_false]
  intro hyp
  obtain ⟨ids, hids, -⟩ := hyp
  exact h (List.mem_map_of_mem (f := Prod.fst) hids)

theorem hostsUnder_cons_self {u : UserId} {ids : List HostId} {soon : List (UserId × List HostId)}
    (h : u ∉ soon.map Prod.fst) : hostsUnder ((u, ids) :: soon) u = {id | id ∈ ids} := by
  have hrest : ∀ id, ¬ ∃ ids, (u, ids) ∈ soon ∧ id ∈ ids := fun id hid =>
    Set.notMem_empty id ((hostsUnder_of_notMem h).subset hid)
  ext id
  have hno : ∀ ids, (u, ids) ∈ soon → id ∉ ids := fun ids' hids' hid => hrest id ⟨ids', hids', hid⟩
  simp only [hostsUnder, Set.mem_ofPred_eq, List.mem_cons, Prod.mk.injEq, true_and, or_and_right,
    exists_or, exists_eq_left]
  exact or_iff_left fun hyp => hyp.elim fun ids' h' => hno ids' h'.1 h'.2

theorem sentTo_update_self (sent : UserId → Option (List HostId)) (u : UserId) (ids : List HostId) :
    sentTo (Function.update sent u (some ids)) u = {id | id ∈ ids} := by
  simp [sentTo, ReleaseTimer.sentHostIds]

theorem sentTo_update_of_ne (sent : UserId → Option (List HostId)) {u v : UserId} (h : v ≠ u)
    (ids : Option (List HostId)) : sentTo (Function.update sent v ids) u = sentTo sent u := by
  simp [sentTo, ReleaseTimer.sentHostIds, Function.update_of_ne (Ne.symm h)]

/-- What a part of the loop has come to: it tells of nothing but leases that expire, and every user
    fares on the user's own account. -/
structure Served (soon : List (UserId × List HostId)) (sent : UserId → Option (List HostId))
    (log : Log) (sent' : UserId → Option (List HostId)) : Prop where
  kind : ∀ x ∈ notices log, ∃ ids, x.2 = .expirationSoon ids
  fares : ∀ u, Fares (hostsUnder soon u) (sentTo sent u) (toldTo u (notices log))
    (u ∈ deliveries log) (sentTo sent' u)

theorem served_nil (sent : UserId → Option (List HostId)) : Served [] sent [] sent where
  kind x hx := absurd hx List.not_mem_nil
  fares u := by
    rw [hostsUnder_of_notMem (u := u) List.not_mem_nil]
    exact {
      quiet := fun _ => ⟨rfl, List.not_mem_nil⟩
      tells := fun hno => absurd (Set.empty_subset _) hno
      keeps := fun _ => rfl
      adds := fun h => absurd h List.not_mem_nil }

/-- **One user is served**, and then the rest. -/
theorem Served.cons {v : UserId} {ids : List HostId} {soon : List (UserId × List HostId)}
    {sent sent₁ sent' : UserId → Option (List HostId)} {rest : Log} (own : Log)
    (hv : v ∉ soon.map Prod.fst) (hkind : ∀ x ∈ notices own, ∃ ids, x.2 = .expirationSoon ids)
    (hown : Fares {id | id ∈ ids} (sentTo sent v) (toldTo v (notices own)) (v ∈ deliveries own)
      (sentTo sent₁ v))
    (hothers : ∀ u, v ≠ u → toldTo u (notices own) = [] ∧ u ∉ deliveries own ∧
      sentTo sent₁ u = sentTo sent u)
    (hrest : Served soon sent₁ rest sent') :
    Served ((v, ids) :: soon) sent (own ++ rest) sent' where
  kind x hx := by
    rw [notices_append, List.mem_append] at hx
    exact hx.elim (hkind x) (hrest.kind x)
  fares u := by
    have hfares := hrest.fares u
    rw [notices_append, toldTo_append, deliveries_append, List.mem_append]
    by_cases hu : v = u
    · -- The others' turns do not touch the user who was served.
      subst hu
      rw [hostsUnder_of_notMem hv] at hfares
      obtain ⟨htold, hno, hafter⟩ := hfares.of_none_expiring
      rw [hostsUnder_cons_self hv, htold, List.append_nil, hafter, or_iff_left hno]
      exact hown
    · obtain ⟨htold, hno, hsent⟩ := hothers u hu
      rw [hostsUnder_cons_of_ne hu, htold, List.nil_append, or_iff_right hno, ← hsent]
      exact hfares

theorem eq_nil_iff_subset {fresh : List HostId} {expiring before : Set HostId}
    (h : {id | id ∈ fresh} = expiring \ before) : fresh = [] ↔ expiring ⊆ before := by
  rw [← Set.sdiff_eq_empty, ← h, Set.eq_empty_iff_forall_notMem]
  exact List.eq_nil_iff_forall_not_mem

/-- **The loop**: it comes to its end whatever becomes of the messages. -/
theorem ReleaseTimer.records_notifySoon (notifier : Notifier)
    {soon : List (UserId × List HostId)} {sent : UserId → Option (List HostId)}
    (hw : w.db = t.db) (hnd : (soon.map Prod.fst).Nodup)
    (hdated : ∀ x ∈ soon, ∀ h ∈ t.hosts, h.id ∈ x.2 → h.leasedUntil ≠ none) :
    (notifySoon notifier sent soon).Records s p w fun log r w' =>
      ∃ sent', r = .ok sent' ∧ w'.db = t.db ∧ Served soon sent log sent' := by
  induction soon generalizing w sent with
  | nil => exact Task.records_pure ⟨sent, rfl, hw, served_nil sent⟩
  | cons x soon ih =>
    obtain ⟨v, ids⟩ := x
    rw [List.map_cons, List.nodup_cons] at hnd
    obtain ⟨hv, hnd⟩ := hnd
    have hrest := fun {w₁ : World} (hw₁ : w₁.db = t.db) (sent₁ : UserId → Option (List HostId)) =>
      @ih w₁ sent₁ hw₁ hnd fun y hy => hdated y (List.mem_cons_of_mem _ hy)
    have hentry : ∀ u, sentTo (Function.update sent v (some (sentHostIds sent v))) u =
        sentTo sent u := by
      intro u
      by_cases hu : v = u
      · subst hu
        exact sentTo_update_self sent v _
      · exact sentTo_update_of_ne sent hu _
    rw [notifySoon]
    generalize Function.update sent v (some (sentHostIds sent v)) = sent₁ at hentry ⊢
    have hsent₁ : {id | id ∈ sentHostIds sent₁ v} = sentTo sent v := hentry v
    refine Task.records_bind (Task.records_hashOrder fun (order : List Nat) => ?_)
    dsimp only
    have hmem : ∀ id, id ∈ arrange order (ids.filter (· ∉ sentHostIds sent₁ v)) ↔
        id ∈ ids ∧ id ∉ sentHostIds sent₁ v := fun id => by simp [mem_arrange]
    generalize arrange order (ids.filter (· ∉ sentHostIds sent₁ v)) = fresh at hmem ⊢
    have hfresh : {id | id ∈ fresh} = {id | id ∈ ids} \ sentTo sent v := by
      rw [← hsent₁]
      exact Set.ext hmem
    refine Task.records_ite (fun hempty => ?_) fun hne => ?_
    · -- The user knows of all of them.
      refine (hrest hw sent₁).mono ?_
      intro rest r w' hlog
      obtain ⟨sent', rfl, hw', hserved⟩ := hlog
      refine ⟨sent', rfl, hw', Served.cons [⟨.hashOrder, order⟩] hv ?_ ?_ ?_ hserved⟩
      · exact fun x hx => absurd hx List.not_mem_nil
      · exact {
          quiet := fun _ => ⟨rfl, List.not_mem_nil⟩
          tells := fun hno => absurd ((eq_nil_iff_subset hfresh).mp hempty) hno
          keeps := fun _ => hentry v
          adds := fun h => absurd h List.not_mem_nil }
      · exact fun u _ => ⟨rfl, List.not_mem_nil, hentry u⟩
    · have hsome : ¬ {id | id ∈ ids} ⊆ sentTo sent v := (eq_nil_iff_subset hfresh).not.mp hne
      have hnotify :=
        notifier.records_notify (s := s) (p := p) (w := w) v (.expirationSoon fresh) hw
        hne fun ids' heq h hh hid => by
          cases heq
          exact hdated _ List.mem_cons_self h hh ((hmem _).mp hid).1
      refine Task.records_bind (Task.records_attempt (hnotify.mono ?_))
      intro own r w₁ hown
      obtain ⟨hw₁, hnotice, ⟨rfl, hdelivered⟩ | ⟨⟨e, rfl⟩, hdelivered⟩⟩ := hown
      all_goals
        have htold : toldTo v (notices own) = [{id | id ∈ ids} \ sentTo sent v] := by
          rw [hnotice, toldTo_self, ← hfresh]
          rfl
        have hkind : ∀ x ∈ notices own, ∃ ids, x.2 = .expirationSoon ids := by
          intro x hx
          rw [hnotice, List.mem_singleton] at hx
          exact ⟨_, by rw [hx]⟩
        have hothers : ∀ u, v ≠ u → toldTo u (notices own) = [] ∧ u ∉ deliveries own := by
          intro u hu
          rw [hnotice, hdelivered]
          exact ⟨toldTo_of_ne hu _, by simp [Ne.symm hu]⟩
        refine (hrest hw₁ _).mono ?_
        intro rest r w' hlog
        obtain ⟨sent', rfl, hw', hserved⟩ := hlog
        refine ⟨sent', rfl, hw', ?_⟩
      · -- The message has arrived.
        have hyes : v ∈ deliveries own := hdelivered ▸ List.mem_cons_self
        have hadded : sentTo (Function.update sent₁ v (some (sentHostIds sent₁ v ++ fresh))) v =
            sentTo sent v ∪ {id | id ∈ ids} := by
          rw [sentTo_update_self, ← Set.union_sdiff_self, ← hfresh, ← hsent₁]
          exact Set.ext fun id => List.mem_append
        refine Served.cons (⟨.hashOrder, order⟩ :: own) hv hkind ?_ ?_ hserved
        · exact {
            quiet := fun hsub => absurd hsub hsome
            tells := fun _ => htold
            keeps := fun hno => absurd hyes hno
            adds := fun _ => hadded }
        · intro u hu
          exact ⟨(hothers u hu).1, (hothers u hu).2, (sentTo_update_of_ne _ hu _).trans (hentry u)⟩
      · -- The message is lost, and nothing is remembered of it.
        have hno : v ∉ deliveries own := hdelivered ▸ List.not_mem_nil
        refine Served.cons (⟨.hashOrder, order⟩ :: own) hv hkind ?_ ?_ hserved
        · exact {
            quiet := fun hsub => absurd hsub hsome
            tells := fun _ => htold
            keeps := fun _ => hentry v
            adds := fun hyes => absurd hyes hno }
        · exact fun u hu => ⟨(hothers u hu).1, (hothers u hu).2, hentry u⟩

/-! ## The pass -/

/-- A user's hosts whose leases end before `until_`. -/
def Tables.expiring (t : Tables) (until_ : Time) (u : UserId) : Set HostId :=
  {id | ∃ h ∈ t.hosts, h.id = id ∧ h.userId = some u ∧ expiresBefore until_ h.toHostRow = true}

/-- What of the map concerns a user, once the pass has dropped the hosts that expire for nobody. -/
def Tables.priorSent (t : Tables) (self : ReleaseTimer) (until_ : Time) (u : UserId) : Set HostId :=
  sentTo self.sentHostsNotification u ∩ ⋃ v, t.expiring until_ v

section Read

variable {until_ : Time} {order : List Nat} {leased : List LeasedHost}

/-- The hosts that the loop has under a user are the user's. -/
theorem hostsUnder_usersHosts
    (hrun : Select.run order t.view (.getLeasedUntilHosts until_) = .ok leased) (order' : List Nat)
    (u : UserId) :
    hostsUnder (arrange order' (ReleaseTimer.usersHosts leased)) u = t.expiring until_ u := by
  ext id
  have hunder : id ∈ hostsUnder (arrange order' (ReleaseTimer.usersHosts leased)) u ↔
      ∃ l ∈ leased, l.user.id = u ∧ l.id = id := by
    rw [← mem_usersHosts]
    simp only [hostsUnder, Set.mem_ofPred_eq, mem_arrange]
  rw [hunder]
  constructor
  · intro hyp
    obtain ⟨l, hl, rfl, rfl⟩ := hyp
    obtain ⟨h, hh, user, -, hheld, hexpired, hrow⟩ := (mem_getLeasedUntilHosts hrun).mp hl
    obtain ⟨hid, -, -, -, -, huser⟩ := LeasedHost.ofRow_ok.mp hrow
    refine ⟨h, hh, hid.symm, ?_, ((Bool.and_eq_true _ _).mp hexpired).2⟩
    rw [huser]
    exact hheld
  · intro hyp
    obtain ⟨h, hh, rfl, hheld, hexpires⟩ := hyp
    exact exists_lease hrun hh hheld hexpires

/-- What is left of the map. -/
theorem sentTo_retain
    (hrun : Select.run order t.view (.getLeasedUntilHosts until_) = .ok leased)
    (self : ReleaseTimer) (u : UserId) :
    sentTo (ReleaseTimer.retain ((ReleaseTimer.usersHosts leased).flatMap (·.2))
      self.sentHostsNotification) u = t.priorSent self until_ u := by
  ext id
  have hall : id ∈ (ReleaseTimer.usersHosts leased).flatMap (·.2) ↔
      id ∈ ⋃ v, t.expiring until_ v := by
    rw [List.mem_flatMap, Set.mem_iUnion]
    simp only [← hostsUnder_usersHosts hrun []]
    constructor
    · intro hyp
      obtain ⟨⟨v, ids⟩, hv, hid⟩ := hyp
      exact ⟨v, ids, hv, hid⟩
    · intro hyp
      obtain ⟨v, ids, hv, hid⟩ := hyp
      exact ⟨(v, ids), hv, hid⟩
  exact mem_retain.trans (and_congr_right fun _ => hall)

end Read

/-- The time that an exchange reads from the clock. -/
def timeOf : Exchange Effect Effect.Res → Option Time
  | ⟨.now, now⟩ => some now
  | _ => none

/-- What a pass comes to that has read the clock at `now` and found the tables. -/
structure Announces (t : Tables) (timer : ReleaseTimer) (now : Time) (log : Log)
    (timer' : ReleaseTimer) : Prop where
  kind : ∀ x ∈ notices log, ∃ ids, x.2 = .expirationSoon ids
  fares : ∀ u, Fares (t.expiring (now + timer.expirationNotifyDelayTime) u)
    (t.priorSent timer (now + timer.expirationNotifyDelayTime) u) (toldTo u (notices log))
    (u ∈ deliveries log) (sentTo timer'.sentHostsNotification u)
  delay : timer'.expirationNotifyDelayTime = timer.expirationNotifyDelayTime

/-- What `notify_soon_release` has come to, by its log: it fails only before it has told anybody,
    and the tables are as they were. -/
def SoonRecord (t : Tables) (timer : ReleaseTimer) (log : Log) (r : Exit AnyError ReleaseTimer)
    (w' : World) : Prop :=
  w'.db = t.db ∧
    ((∃ now timer', log.findSome? timeOf = some now ∧ r = .ok timer' ∧
        Announces t timer now log timer') ∨
      ((∃ e, r = .err e) ∧ notices log = []))

/-- **A pass** over settled tables, whatever fails and whichever way the hash maps are iterated. -/
theorem ReleaseTimer.records_notifySoonRelease (self : ReleaseTimer) (notifier : Notifier)
    (hw : w.db = t.db) :
    (self.notifySoonRelease notifier).Records s p w (SoonRecord t self) := by
  obtain ⟨db, n⟩ := w
  obtain rfl : db = t.db := hw
  have hview : t.db.view ⟨p, n⟩ = t.view := t.view_db _
  refine Task.records_withTx ?_ fun _ => ⟨rfl, .inr ⟨⟨_, rfl⟩, rfl⟩⟩
  refine Task.records_bind (Task.records_utcNow fun now _ => ?_)
  refine Task.records_bind (Task.records_mapErr (Task.records_fetch (fun order => ?_) fun _ =>
    ⟨Tables.db_rollback, .inr ⟨⟨_, rfl⟩, rfl⟩⟩))
  rw [hview]
  obtain ⟨leased, hrun⟩ := exists_getLeasedUntilHosts t order (now + self.expirationNotifyDelayTime)
  rw [hrun]
  dsimp only [Exit.ofExcept]
  refine Task.records_bind (Task.records_hashOrder fun (order' : List Nat) => ?_)
  dsimp only
  have hnd : ((arrange order' (usersHosts leased)).map Prod.fst).Nodup :=
    ((arrange_perm order' _).map _).nodup_iff.mpr (collect_nodup _ _ _)
  -- Nobody writes meanwhile, so the hosts still have their deadlines when the notices are written.
  have hdated : ∀ x ∈ arrange order' (usersHosts leased), ∀ h ∈ t.hosts, h.id ∈ x.2 →
      h.leasedUntil ≠ none := by
    intro x hx h hh hid
    have hunder : h.id ∈ hostsUnder (arrange order' (usersHosts leased)) x.1 := ⟨x.2, hx, hid⟩
    rw [hostsUnder_usersHosts hrun] at hunder
    obtain ⟨h', hh', hsame, -, hexpires⟩ := hunder
    obtain rfl := List.inj_on_of_nodup_map t.hosts_pkey hh' hh hsame
    obtain ⟨d, hd, -⟩ := expiresBefore_iff.mp hexpires
    exact ne_of_eq_of_ne hd (Option.some_ne_none d)
  refine Task.records_bind ((records_notifySoon notifier rfl hnd hdated).mono ?_)
  intro log r w' hlog
  obtain ⟨sent', rfl, hw', hserved⟩ := hlog
  refine Task.records_pure ⟨?_, .inl ⟨now, _, rfl, rfl, ?_⟩⟩
  · show w'.db.rollback _ = t.db
    rw [hw', Tables.db_rollback]
  · refine { kind := fun x hx => hserved.kind x ?_, fares := fun u => ?_, delay := rfl }
    · simpa [noticeOf] using hx
    · have hfares := hserved.fares u
      rw [hostsUnder_usersHosts hrun, sentTo_retain hrun] at hfares
      simpa [noticeOf, deliveryOf] using hfares

/-! ## Two passes -/

/-- A pass that was carried through. -/
structure SoonPass where
  tables : Tables
  timer : ReleaseTimer
  notifier : Notifier
  setting : Setting
  pid : Pid
  world : World
  settled : world.db = tables.db
  log : Log
  timer' : ReleaseTimer
  world' : World
  logs : Prog.Logs (actIn setting) pid (timer.notifySoonRelease notifier) world log
    (.ok timer') world'

namespace SoonPass

variable (a : SoonPass) (u : UserId)

/-- The time up to which leases are announced. -/
def until_ : Time := (a.log.findSome? timeOf).getD 0 + a.timer.expirationNotifyDelayTime

def expiring : Set HostId := a.tables.expiring a.until_ u

/-- What was sent before, of the hosts that expire now. -/
def prior : Set HostId := a.tables.priorSent a.timer a.until_ u

def told : List (Set HostId) := toldTo u (notices a.log)

def after : Set HostId := sentTo a.timer'.sentHostsNotification u

/-- The sends go as `arrives` has it. -/
def Follows (arrives : UserId → Prop) : Prop :=
  ∀ u, a.told u ≠ [] → (u ∈ deliveries a.log ↔ arrives u)

theorem announces : ∃ now, a.until_ = now + a.timer.expirationNotifyDelayTime ∧
    Announces a.tables a.timer now a.log a.timer' := by
  obtain ⟨-, ⟨now, timer', hnow, hr, hannounces⟩ | ⟨⟨e, hr⟩, -⟩⟩ :=
    a.timer.records_notifySoonRelease a.notifier a.settled _ _ _ a.logs
  · obtain rfl : a.timer' = timer' := Exit.ok.inj hr
    refine ⟨now, ?_, hannounces⟩
    rw [until_, hnow]
    rfl
  · cases hr

theorem fares : Fares (a.expiring u) (a.prior u) (a.told u) (u ∈ deliveries a.log) (a.after u) := by
  obtain ⟨now, huntil, hannounces⟩ := a.announces
  unfold expiring prior
  rw [huntil]
  exact hannounces.fares u

variable {a u} {b : SoonPass}

/-- The next pass starts from what this one remembers. -/
theorem prior_of_next (hnext : b.timer = a.timer') :
    b.prior u = a.after u ∩ ⋃ v, b.expiring v := by
  unfold prior after Tables.priorSent
  rw [hnext]
  rfl

/-- **A user whose message is lost** is told again of what still expires. -/
theorem told_again (hlost : u ∉ deliveries a.log) (hnext : b.timer = a.timer') {hosts : Set HostId}
    (hhosts : hosts ∈ a.told u) {id : HostId} (hid : id ∈ hosts) (hstill : id ∈ b.expiring u) :
    ∃ hosts' ∈ b.told u, id ∈ hosts' := by
  have hnew : id ∉ a.prior u := by
    rw [(a.fares u).mem_of_told hhosts] at hid
    exact hid.2
  have hunsent : id ∉ b.prior u := by
    rw [prior_of_next hnext, (a.fares u).keeps hlost]
    exact fun h => hnew h.1
  have htold := (b.fares u).tells fun hsub => hunsent (hsub hstill)
  refine ⟨b.expiring u \ b.prior u, ?_, hstill, hunsent⟩
  rw [htold]
  exact List.mem_cons_self

/-- And of the same hosts, if they are the same. -/
theorem told_same (hlost : u ∉ deliveries a.log) (hnext : b.timer = a.timer')
    (hsame : b.expiring u = a.expiring u) : b.told u = a.told u := by
  have hfares := b.fares u
  rw [hsame] at hfares
  refine hfares.told_congr (a.fares u) ?_
  have hunion : a.expiring u ⊆ ⋃ v, b.expiring v := hsame ▸ Set.subset_iUnion b.expiring u
  rw [prior_of_next hnext, (a.fares u).keeps hlost]
  ext id
  refine and_congr_right fun hid => not_congr ?_
  exact and_iff_left (hunion hid)

end SoonPass

/-- **Users do not affect each other's notices**: a pass that was not carried through has told
    nobody; and in the others what a user is told of, and what is remembered for the user, depends
    on nothing but the user's own hosts, what the user was told of before, and the one message. -/
theorem notices_apart :
    (∀ (t : Tables) (timer : ReleaseTimer) (notifier : Notifier) (s : Setting) (p : Pid)
      (w : World),
      w.db = t.db → (timer.notifySoonRelease notifier).Records s p w fun log r w' => w'.db = t.db ∧
        ((∃ timer', r = .ok timer' ∧ ∀ x ∈ notices log, ∃ ids, x.2 = .expirationSoon ids) ∨
          (∃ e, r = .err e) ∧ notices log = [])) ∧
    (∀ (a b : SoonPass) (arrives arrives' : UserId → Prop) (u : UserId), a.Follows arrives →
      b.Follows arrives' → a.expiring u = b.expiring u → a.prior u = b.prior u →
      (arrives u ↔ arrives' u) → a.told u = b.told u ∧ a.after u = b.after u) ∧
    (∀ (a b : SoonPass) (arrives : UserId → Prop), a.tables = b.tables → a.timer = b.timer →
      a.until_ = b.until_ → a.Follows arrives → b.Follows arrives →
      ∀ u, a.told u = b.told u ∧ a.after u = b.after u) ∧
    ∀ (a : SoonPass) (u : UserId), u ∉ deliveries a.log → a.after u = a.prior u ∧
      ∀ b : SoonPass, b.timer = a.timer' →
        (∀ hosts ∈ a.told u, ∀ id ∈ hosts, id ∈ b.expiring u → ∃ hosts' ∈ b.told u, id ∈ hosts') ∧
          (b.expiring u = a.expiring u → b.told u = a.told u) := by
  -- How a user fares is a function of these, and of the message if the user is told of something.
  have hown : ∀ (a b : SoonPass) (arrives arrives' : UserId → Prop) (u : UserId),
      a.Follows arrives → b.Follows arrives' → a.expiring u = b.expiring u → a.prior u = b.prior u →
      (arrives u ↔ arrives' u) → a.told u = b.told u ∧ a.after u = b.after u := by
    intro a b arrives arrives' u hfollows hfollows' hexpiring hprior harrives
    have hfares := a.fares u
    rw [hexpiring, hprior] at hfares
    refine hfares.unique (b.fares u) fun htold htold' => ?_
    rw [hfollows u htold, hfollows' u htold', harrives]
  refine ⟨?_, hown, ?_, ?_⟩
  · intro t timer notifier s p w hw
    refine (timer.records_notifySoonRelease notifier hw).mono fun log r w' hrecord =>
      ⟨hrecord.1, ?_⟩
    obtain ⟨-, ⟨now, timer', -, hr, hannounces⟩ | herr⟩ := hrecord
    · exact .inl ⟨timer', hr, hannounces.kind⟩
    · exact .inr herr
  · intro a b arrives htables htimer huntil hfollows hfollows' u
    refine hown a b arrives arrives u hfollows hfollows' ?_ ?_ Iff.rfl
    · unfold SoonPass.expiring
      rw [htables, huntil]
    · unfold SoonPass.prior
      rw [htables, htimer, huntil]
  · intro a u hlost
    refine ⟨(a.fares u).keeps hlost, fun b hnext => ⟨?_, SoonPass.told_same hlost hnext⟩⟩
    exact fun hosts hhosts id hid hstill => SoonPass.told_again hlost hnext hhosts hid hstill

/-- `alice` and `bob` hold a host each, and both leases are about to end. -/
def bothExpire : Tables where
  users := [alice, bob]
  hosts := [host1 (some (true, 5)),
    ⟨⟨"host2", ⟨false, 2, 32⟩, some 6, some bob.id, ⟨1⟩⟩, ⟨2⟩⟩]
  groups := [⟨⟨1⟩, "group"⟩]
  leaseLimits := []
  nextUserId := 3
  users_pkey := nodup_alice_bob
  hosts_pkey := by decide
  leaseLimits_pkey := List.nodup_nil
  hosts_user_id_fkey := by simp [host1]
  hosts_group_id_fkey := by simp [host1]

/-- A pass over `bothExpire` at 3 that has `n` exchanges and loses the message at the place `lost`;
    `order` is the one that the users come in. -/
def smallPass (timer : ReleaseTimer) (n lost : Nat) (order : List Nat) :
    Option (Log × Exit AnyError ReleaseTimer × World) :=
  Prog.record (actIn (.at 3)) .timer (timer.notifySoonRelease ⟨fun _ => .ok 7⟩)
    ((List.range n).map fun i =>
      { fails := decide (i = lost), time := 3, order := if i = 3 then order else [] })
    bothExpire.world

theorem exists_smallPass (timer : ReleaseTimer) (n lost : Nat) (order : List Nat)
    (q : Log → ReleaseTimer → Bool)
    (h : (smallPass timer n lost order).any (fun x => match x.2.1 with
      | .ok timer' => q x.1 timer'
      | _ => false) = true) :
    ∃ a : SoonPass, a.tables = bothExpire ∧ a.timer = timer ∧ q a.log a.timer' = true := by
  obtain ⟨⟨log, r, w'⟩, hx, hq⟩ := (Option.any_eq_true _ _).mp h
  cases r with
  | ok timer' =>
    exact ⟨⟨bothExpire, timer, _, _, _, _, rfl, log, timer', w', Prog.logs_of_record _ _ hx⟩, rfl,
      rfl, hq⟩
  | err e => cases hq
  | panic msg => cases hq

/-- The message to `alice` is lost and the one to `bob` arrives, whoever comes first; and the next
    pass tells `alice` again. -/
theorem notices_apart_small : ∃ a b c : SoonPass,
    (notices a.log).map Prod.fst = [alice.id, bob.id] ∧
      (notices b.log).map Prod.fst = [bob.id, alice.id] ∧
      (∀ u, a.told u = b.told u ∧ a.after u = b.after u) ∧ a.after alice.id = a.prior alice.id ∧
      c.timer = a.timer' ∧ c.told alice.id = a.told alice.id := by
  have hread : ∀ {x : SoonPass}, x.log.findSome? timeOf = some 3 →
      x.timer.expirationNotifyDelayTime = EXPIRATION_NOTIFY_WINDOW →
      x.until_ = 3 + EXPIRATION_NOTIFY_WINDOW := by
    intro x htime hdelay
    rw [SoonPass.until_, htime, hdelay]
    rfl
  obtain ⟨b, hbtables, hbtimer, hb⟩ := exists_smallPass .new 21 18 [1]
    (fun log _ => (notices log).map Prod.fst == [bob.id, alice.id] &&
      deliveries log == [bob.id] && log.findSome? timeOf == some 3) (by decide +kernel)
  obtain ⟨a, hatables, hatimer, ha⟩ := exists_smallPass .new 21 10 []
    (fun log timer' => (notices log).map Prod.fst == [alice.id, bob.id] &&
      deliveries log == [bob.id] && log.findSome? timeOf == some 3 &&
      (timer'.expirationNotifyDelayTime == EXPIRATION_NOTIFY_WINDOW) &&
      (smallPass timer' 14 10 []).any (fun x => match x.2.1 with
        | .ok _ => x.1.findSome? timeOf == some 3
        | _ => false)) (by decide +kernel)
  simp only [Bool.and_eq_true, beq_iff_eq] at ha hb
  obtain ⟨⟨⟨⟨hatold, hasent⟩, hatime⟩, hadelay⟩, hanext⟩ := ha
  obtain ⟨⟨hbtold, hbsent⟩, hbtime⟩ := hb
  obtain ⟨c, hctables, hctimer, hc⟩ := exists_smallPass _ 14 10 []
    (fun log _ => log.findSome? timeOf == some 3) hanext
  have hauntil := hread hatime (by rw [hatimer]; rfl)
  have hbuntil := hread hbtime (by rw [hbtimer]; rfl)
  have hcuntil := hread (beq_iff_eq.mp hc) (by rw [hctimer, hadelay])
  obtain ⟨-, -, hsame, hagain⟩ := notices_apart
  have hlost := hagain a alice.id (by rw [hasent]; decide)
  refine ⟨a, b, c, hatold, hbtold, hsame a b (· = bob.id) (hatables.trans hbtables.symm)
    (hatimer.trans hbtimer.symm) (hauntil.trans hbuntil.symm) ?_ ?_, hlost.1, hctimer,
    (hlost.2 c hctimer).2 ?_⟩
  · intro u _
    rw [hasent, List.mem_singleton]
  · intro u _
    rw [hbsent, List.mem_singleton]
  · unfold SoonPass.expiring
    rw [hctables, hatables, hcuntil, hauntil]

end Tachikoma
