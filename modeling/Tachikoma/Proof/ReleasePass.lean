import Tachikoma.Logic.ReleaseTimer
import Tachikoma.Proof.Passes
import Tachikoma.Proof.Records
import Tachikoma.Proof.Releases

/-!
# A release pass

What `release` does to settled tables and what is told of it: the rows it frees, the leases it
returns, the pairs it forgets and the notifications attempted afterwards are **one set of hosts**.
A pass that fails has done none of it.
-/

set_option autoImplicit false

namespace Tachikoma

open Interleaving Versioned Unordered

variable {p : Pid} {s : Setting} {t : Tables} {w : World}

/-! ## One notification -/

namespace Notifier

/-- The hosts a notification names. -/
def named : Notification → List HostId
  | .hostsReleased hostsIds => hostsIds
  | .expirationSoon hostsIds => hostsIds

theorem records_sendMessage (sender : MsgSender) (msg : Message)
    {A : Log → Exit AnyError Unit → World → Prop}
    (hok : A [⟨.send sender msg, .ok ()⟩] (.ok ()) w)
    (herr : A [⟨.send sender msg, .error ()⟩] (.err .send) w) :
    (sendMessage sender msg).Records s p w A := by
  refine Prog.records_op (actIn s) p fun env r w₁ ha => ?_
  obtain ⟨-, ha⟩ := actIn_eq_some.mp ha
  obtain ⟨-, rfl⟩ := Prod.mk.inj (Option.some.inj ha)
  cases r with
  | ok u => exact Prog.records_ret (actIn s) p hok
  | error u => exact Prog.records_ret (actIn s) p herr

/-- The lines of a message about hosts that all have a deadline. -/
theorem records_expiringLines {hosts : List Host} (hdated : ∀ h ∈ hosts, h.leasedUntil ≠ none)
    (idx : Nat) : (expiringLines idx hosts).Records s p w fun log r w' =>
      (∃ lines, r = .ok lines) ∧ w' = w ∧ notices log = [] ∧ deliveries log = [] := by
  induction hosts generalizing idx with
  | nil => exact Task.records_pure ⟨⟨[], rfl⟩, rfl, rfl, rfl⟩
  | cons host hosts ih =>
    have hrest := ih (fun h hh => hdated h (List.mem_cons_of_mem _ hh)) (idx + 1)
    rw [expiringLines]
    split
    · rename_i hnone
      exact absurd hnone (hdated host List.mem_cons_self)
    · refine Task.records_bind (Task.records_utcNow fun now _ => ?_)
      refine Task.records_bind (hrest.mono ?_)
      intro log r w' hlog
      obtain ⟨⟨lines, rfl⟩, rfl, hn, hd⟩ := hlog
      exact Task.records_pure ⟨⟨_, rfl⟩, rfl, by simp [noticeOf, hn], by simp [deliveryOf, hd]⟩

/-- **One call of `notify`**, on tables that nobody changes: it is the only attempt, and it succeeds
    exactly if the message is delivered. -/
theorem records_notify (self : Notifier) (u : UserId) (notification : Notification)
    (hw : w.db = t.db) (hne : named notification ≠ [])
    (hdated : ∀ ids, notification = .expirationSoon ids →
      ∀ h ∈ t.hosts, h.id ∈ ids → h.leasedUntil ≠ none) :
    (self.notify u notification).Records s p w fun log r w' =>
      w'.db = t.db ∧ notices log = [(u, notification)] ∧
        (r = .ok () ∧ deliveries log = [u] ∨ (∃ e, r = .err e) ∧ deliveries log = []) := by
  refine Prog.records_op (actIn s) p fun env r w₁ ha => ?_
  obtain ⟨-, ha⟩ := actIn_eq_some.mp ha
  obtain ⟨-, rfl⟩ := Prod.mk.inj (Option.some.inj ha)
  have hrollback : ∀ n, w.db.rollback ⟨p, n⟩ = t.db := fun n => by rw [hw, Tables.db_rollback]
  have hview : w.db.view ⟨p, w.nextTx⟩ = t.view := by rw [hw, Tables.view_db]; rfl
  refine Task.records_withTx ?_ fun _ => ⟨hw, rfl, .inr ⟨⟨_, rfl⟩, rfl⟩⟩
  refine Task.records_bind (Task.records_mapErr (Task.records_fetch (fun order => ?_) fun _ =>
    ⟨hrollback _, rfl, .inr ⟨⟨_, rfl⟩, rfl⟩⟩))
  cases hrun : Select.run order (w.db.view ⟨p, w.nextTx⟩) (.getUserById u) with
  | error e => exact ⟨hrollback _, rfl, .inr ⟨⟨_, rfl⟩, rfl⟩⟩
  | ok user =>
    dsimp only [Exit.ofExcept]
    cases user with
    | none => exact Task.records_throw ⟨hrollback _, rfl, .inr ⟨⟨_, rfl⟩, rfl⟩⟩
    | some user =>
      have hid : user.id = u := id_of_getUserById hrun
      -- A user without a Telegram account cannot be told.
      cases hsender : self.getMessageSender user with
      | error e =>
        simp only [hsender]
        exact Task.records_throw ⟨hrollback _, rfl, .inr ⟨⟨_, rfl⟩, rfl⟩⟩
      | ok chatId =>
        simp only [hsender]
        cases notification with
        | hostsReleased hostsIds =>
          have hids : hostsIds ≠ [] := hne
          dsimp only
          rw [if_neg hids]
          refine Task.records_bind (Task.records_mapErr (Task.records_fetch (fun order' => ?_)
            fun _ => ⟨hrollback _, rfl, .inr ⟨⟨_, rfl⟩, rfl⟩⟩))
          dsimp only [Select.run, Exit.ofExcept]
          refine records_sendMessage _ _ ⟨hrollback _, rfl, .inl ⟨rfl, ?_⟩⟩
            ⟨hrollback _, rfl, .inr ⟨⟨_, rfl⟩, rfl⟩⟩
          simp [deliveryOf, hid]
        | expirationSoon hostsIds =>
          have hids : hostsIds ≠ [] := hne
          dsimp only
          rw [if_neg hids]
          refine Task.records_bind (Task.records_mapErr (Task.records_fetch (fun order' => ?_)
            fun _ => ⟨hrollback _, rfl, .inr ⟨⟨_, rfl⟩, rfl⟩⟩))
          dsimp only [Select.run, Exit.ofExcept]
          have hhosts : ∀ h ∈ arrange order' ((w.db.view ⟨p, w.nextTx⟩).hosts.filter
              fun h => h.id ∈ hostsIds), h.leasedUntil ≠ none := by
            intro h hh
            rw [mem_arrange, hview] at hh
            obtain ⟨hmem, hnamed⟩ := List.mem_filter.mp hh
            exact hdated hostsIds rfl h hmem (of_decide_eq_true hnamed)
          refine Task.records_bind ((records_expiringLines hhosts 1).mono ?_)
          intro log r w' hlog
          obtain ⟨⟨lines, rfl⟩, rfl, hn, hd⟩ := hlog
          refine records_sendMessage _ _ ⟨hrollback _, ?_, .inl ⟨rfl, ?_⟩⟩
            ⟨hrollback _, ?_, .inr ⟨⟨_, rfl⟩, ?_⟩⟩
          all_goals simp [noticeOf, deliveryOf, hn, hd, hid]

end Notifier

/-! ## The report -/

namespace ReleaseTimer

/-- The loop over the former holders: one attempt for each, whatever becomes of it. -/
theorem records_notifyReleased (notifier : Notifier) {released : List (UserId × List HostId)}
    (hw : w.db = t.db) (hne : ∀ x ∈ released, x.2 ≠ []) :
    (notifyReleased notifier released).Records s p w fun log r w' => r = .ok () ∧ w'.db = t.db ∧
      notices log = released.map fun x => (x.1, .hostsReleased x.2) := by
  induction released generalizing w with
  | nil => exact Task.records_pure ⟨rfl, hw, rfl⟩
  | cons x released ih =>
    have hnotify := notifier.records_notify (s := s) (p := p) x.1 (.hostsReleased x.2) hw
      (hne x List.mem_cons_self) (fun _ h => by cases h)
    refine Task.records_bind (Task.records_attempt (hnotify.mono ?_))
    intro log r w₁ hlog
    obtain ⟨hw₁, hn, ⟨rfl, -⟩ | ⟨⟨e, rfl⟩, -⟩⟩ := hlog
    all_goals
      refine (ih hw₁ fun y hy => hne y (List.mem_cons_of_mem _ hy)).mono ?_
      intro rest r' w' hrest
      exact ⟨hrest.1, hrest.2.1, by rw [notices_append, hn, hrest.2.2]; rfl⟩

end ReleaseTimer

/-- What is told of the leases that a pass returned: every former holder is told once, and of
    exactly the hosts that were the holder's. -/
structure Reports (leased : List LeasedHost) (told : List (UserId × Notification)) : Prop where
  once : (told.map Prod.fst).Nodup
  everyone : ∀ l ∈ leased, l.user.id ∈ told.map Prod.fst
  hosts : ∀ u n, (u, n) ∈ told → ∃ ids, n = .hostsReleased ids ∧ ids ≠ [] ∧ ids.Nodup ∧
    ∀ id, id ∈ ids ↔ ∃ l ∈ leased, l.user.id = u ∧ l.id = id

section Holders

variable {leased : List LeasedHost}

/-- The leases by their holders, as `notify_released_hosts` groups them. -/
def byHolder (leased : List LeasedHost) : List (UserId × List HostId) :=
  collect (fun id ids => ids ++ [id]) (fun id => [id]) (leased.map fun h => (h.user.id, h.id))

theorem mem_byHolder {u : UserId} {id : HostId} :
    (∃ ids, (u, ids) ∈ byHolder leased ∧ id ∈ ids) ↔ ∃ l ∈ leased, l.user.id = u ∧ l.id = id := by
  unfold byHolder
  rw [collect_mem (fun id (ids : List HostId) => id ∈ ids)
    (fun y x v => by rw [List.mem_append, List.mem_singleton, or_comm]) (by simp)]
  simp only [List.mem_map, Prod.mk.injEq]

theorem ne_nil_of_mem_byHolder {x : UserId × List HostId} (hx : x ∈ byHolder leased) : x.2 ≠ [] :=
  collect_forall (Q := fun _ ids => ids ≠ []) (by simp) (by simp) (fun _ _ _ h => h) _ hx

/-- The hosts of one holder come in the order of the leases. -/
theorem sublist_of_mem_byHolder {x : UserId × List HostId} (hx : x ∈ byHolder leased) :
    x.2.Sublist (leased.map (·.id)) := by
  have h := collect_forall (Q := fun (l : List (UserId × HostId)) ids => ids.Sublist (l.map (·.2)))
    ?_ ?_ ?_ (leased.map fun h => (h.user.id, h.id)) hx
  · simpa [Function.comp_def] using h
  · intro l y
    rw [List.map_append]
    exact List.sublist_append_right _ _
  · intro l y ids hids
    rw [List.map_append]
    exact hids.append_right _
  · intro l y ids hids
    rw [List.map_append]
    exact hids.trans (List.sublist_append_left _ _)

/-- The users are distinct, so what is found under one is all there is of it. -/
theorem mem_of_mem_byHolder {u : UserId} {ids : List HostId} (hx : (u, ids) ∈ byHolder leased)
    {id : HostId} : id ∈ ids ↔ ∃ l ∈ leased, l.user.id = u ∧ l.id = id := by
  rw [← mem_byHolder]
  constructor
  · exact fun hid => ⟨ids, hx, hid⟩
  · intro h
    obtain ⟨ids', hx', hid⟩ := h
    have hkeys : ((byHolder leased).map Prod.fst).Nodup := collect_nodup _ _ _
    have heq := List.inj_on_of_nodup_map hkeys hx hx' rfl
    rwa [(Prod.mk.inj heq).2]

end Holders

/-- **The report of a pass**, whichever messages arrive and in whatever order the users are
    served. -/
theorem ReleaseTimer.records_notifyReleasedHosts (notifier : Notifier) {leased : List LeasedHost}
    (hw : w.db = t.db) (hnd : (leased.map (·.id)).Nodup) :
    (notifyReleasedHosts notifier leased).Records s p w fun log r w' =>
      r = .ok () ∧ w'.db = t.db ∧ Reports leased (notices log) := by
  refine Task.records_bind (Task.records_hashOrder fun order => ?_)
  have hmem : ∀ x, x ∈ arrange order (byHolder leased) ↔ x ∈ byHolder leased := fun x => mem_arrange
  have hne : ∀ x ∈ arrange order (byHolder leased), x.2 ≠ [] :=
    fun x hx => ne_nil_of_mem_byHolder ((hmem x).mp hx)
  refine (records_notifyReleased notifier hw hne).mono ?_
  intro log r w' hlog
  obtain ⟨rfl, hw', hn⟩ := hlog
  refine ⟨rfl, hw', ?_⟩
  -- Who is told of what is the map of holders, in the order in which it is iterated.
  have htold : notices ([⟨.hashOrder, order⟩] ++ log) =
      (arrange order (byHolder leased)).map fun x => (x.1, .hostsReleased x.2) := by
    rw [notices_append, hn]
    rfl
  rw [htold]
  have hkeys :
      ((arrange order (byHolder leased)).map Prod.fst).Perm ((byHolder leased).map Prod.fst) :=
    (arrange_perm order _).map _
  have hfst : ((arrange order (byHolder leased)).map
      fun x => (x.1, Notification.hostsReleased x.2)).map Prod.fst =
        (arrange order (byHolder leased)).map Prod.fst := by
    rw [List.map_map]
    rfl
  refine ⟨?_, fun l hl => ?_, fun u n hun => ?_⟩
  · rw [hfst, hkeys.nodup_iff]
    exact collect_nodup _ _ _
  · rw [hfst, hkeys.mem_iff]
    obtain ⟨ids, hids, -⟩ := mem_byHolder.mpr ⟨l, hl, rfl, rfl⟩
    exact List.mem_map_of_mem (f := Prod.fst) hids
  · obtain ⟨⟨u', ids⟩, hx, heq⟩ := List.mem_map.mp hun
    obtain ⟨rfl, rfl⟩ := Prod.mk.inj heq
    have hx := (hmem _).mp hx
    exact ⟨ids, rfl, ne_nil_of_mem_byHolder hx, (sublist_of_mem_byHolder hx).nodup hnd,
      fun id => mem_of_mem_byHolder hx⟩

/-! ## The pass -/

/-- The row is of a host with a holder whose lease is over. -/
def expired (now : Time) (r : HostRow) : Bool := r.userId.isSome && expiresBefore now r

/-- What a pass at `now` has done that succeeded. -/
structure Released (t : Tables) (timer : ReleaseTimer) (now : Time) (leased : List LeasedHost)
    (timer' : ReleaseTimer) (w' : World) : Prop where
  /-- Exactly the leases that are over are freed. -/
  frees : ∀ id, w'.host id = (t.world.host id).map fun r =>
    if expired now r then { r with userId := none, leasedUntil := none } else r
  rest : w'.db = { t.db with hosts := w'.db.hosts }
  settled : ∃ t' : Tables, w'.db = t'.db
  /-- These leases are returned, as they were. -/
  returns : ∀ l, l ∈ leased ↔ ∃ h ∈ t.hosts, ∃ user ∈ t.users, h.userId = some user.id ∧
    expired now h.toHostRow = true ∧ LeasedHost.ofRow (h, user) = .ok l
  nodup : (leased.map (·.id)).Nodup
  /-- And these pairs are forgotten. -/
  forgets : ∀ u id, id ∈ ReleaseTimer.sentHostIds timer'.sentHostsNotification u ↔
    id ∈ ReleaseTimer.sentHostIds timer.sentHostsNotification u ∧
      ¬ ∃ l ∈ leased, l.user.id = u ∧ l.id = id
  delay : timer'.expirationNotifyDelayTime = timer.expirationNotifyDelayTime

section Pass

variable {now : Time} {order : List Nat} {leased : List LeasedHost}

theorem mem_getLeasedUntilHosts
    (hrun : Select.run order t.view (.getLeasedUntilHosts now) = .ok leased) {l : LeasedHost} :
    l ∈ leased ↔ ∃ h ∈ t.hosts, ∃ user ∈ t.users, h.userId = some user.id ∧
      expired now h.toHostRow = true ∧ LeasedHost.ofRow (h, user) = .ok l := by
  rw [mem_of_decodeAll hrun]
  constructor
  · intro hyp
    obtain ⟨⟨h, user⟩, hr, hl⟩ := hyp
    rw [mem_arrange] at hr
    obtain ⟨hjoin, hexpires⟩ := List.mem_filter.mp hr
    obtain ⟨hh, huser, hheld⟩ := mem_join.mp hjoin
    refine ⟨h, hh, user, huser, hheld, ?_, hl⟩
    have hheld : h.userId = some user.id := hheld
    rw [expired, hheld]
    exact hexpires
  · intro hyp
    obtain ⟨h, hh, user, huser, hheld, hexpired, hl⟩ := hyp
    refine ⟨(h, user), ?_, hl⟩
    rw [mem_arrange]
    refine List.mem_filter.mpr ⟨mem_join.mpr ⟨hh, huser, hheld⟩, ?_⟩
    exact ((Bool.and_eq_true _ _).mp hexpired).2

/-- A host that somebody holds and whose lease is over is among them. -/
theorem exists_lease (hrun : Select.run order t.view (.getLeasedUntilHosts now) = .ok leased)
    {h : Host} (hh : h ∈ t.hosts) {u : UserId} (hheld : h.userId = some u)
    (hbefore : expiresBefore now h.toHostRow = true) :
    ∃ l ∈ leased, l.user.id = u ∧ l.id = h.id := by
  obtain ⟨user, huser, rfl⟩ := t.hosts_user_id_fkey h hh u hheld
  have hexpired : expired now h.toHostRow = true := by
    refine (Bool.and_eq_true _ _).mpr ⟨?_, hbefore⟩
    rw [show h.toHostRow.userId = some user.id from hheld]
    rfl
  obtain ⟨d, hd, -⟩ := expiresBefore_iff.mp hbefore
  refine ⟨⟨h.id, h.hostname, h.ipAddress, d, none, user⟩, ?_, rfl, rfl⟩
  exact (mem_getLeasedUntilHosts hrun).mpr
    ⟨h, hh, user, huser, hheld, hexpired, LeasedHost.ofRow_ok.mpr ⟨rfl, rfl, rfl, hd, rfl, rfl⟩⟩

/-- The hosts among the leases are the expired ones. -/
theorem mem_ids_getLeasedUntilHosts
    (hrun : Select.run order t.view (.getLeasedUntilHosts now) = .ok leased) {h : Host}
    (hh : h ∈ t.hosts) : h.id ∈ leased.map (·.id) ↔ expired now h.toHostRow = true := by
  rw [List.mem_map]
  constructor
  · intro hyp
    obtain ⟨l, hl, hid⟩ := hyp
    obtain ⟨h', hh', user, -, -, hexpired, hrow⟩ := (mem_getLeasedUntilHosts hrun).mp hl
    have heq : h' = h :=
      List.inj_on_of_nodup_map t.hosts_pkey hh' hh ((LeasedHost.ofRow_ok.mp hrow).1.symm.trans hid)
    rw [← heq]
    exact hexpired
  · intro hexpired
    obtain ⟨hsome, hbefore⟩ := (Bool.and_eq_true _ _).mp hexpired
    obtain ⟨u, hu⟩ := Option.isSome_iff_exists.mp hsome
    obtain ⟨l, hl, -, hid⟩ := exists_lease hrun hh hu hbefore
    exact ⟨l, hl, hid⟩

theorem nodup_getLeasedUntilHosts
    (hrun : Select.run order t.view (.getLeasedUntilHosts now) = .ok leased) :
    (leased.map (·.id)).Nodup := by
  have hread :
      Select.run order (t.db.view ⟨.timer, 0⟩) (.getLeasedUntilHosts now) = .ok leased := by
    rw [t.view_db]
    exact hrun
  exact (decoded_getLeasedUntilHosts hread).nodup

/-- The leases always decode: they have a deadline. -/
theorem exists_getLeasedUntilHosts (t : Tables) (order : List Nat) (now : Time) :
    ∃ leased : List LeasedHost,
      Select.run order t.view (.getLeasedUntilHosts now) = .ok leased := by
  refine exists_decodeAll fun r hr => ?_
  rw [mem_arrange] at hr
  obtain ⟨d, hd, -⟩ := expiresBefore_iff.mp (List.mem_filter.mp hr).2
  rw [hd]
  exact Option.some_ne_none d

end Pass

/-- The update that frees these leases, and what the timer forgets with it. -/
theorem released_of_update {now : Time} {order : List Nat} {leased : List LeasedHost}
    {self self' : ReleaseTimer} {w' : World}
    (hrun : Select.run order t.view (.getLeasedUntilHosts now) = .ok leased)
    (hx : t.Grantable (.freeHosts (leased.map (·.id)))) (hdb : w'.db = (t.update _ hx).db)
    (hforgets : ∀ u id, id ∈ ReleaseTimer.sentHostIds self'.sentHostsNotification u ↔
      id ∈ ReleaseTimer.sentHostIds self.sentHostsNotification u ∧
        ¬ ∃ l ∈ leased, l.user.id = u ∧ l.id = id)
    (hdelay : self'.expirationNotifyDelayTime = self.expirationNotifyDelayTime) :
    Released t self now leased self' w' where
  frees id := by
    rw [Tables.host_update (w := t.world) rfl hdb]
    refine Option.map_congr fun r hr => ?_
    obtain ⟨h, hh, rfl, rfl⟩ := (Tables.host_eq_some (w := t.world) rfl).mp hr
    have hsel : (HostWrite.freeHosts (leased.map (·.id))).sel h.id h.toHostRow =
        expired now h.toHostRow := by
      rw [Bool.eq_iff_iff, ← mem_ids_getLeasedUntilHosts hrun hh]
      exact decide_eq_true_iff
    rw [hsel]
    rfl
  rest := by
    rw [hdb]
    rfl
  settled := ⟨_, hdb⟩
  returns _ := mem_getLeasedUntilHosts hrun
  nodup := nodup_getLeasedUntilHosts hrun
  forgets := hforgets
  delay := hdelay

/-- What is forgotten are the pairs of the leases. -/
theorem mem_forget_usersHosts {sent : UserId → Option (List HostId)} {order : List Nat}
    {leased : List LeasedHost} {u : UserId} {id : HostId} :
    id ∈ ReleaseTimer.sentHostIds
        (ReleaseTimer.forget sent (arrange order (ReleaseTimer.usersHosts leased))) u ↔
      id ∈ ReleaseTimer.sentHostIds sent u ∧ ¬ ∃ l ∈ leased, l.user.id = u ∧ l.id = id := by
  rw [mem_forget, ← mem_usersHosts]
  refine and_congr_right fun _ => ?_
  constructor
  · intro hno hyp
    obtain ⟨ids, hids, hid⟩ := hyp
    exact hno (u, ids) (mem_arrange.mpr hids) rfl hid
  · intro hno x hx hu hid
    subst hu
    exact hno ⟨x.2, mem_arrange.mp hx, hid⟩

/-- What `release` has come to, by its log: a failure anywhere is one of the pass, and nothing is
    told before it is over. -/
def ReleaseRecord (t : Tables) (self : ReleaseTimer) (now : Time) (log : Log)
    (r : Exit AnyError (List LeasedHost × ReleaseTimer)) (w' : World) : Prop :=
  notices log = [] ∧
    ((∃ leased self', r = .ok (leased, self') ∧ log.any failed = false ∧
        Released t self now leased self' w') ∨
      ((∃ e, r = .err e) ∧ log.any failed = true ∧ w'.db = t.db))

/-- **A release pass** over settled tables. -/
theorem ReleaseTimer.records_release (self : ReleaseTimer) {now : Time} (hw : w.db = t.db)
    (hclock : s.clock = some now) :
    self.release.Records s p w (ReleaseRecord t self now) := by
  obtain ⟨db, n⟩ := w
  obtain rfl : db = t.db := hw
  have hview : t.db.view ⟨p, n⟩ = t.view := t.view_db _
  have hrollback : ∀ no, t.db.rollback ⟨p, no⟩ = t.db := fun _ => Tables.db_rollback
  refine Task.records_withTx ?_ fun _ => ⟨rfl, .inr ⟨⟨_, rfl⟩, rfl, rfl⟩⟩
  refine Task.records_bind (Task.records_utcNow fun now' hnow => ?_)
  obtain rfl : now' = now := hnow now hclock
  refine Task.records_bind (Task.records_mapErr (Task.records_fetch (fun order => ?_) fun _ =>
    ⟨rfl, .inr ⟨⟨_, rfl⟩, rfl, hrollback n⟩⟩))
  rw [hview]
  obtain ⟨leased, hrun⟩ := exists_getLeasedUntilHosts t order now'
  rw [hrun]
  dsimp only [Exit.ofExcept]
  have hx : t.Grantable (.freeHosts (leased.map (·.id))) := Tables.grantable_of_grantee rfl
  refine Task.records_ite (fun hempty => ?_) fun hempty => ?_
  · -- Nothing is over, and nothing is done.
    have hempty : leased = [] := hempty
    have hsame : t.update _ hx = t := by
      refine Tables.ext_hosts ?_ rfl rfl rfl rfl
      subst hempty
      exact (List.map_congr_left fun h _ => HostWrite.apply_of_not_sel _ rfl).trans (List.map_id' _)
    refine Task.records_pure ⟨rfl, .inl ⟨leased, self, rfl, rfl, ?_⟩⟩
    refine released_of_update hrun hx ((hrollback n).trans (by rw [hsame])) (fun u id => ?_) rfl
    simp [hempty]
  · obtain ⟨db₁, hupdate, -, hcommit, hback⟩ := Tables.execute_update (y := ⟨p, n⟩) hx
    refine Task.records_bind (Task.records_mapErr
      (Task.records_execute (fun uuid a db hexecute => ?_)
      fun _ => ⟨rfl, .inr ⟨⟨_, rfl⟩, rfl, hrollback n⟩⟩))
    obtain ⟨rfl, rfl⟩ := Prod.mk.inj (Option.some.inj (hexecute.symm.trans hupdate))
    dsimp only [Exit.ofExcept]
    refine Task.records_bind (Task.records_mapErr (Task.records_commit ?_ fun _ =>
      ⟨rfl, .inr ⟨⟨_, rfl⟩, rfl, ?_⟩⟩))
    · refine Task.records_bind (Task.records_hashOrder fun order' => Task.records_pure ?_)
      refine ⟨rfl, .inl ⟨leased, _, rfl, rfl, ?_⟩⟩
      refine released_of_update hrun hx ?_ (fun u id => mem_forget_usersHosts) rfl
      show (db.commit ⟨p, n⟩).rollback ⟨p, n⟩ = _
      rw [hcommit, Tables.db_rollback]
    · show (db.rollback ⟨p, n⟩).rollback ⟨p, n⟩ = _
      rw [hback, Tables.db_rollback]

/-! ## A pass and its report -/

/-- The database is all that `Released` looks at. -/
theorem Released.congr {now : Time} {leased : List LeasedHost} {self self' : ReleaseTimer}
    {w₁ w₂ : World} (h : Released t self now leased self' w₁) (hdb : w₂.db = w₁.db) :
    Released t self now leased self' w₂ where
  frees id := by
    rw [← h.frees id, World.host, hdb]
    rfl
  rest := by
    rw [hdb]
    exact h.rest
  settled := by
    rw [hdb]
    exact h.settled
  returns := h.returns
  nodup := h.nodup
  forgets := h.forgets
  delay := h.delay

/-- Nothing was released, and nothing is told. -/
theorem reports_nil : Reports [] [] :=
  ⟨List.nodup_nil, fun _ hl => absurd hl List.not_mem_nil, fun _ _ h => absurd h List.not_mem_nil⟩

/-- The first half of a turn, which has the exchanges `report` after those of its pass: the pass has
    released what was over, and the former holders are told if anybody can be; or the pass has
    failed, and the timer, the tables and the users know nothing of it. -/
def TurnRecord (t : Tables) (self : ReleaseTimer) (now : Time) (notifier : Option Notifier)
    (pass : Exit AnyError (List LeasedHost × ReleaseTimer)) (report : Log)
    (r : Exit AnyError ReleaseTimer) (w' : World) : Prop :=
  (∃ leased self', pass = .ok (leased, self') ∧ r = .ok self' ∧
    Released t self now leased self' w' ∧
      if notifier.isSome then Reports leased (notices report) else notices report = []) ∨
    ((∃ e, pass = .err e) ∧ r = .ok self ∧ w'.db = t.db ∧ report = [])

/-- The report after a pass that succeeded. -/
theorem ReleaseTimer.records_report {self self' : ReleaseTimer} {now : Time}
    {leased : List LeasedHost} (h : Released t self now leased self' w) (notifier : Notifier) :
    (notifyReleasedHosts notifier leased).Records s p w fun log r w' =>
      r = .ok () ∧ w'.db = w.db ∧ Reports leased (notices log) := by
  obtain ⟨t', hw⟩ := h.settled
  rw [hw]
  exact records_notifyReleasedHosts notifier hw h.nodup

theorem ReleaseTimer.records_releaseAndReport (self : ReleaseTimer) {now : Time} (hw : w.db = t.db)
    (hclock : s.clock = some now) (notifier : Option Notifier) :
    (self.releaseAndReport notifier).Records s p w fun log r w' => ∃ own report pass w₁,
      log = own ++ report ∧ Prog.Logs (actIn s) p self.release w own pass w₁ ∧
        TurnRecord t self now notifier pass report r w' := by
  have hrelease : self.release.Records s p w fun own pass w₁ =>
      ReleaseRecord t self now own pass w₁ ∧ Prog.Logs (actIn s) p self.release w own pass w₁ :=
    fun own pass w₁ hlogs => ⟨self.records_release hw hclock own pass w₁ hlogs, hlogs⟩
  refine Task.records_bind (Task.records_attempt (hrelease.mono ?_))
  intro own pass w₁ hown
  obtain ⟨⟨-, ⟨leased, self', rfl, -, hreleased⟩ | ⟨⟨e, rfl⟩, -, hdb⟩⟩, hlogs⟩ := hown
  · refine Task.records_ite (fun hempty => ?_) fun hne => ?_
    · refine Task.records_pure ⟨own, [], _, w₁, rfl, hlogs,
        .inl ⟨leased, self', rfl, rfl, hreleased, ?_⟩⟩
      -- A report of nothing tells nobody.
      cases notifier with
      | none => rfl
      | some notifier => exact hempty ▸ reports_nil
    · cases notifier with
      | none =>
        exact Task.records_pure
          ⟨own, [], _, w₁, rfl, hlogs, .inl ⟨leased, self', rfl, rfl, hreleased, rfl⟩⟩
      | some notifier =>
        refine Task.records_bind (Task.records_attempt
          ((records_report hreleased notifier).mono ?_))
        intro report r' w₂ hreport
        obtain ⟨rfl, hdb, hreports⟩ := hreport
        refine Task.records_pure ⟨own, report, _, w₁, by rw [List.append_nil], hlogs, ?_⟩
        exact .inl ⟨leased, self', rfl, rfl, hreleased.congr hdb, hreports⟩
  · exact Task.records_pure ⟨own, [], _, w₁, rfl, hlogs, .inr ⟨⟨e, rfl⟩, rfl, hdb, rfl⟩⟩

/-- **A release pass frees, reports and forgets the same hosts**: on any settled tables, with any
    map, at any time, nobody else running, whatever fails and whichever way a hash map is
    iterated. -/
theorem releasePass_exact (t : Tables) (self : ReleaseTimer) (now : Time) (p : Pid) (n : Nat) :
    self.release.Records (.at now) p ⟨t.db, n⟩ (fun log r w' =>
      ReleaseRecord t self now log r w' ∧
        ∀ leased self' notifier, r = .ok (leased, self') →
          (ReleaseTimer.notifyReleasedHosts notifier leased).Records (.at now) p w' fun log r w'' =>
            r = .ok () ∧ w''.db = w'.db ∧ Reports leased (notices log)) ∧
      ∀ notifier, (self.releaseAndReport notifier).Records (.at now) p ⟨t.db, n⟩ fun log r w' =>
        ∃ own report pass w₁, log = own ++ report ∧
          Prog.Logs (actIn (.at now)) p self.release ⟨t.db, n⟩ own pass w₁ ∧
          TurnRecord t self now notifier pass report r w' := by
  constructor
  · refine (self.records_release rfl rfl).mono fun log r w' hrecord => ⟨hrecord, ?_⟩
    intro leased self' notifier hr
    obtain ⟨-, ⟨leased', self'', hr', -, hreleased⟩ | ⟨⟨e, hr'⟩, -⟩⟩ := hrecord
    · cases hr.symm.trans hr'
      exact ReleaseTimer.records_report hreleased notifier
    · cases hr.symm.trans hr'
  · exact fun notifier => self.records_releaseAndReport rfl rfl notifier

end Tachikoma
