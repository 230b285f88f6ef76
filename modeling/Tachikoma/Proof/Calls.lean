import Tachikoma.Proof.Tasks

/-!
# What the calls write

For every function of the source, that it is one transaction (or several, one after the other) and
which statements it can write with, whatever it reads. `Call.emits` and `Call.sketch_clean` sum this
up for the machine: a proof that only has to know which updates exist starts from these two.
-/

set_option autoImplicit false

namespace Tachikoma

open Interleaving Versioned Unordered

variable {ε α : Type} {Cond : History → Ev → Prop} {p : Pid} {n : Nat}

section Emits

variable {tx : RegistryTx} {W : Write → Prop}

@[simp] theorem writesIn_execute {tx' : RegistryTx} {x : Write} :
    WritesIn tx W (.execute tx' x) ↔ tx' = tx ∧ W x := by
  constructor
  · intro h; exact h tx' x rfl
  · rintro h _ _ he; cases he; exact h

theorem writesIn_of_not_execute {e : Effect} (h : ∀ tx x, e ≠ .execute tx x) : WritesIn tx W e :=
  fun tx' x he => absurd he (h tx' x)

theorem emits_fetch_in {tx' : RegistryTx} {q : Select} :
    Prog.Emits (WritesIn tx W) (tx'.fetch q) :=
  Task.emits_fetch (writesIn_of_not_execute (by simp))

theorem emits_commit_in {tx' : RegistryTx} : Prog.Emits (WritesIn tx W) tx'.commit :=
  Task.emits_commit (writesIn_of_not_execute (by simp))

theorem emits_execute_in {x : Write} (h : W x) : Prog.Emits (WritesIn tx W) (tx.execute x) :=
  Task.emits_execute (writesIn_execute.mpr ⟨rfl, h⟩)

theorem emits_utcNow_in : Prog.Emits (WritesIn tx W) (utcNow : Task ε Time) :=
  Task.emits_utcNow (writesIn_of_not_execute (by simp))

theorem emits_hashOrder_in : Prog.Emits (WritesIn tx W) (hashOrder : Task ε (List Nat)) :=
  Task.emits_hashOrder (writesIn_of_not_execute (by simp))

end Emits

namespace HostsService

theorem emits_getLeaseLimit (self : HostsService) {tx : RegistryTx} {W : Write → Prop}
    (groups : List String) : Prog.Emits (WritesIn tx W) (self.getLeaseLimit tx groups) := by
  refine Task.emits_bind emits_fetch_in fun limits => ?_
  split
  · exact Task.emits_pure _
  · exact Task.emits_panic _

theorem lease_transaction (self : HostsService) (userId : UserId) (userGroups : List String)
    (hostsIds : List HostId) (leaseFor : TimeDelta) :
    Transaction (fun x => ∃ t, x = .hosts (.leaseHosts userId hostsIds t))
      (self.lease userId userGroups hostsIds leaseFor) := by
  refine ⟨_, _, rfl, fun tx => ?_⟩
  refine Task.emits_bind (Task.emits_mapErr emits_fetch_in) fun leased => ?_
  dsimp only
  split
  · exact Task.emits_bind emits_hashOrder_in fun _ => Task.emits_throw _
  · refine Task.emits_bind (Task.emits_mapErr (self.emits_getLeaseLimit _)) fun limit => ?_
    split
    · exact Task.emits_throw _
    · refine Task.emits_bind emits_utcNow_in fun now => ?_
      refine Task.emits_bind (Task.emits_addTimeDelta _ _) fun untill => ?_
      refine Task.emits_bind (Task.emits_mapErr (emits_execute_in ⟨_, rfl⟩)) fun _ => ?_
      refine Task.emits_bind (Task.emits_mapErr emits_fetch_in) fun _ => ?_
      exact Task.emits_bind (Task.emits_mapErr emits_commit_in) fun _ => Task.emits_pure _

theorem free_transaction (userId : UserId) (hostsIds : List HostId) :
    Transaction (fun x => x = .hosts (.freeHostsForUser hostsIds userId)) (free userId hostsIds) :=
  ⟨_, _, rfl, fun _ => Task.emits_bind (Task.emits_mapErr (emits_execute_in rfl)) fun _ =>
    Task.emits_mapErr emits_commit_in⟩

theorem freeAll_transaction (userId : UserId) :
    Transaction (fun x => x = .hosts (.freeAll userId)) (freeAll userId) :=
  ⟨_, _, rfl, fun _ => Task.emits_bind (Task.emits_mapErr (emits_execute_in rfl)) fun _ =>
    Task.emits_mapErr emits_commit_in⟩

theorem leaseRandom_transaction (self : HostsService) (userId : UserId) (userGroups : List String)
    (leaseFor : TimeDelta) (groupId : GroupId) :
    Transaction (fun x => ∃ id t, x = .hosts (.leaseHosts userId [id] t))
      (self.leaseRandom userId userGroups leaseFor groupId) := by
  refine ⟨_, _, rfl, fun tx => ?_⟩
  refine Task.emits_bind (Task.emits_mapErr (self.emits_getLeaseLimit _)) fun limit => ?_
  refine Task.emits_bind (Task.emits_mapErr emits_fetch_in) fun leased => ?_
  split
  · exact Task.emits_throw _
  · refine Task.emits_bind (Task.emits_mapErr emits_fetch_in) fun host => ?_
    split
    · refine Task.emits_bind emits_utcNow_in fun now => ?_
      refine Task.emits_bind (Task.emits_addTimeDelta _ _) fun untill => ?_
      refine Task.emits_bind (Task.emits_mapErr (emits_execute_in ⟨_, _, rfl⟩)) fun _ => ?_
      refine Task.emits_bind (Task.emits_mapErr emits_fetch_in) fun _ => ?_
      exact Task.emits_bind (Task.emits_mapErr emits_commit_in) fun _ => Task.emits_pure _
    · exact Task.emits_throw _

end HostsService

theorem emits_updatedLines {tx : RegistryTx} {W : Write → Prop} (hosts : List Host) (idx : Nat) :
    Prog.Emits (WritesIn tx W) (updatedLines idx hosts) := by
  induction hosts generalizing idx with
  | nil => exact Task.emits_pure _
  | cons host hosts ih =>
    rw [updatedLines]
    split
    · exact Task.emits_bind (ih _) fun _ => Task.emits_pure _
    · exact Task.emits_bind emits_utcNow_in fun _ =>
        Task.emits_bind (ih _) fun _ => Task.emits_pure _

theorem extendUserHosts_transaction (tgHandle : String) (hours : Int32) :
    Transaction (fun x => ∃ ids, x = .hosts (.extendHostsLease ids hours))
      (extendUserHosts tgHandle hours) := by
  refine ⟨_, _, rfl, fun tx => ?_⟩
  refine Task.emits_bind (Task.emits_mapErr emits_fetch_in) fun user => ?_
  split
  · exact Task.emits_throw _
  · refine Task.emits_bind emits_utcNow_in fun now => ?_
    refine Task.emits_bind (Task.emits_mapErr emits_fetch_in) fun hosts => ?_
    split
    · exact Task.emits_pure _
    · refine Task.emits_bind (Task.emits_mapErr (emits_execute_in ⟨_, rfl⟩)) fun _ => ?_
      refine Task.emits_bind (Task.emits_mapErr emits_fetch_in) fun _ => ?_
      refine Task.emits_bind (Task.emits_mapErr emits_commit_in) fun _ => ?_
      exact Task.emits_bind (emits_updatedLines _ _) fun _ => Task.emits_pure _

theorem UsersService.linkUser_transaction (link tgUserId : String) :
    Transaction (fun x => ∃ u, x = .setUserTgHandle u tgUserId)
      (UsersService.linkUser link tgUserId) := by
  refine ⟨_, _, rfl, fun tx => ?_⟩
  refine Task.emits_bind (Task.emits_mapErr emits_fetch_in) fun user => ?_
  split
  · refine Task.emits_bind (Task.emits_mapErr (emits_execute_in ⟨_, rfl⟩)) fun _ => ?_
    refine Task.emits_bind (Task.emits_mapErr emits_fetch_in) fun user => ?_
    split
    · exact Task.emits_panic _
    · exact Task.emits_bind (Task.emits_mapErr emits_commit_in) fun _ => Task.emits_pure _
  · exact Task.emits_pure _

namespace Notifier

theorem emits_expiringLines {tx : RegistryTx} {W : Write → Prop} (hosts : List Host) (idx : Nat) :
    Prog.Emits (WritesIn tx W) (expiringLines idx hosts) := by
  induction hosts generalizing idx with
  | nil => exact Task.emits_pure _
  | cons host hosts ih =>
    rw [expiringLines]
    split
    · exact Task.emits_panic _
    · exact Task.emits_bind emits_utcNow_in fun _ =>
        Task.emits_bind (ih _) fun _ => Task.emits_pure _

theorem emits_sendMessage {tx : RegistryTx} {W : Write → Prop} (sender : MsgSender)
    (msg : Message) : Prog.Emits (WritesIn tx W) (sendMessage sender msg) :=
  ⟨writesIn_of_not_execute (by simp), fun r => by cases r <;> trivial⟩

/-- A notification writes nothing, so it may be made in the middle of another transaction. -/
theorem emits_notify (self : Notifier) {tx : RegistryTx} {W : Write → Prop} (userId : UserId)
    (notification : Notification) :
    Prog.Emits (WritesIn tx W) (self.notify userId notification) := by
  refine ⟨writesIn_of_not_execute (by simp), fun _ => ?_⟩
  refine Task.emits_withTx (writesIn_of_not_execute (by simp))
    (fun _ => writesIn_of_not_execute (by simp)) fun tx' => ?_
  refine Task.emits_bind (Task.emits_mapErr emits_fetch_in) fun user => ?_
  split
  · exact Task.emits_throw _
  · split
    · exact Task.emits_throw _
    · split
      · split
        · exact Task.emits_pure _
        · exact Task.emits_bind (Task.emits_mapErr emits_fetch_in) fun _ => emits_sendMessage _ _
      · split
        · exact Task.emits_pure _
        · refine Task.emits_bind (Task.emits_mapErr emits_fetch_in) fun hosts => ?_
          exact Task.emits_bind (emits_expiringLines _ _) fun _ => emits_sendMessage _ _

end Notifier

namespace ReleaseTimer

theorem release_transaction (self : ReleaseTimer) :
    Transaction (fun x => ∃ ids, x = .hosts (.freeHosts ids)) self.release := by
  refine ⟨_, _, rfl, fun tx => ?_⟩
  refine Task.emits_bind emits_utcNow_in fun now => ?_
  refine Task.emits_bind (Task.emits_mapErr emits_fetch_in) fun expired => ?_
  split
  · exact Task.emits_pure _
  · refine Task.emits_bind (Task.emits_mapErr (emits_execute_in ⟨_, rfl⟩)) fun _ => ?_
    refine Task.emits_bind (Task.emits_mapErr emits_commit_in) fun _ => ?_
    exact Task.emits_bind emits_hashOrder_in fun _ => Task.emits_pure _

theorem emits_notifySoon {tx : RegistryTx} {W : Write → Prop} (notifier : Notifier)
    (expiring : List (UserId × List HostId)) (sent : UserId → Option (List HostId)) :
    Prog.Emits (WritesIn tx W) (notifySoon notifier sent expiring) := by
  induction expiring generalizing sent with
  | nil => exact Task.emits_pure _
  | cons x rest ih =>
    refine Task.emits_bind emits_hashOrder_in fun order => ?_
    dsimp only
    split
    · exact ih _
    · refine Task.emits_bind (Task.emits_attempt (notifier.emits_notify _ _)) fun r => ?_
      split
      · exact ih _
      · exact ih _

theorem notifySoonRelease_transaction (self : ReleaseTimer) (notifier : Notifier) :
    Transaction (fun _ => False) (self.notifySoonRelease notifier) := by
  refine ⟨_, _, rfl, fun tx => ?_⟩
  refine Task.emits_bind emits_utcNow_in fun now => ?_
  refine Task.emits_bind (Task.emits_mapErr emits_fetch_in) fun expiring => ?_
  refine Task.emits_bind emits_hashOrder_in fun order => ?_
  exact Task.emits_bind (emits_notifySoon _ _ _) fun _ => Task.emits_pure _

theorem emits_notifyReleased {tx : RegistryTx} {W : Write → Prop} (notifier : Notifier)
    (released : List (UserId × List HostId)) :
    Prog.Emits (WritesIn tx W) (notifyReleased notifier released) := by
  induction released with
  | nil => exact Task.emits_pure _
  | cons x rest ih =>
    exact Task.emits_bind (Task.emits_attempt (notifier.emits_notify _ _)) fun _ => ih

theorem emits_notifyReleasedHosts {tx : RegistryTx} {W : Write → Prop} (notifier : Notifier)
    (released : List LeasedHost) :
    Prog.Emits (WritesIn tx W) (notifyReleasedHosts notifier released) :=
  Task.emits_bind emits_hashOrder_in fun _ => emits_notifyReleased _ _

end ReleaseTimer

/-! ## Logging in: several transactions, one after the other -/

theorem emits_findUserInfo {tx : RegistryTx} {W : Write → Prop} (loginOrMail : String) :
    Prog.Emits (WritesIn tx W) (UsersInfo.findUserInfo loginOrMail) :=
  ⟨writesIn_of_not_execute (by simp), fun r => by cases r <;> trivial⟩

theorem emits_checkAuthentication {tx : RegistryTx} {W : Write → Prop} (userDn password : String) :
    Prog.Emits (WritesIn tx W) (UsersInfo.checkAuthentication userDn password) := by
  unfold UsersInfo.checkAuthentication
  split
  · exact Task.emits_throw _
  · exact ⟨writesIn_of_not_execute (by simp), fun r => by cases r <;> trivial⟩

theorem sketch_clean_bind {β : Type} {x : Task ε α} {f : α → Task ε β}
    (hx : machine.Sketch Cond (fun _ => True) p n (fun _ h => Clean p h.state) x
      fun h => Clean p h.state)
    (hf : ∀ a, machine.Sketch Cond (fun _ => True) p n (fun _ h => Clean p h.state) (f a)
      fun h => Clean p h.state) :
    machine.Sketch Cond (fun _ => True) p n (fun _ h => Clean p h.state) (x >>= f : Task ε β)
      fun h => Clean p h.state := by
  refine Machine.Sketch.bind hx fun r => ?_
  cases r with
  | ok a => exact hf a
  | err e => exact fun _ _ h => h
  | panic msg => exact fun _ _ h => h

/-- The transaction in which a first login stores the user. -/
theorem addUser_transaction (dn email : String) :
    Transaction (fun x => ∃ dn email, x = .addUser dn none email)
      (withTx AuthError.dbError fun tx => do
        let _ ← (tx.addUser dn none email).mapErr .dbError
        let user ← (tx.getUserByDn dn).mapErr .dbError
        tx.commit.mapErr .dbError
        match user with
        | none => Task.panic "called `Option::unwrap()` on a `None` value"
        | some user => return user) := by
  refine ⟨_, _, rfl, fun tx => ?_⟩
  refine Task.emits_bind (Task.emits_mapErr (emits_execute_in ⟨_, _, rfl⟩)) fun _ => ?_
  refine Task.emits_bind (Task.emits_mapErr emits_fetch_in) fun user => ?_
  refine Task.emits_bind (Task.emits_mapErr emits_commit_in) fun _ => ?_
  split
  · exact Task.emits_panic _
  · exact Task.emits_pure _

theorem getUserByDn_transaction (dn : String) :
    Transaction (fun _ => False)
      (withTx AuthError.dbError fun tx => (tx.getUserByDn dn).mapErr .dbError) :=
  ⟨_, _, rfl, fun _ => Task.emits_mapErr emits_fetch_in⟩

/-! ## All calls -/

/-- What a call may write. -/
def Call.writes : Call → Write → Prop
  | .lease _ userId _ hostsIds _, x => ∃ t, x = .hosts (.leaseHosts userId hostsIds t)
  | .leaseRandom _ userId _ _ _, x => ∃ id t, x = .hosts (.leaseHosts userId [id] t)
  | .free userId hostsIds, x => x = .hosts (.freeHostsForUser hostsIds userId)
  | .freeAll userId, x => x = .hosts (.freeAll userId)
  | .extendUserHosts _ hours, x => ∃ ids, x = .hosts (.extendHostsLease ids hours)
  | .linkUser _ tgUserId, x => ∃ u, x = .setUserTgHandle u tgUserId
  | .authenticate _ _, x => ∃ dn email, x = .addUser dn none email
  | .release, x => ∃ ids, x = .hosts (.freeHosts ids)
  | .notifyReleasedHosts _ _, _ => False
  | .notifySoonRelease _, _ => False

theorem Call.body_cases (κ : Call) (l : Local) :
    κ.body l = .ret .crashed ∨ κ.body l = κ.program l.releaseTimer := by
  cases l with
  | crashed => exact .inl rfl
  | _ => exact .inr rfl

theorem writes_of_scope {tx : RegistryTx} {W : Write → Prop} {x : Prog Effect Effect.Res α}
    (h : x.Emits (WritesIn tx W)) : x.Emits (Writes W) :=
  h.mono fun _ he tx' y hy => (he tx' y hy).2

/-- What writes in no transaction in particular does not write. -/
theorem writes_of_writesIn {W : Write → Prop} {x : Prog Effect Effect.Res α}
    (h : ∀ {tx}, x.Emits (WritesIn tx W)) : x.Emits (Writes W) :=
  writes_of_scope (@h ⟨0⟩)

theorem Transaction.mono {W W' : Write → Prop} {x : Task ε α} (h : Transaction W x)
    (hW : ∀ y, W y → W' y) : Transaction W' x := by
  obtain ⟨f, scope, rfl, hscope⟩ := h
  exact ⟨f, scope, rfl, fun tx => (hscope tx).mono fun _ he tx' y hy =>
    ⟨(he tx' y hy).1, hW y (he tx' y hy).2⟩⟩

theorem emits_authenticate (username password : String) :
    Prog.Emits (Writes fun x => ∃ dn email, x = .addUser dn none email)
      (authenticate username password) := by
  refine Task.emits_bind (Task.emits_mapErr (writes_of_writesIn (emits_findUserInfo _))) ?_
  intro info
  split
  · exact Task.emits_pure _
  · rename_i uInfo
    refine Task.emits_bind
      (Task.emits_attempt (writes_of_writesIn (emits_checkAuthentication _ _))) fun r => ?_
    split
    · exact Task.emits_pure _
    · refine Task.emits_bind
        ((getUserByDn_transaction uInfo.dn).mono fun _ => False.elim).emits fun user => ?_
      split
      · exact Task.emits_pure _
      · exact Task.emits_bind (addUser_transaction uInfo.dn uInfo.email).emits fun _ =>
          Task.emits_pure _

theorem sketch_clean_authenticate (username password : String) :
    machine.Sketch Cond (fun _ => True) p n (fun _ h => Clean p h.state)
      (authenticate username password) fun h => Clean p h.state := by
  refine sketch_clean_bind (sketch_clean_of_silent
    (Task.emits_mapErr (writes_of_writesIn (emits_findUserInfo _)))) fun info => ?_
  split
  · exact fun _ _ h => h
  · rename_i uInfo
    refine sketch_clean_bind (sketch_clean_of_silent (Task.emits_attempt
      (writes_of_writesIn (emits_checkAuthentication _ _)))) fun r => ?_
    split
    · exact fun _ _ h => h
    · refine sketch_clean_bind (getUserByDn_transaction uInfo.dn).sketch_clean fun user => ?_
      split
      · exact fun _ _ h => h
      · exact sketch_clean_bind (addUser_transaction uInfo.dn uInfo.email).sketch_clean fun _ =>
          fun _ _ h => h

theorem Call.emits (κ : Call) (l : Local) : (κ.body l).Emits (Writes κ.writes) := by
  rcases κ.body_cases l with h | h
  · rw [h]; trivial
  · rw [h]
    cases κ with
    | lease => exact .bind (HostsService.lease_transaction _ _ _ _ _).emits fun _ => trivial
    | leaseRandom =>
      exact .bind (HostsService.leaseRandom_transaction _ _ _ _ _).emits fun _ => trivial
    | free => exact .bind (HostsService.free_transaction _ _).emits fun _ => trivial
    | freeAll => exact .bind (HostsService.freeAll_transaction _).emits fun _ => trivial
    | extendUserHosts => exact .bind (extendUserHosts_transaction _ _).emits fun _ => trivial
    | linkUser => exact .bind (UsersService.linkUser_transaction _ _).emits fun _ => trivial
    | authenticate => exact .bind (emits_authenticate _ _) fun _ => trivial
    | release => exact .bind (ReleaseTimer.release_transaction _).emits fun _ => trivial
    | notifyReleasedHosts =>
      exact .bind (writes_of_writesIn (ReleaseTimer.emits_notifyReleasedHosts _ _)) fun _ => trivial
    | notifySoonRelease =>
      exact .bind (ReleaseTimer.notifySoonRelease_transaction _ _).emits fun _ => trivial

/-- Between its calls a task has nothing pending. -/
theorem Call.sketch_clean (κ : Call) (l : Local) :
    machine.Sketch Cond (fun _ => True) p n (fun _ h => Clean p h.state) (κ.body l)
      fun h => Clean p h.state := by
  have hret : ∀ l' : Local, machine.Sketch Cond (fun _ => True) p n (fun _ h => Clean p h.state)
      (.ret l' : Prog Effect Effect.Res Local) fun h => Clean p h.state := fun _ _ _ h => h
  rcases κ.body_cases l with h | h
  · rw [h]; exact hret _
  · rw [h]
    cases κ with
    | lease => exact .bind (HostsService.lease_transaction _ _ _ _ _).sketch_clean fun _ => hret _
    | leaseRandom =>
      exact .bind (HostsService.leaseRandom_transaction _ _ _ _ _).sketch_clean fun _ => hret _
    | free => exact .bind (HostsService.free_transaction _ _).sketch_clean fun _ => hret _
    | freeAll => exact .bind (HostsService.freeAll_transaction _).sketch_clean fun _ => hret _
    | extendUserHosts => exact .bind (extendUserHosts_transaction _ _).sketch_clean fun _ => hret _
    | linkUser => exact .bind (UsersService.linkUser_transaction _ _).sketch_clean fun _ => hret _
    | authenticate => exact .bind (sketch_clean_authenticate _ _) fun _ => hret _
    | release => exact .bind (ReleaseTimer.release_transaction _).sketch_clean fun _ => hret _
    | notifyReleasedHosts =>
      exact .bind (sketch_clean_of_silent
        (writes_of_writesIn (ReleaseTimer.emits_notifyReleasedHosts _ _))) fun _ => hret _
    | notifySoonRelease =>
      exact .bind (ReleaseTimer.notifySoonRelease_transaction _ _).sketch_clean fun _ => hret _

/-! ## Runs -/

namespace Tables

variable (t : Tables)

theorem hosts_holds (P : TxId → HostId → Option HostRow → Prop) : t.db.hosts.Holds P :=
  Table.ofRows_holds P _ t.hosts_rows_nodup

theorem users_holds (P : TxId → UserId → Option UserRow → Prop) : t.db.users.Holds P :=
  Table.ofRows_holds P _ t.users_rows_nodup

theorem world_host {id : HostId} {r : HostRow} :
    t.world.host id = some r ↔ ∃ x ∈ t.hosts, x.id = id ∧ x.toHostRow = r := by
  have h : t.world.host id = some r ↔ (id, r) ∈ t.hosts.map fun h => (h.id, h.toHostRow) :=
    Table.ofRows_committed (h := t.hosts_rows_nodup)
  simp only [h, List.mem_map, Prod.mk.injEq]

theorem world_user {id : UserId} {r : UserRow} :
    t.world.user id = some r ↔ ∃ x ∈ t.users, x.id = id ∧ x.toUserRow = r := by
  have h : t.world.user id = some r ↔ (id, r) ∈ t.users.map fun u => (u.id, u.toUserRow) :=
    Table.ofRows_committed (h := t.users_rows_nodup)
  simp only [h, List.mem_map, Prod.mk.injEq]

theorem hosts_everywhere {Q : HostId → HostRow → Prop} (h : ∀ x ∈ t.hosts, Q x.id x.toHostRow) :
    t.db.hosts.Everywhere Q := by
  refine ⟨fun k r hr => ?_, t.hosts_holds _⟩
  obtain ⟨x, hx, rfl, rfl⟩ := t.world_host.mp hr
  exact h x hx

theorem world_clean (p : Pid) : Clean p t.world := ⟨t.hosts_holds _, t.users_holds _⟩

theorem systemWith_idle (timer : ReleaseTimer) (p : Pid) :
    ∃ l, ((t.systemWith timer).threads p).prog = .ret l := by
  cases p with
  | timer => exact ⟨_, rfl⟩
  | task n => exact ⟨_, rfl⟩

end Tables

/-- What holds of every world and is kept by the effects of the calls of a run holds in the run. -/
theorem run_of_acts {ok : Pid → Call → Prop} (Inv : World → Prop) {c₀ c : System}
    (hacts : ∀ p κ w e r w', ok p κ → Writes κ.writes e → Acts p w e r w' → Inv w → Inv w')
    (hidle : ∀ p, ∃ l, (c₀.threads p).prog = .ret l) (hnum : Machine.Numbered c₀)
    (h₀ : Inv c₀.hist.state)
    (hrun : machine.Run (Machine.Calling ok) c₀ c) : Inv c.hist.state := by
  refine (Machine.Run.sound (fun h : History => Inv h.state) (fun _ _ _ _ => True) hrun hnum h₀
    ?_ ?_).1
  · intro p
    obtain ⟨l, hl⟩ := hidle p
    exact ⟨fun _ => True, .true, trivial, by rw [hl]; exact fun _ _ _ => trivial⟩
  · intro p n κ l h _ hI _ hok
    refine ⟨hI, fun _ => True, .true, trivial, ?_⟩
    exact Machine.Sketch.keep (κ.emits l) .true fun h e env r w' he hI _ ha _ =>
      ⟨hacts p κ h.state e r w' hok he (acts_of_act ha) hI, trivial⟩

/-- The same for what may be said about the past: every call has a sketch, which starts from what
    the idle task promises and from a clean slate. -/
theorem run_sound {ok : Pid → Call → Prop} (Inv : History → Prop)
    (Post : Pid → Nat → Local → History → Prop)
    (hcond : ∀ h ev, Cond h ev → Machine.Calling ok h ev) {t : Tables} {timer : ReleaseTimer}
    {c : System} (h₀ : Inv ⟨t.world, []⟩)
    (hidle : ∀ p l, ((t.systemWith timer).threads p).prog = .ret l → Post p 0 l ⟨t.world, []⟩)
    (hstable : ∀ p n l, machine.Stable Cond Inv p (Post p n l))
    (hcalled : ∀ h p n κ, (∀ ev ∈ h.trace, ev.pid = p → ev.calls ≤ n) → Inv h →
      Inv (h.push (.called p (n + 1) κ)))
    (hsketch : ∀ p n κ l, ok p κ → ∃ A, machine.Stable Cond Inv p A ∧
      (∀ h, (∀ ev ∈ h.trace, ev.pid = p → ev.calls ≤ n) → Inv h → Post p n l h →
        Clean p h.state → A (h.push (.called p (n + 1) κ))) ∧
      machine.Sketch Cond Inv p (n + 1) (Post p (n + 1)) (κ.body l) A)
    (hrun : machine.Run Cond (t.systemWith timer) c) :
    Inv c.hist ∧ ∀ p l, (c.threads p).prog = .ret l → Post p (c.threads p).calls l c.hist := by
  -- An idle task has a clean slate as well, so that is part of what it promises.
  have hsound := Machine.Run.sound Inv (fun p n l h => Clean p h.state ∧ Post p n l h) hrun
    (fun _ hev => absurd hev List.not_mem_nil) h₀ ?_ ?_
  · exact ⟨hsound.1, fun p l hp => (hsound.2.idle hsound.1 hp).2⟩
  · intro p
    obtain ⟨l, hl⟩ := t.systemWith_idle timer p
    have hzero : ((t.systemWith timer).threads p).calls = 0 := by cases p <;> rfl
    refine ⟨fun h => Clean p h.state ∧ Post p 0 l h, stable_clean.and (hstable p 0 l),
      ⟨t.world_clean p, hidle p l hl⟩, ?_⟩
    rw [hl, hzero]
    exact fun _ _ h => h
  · intro p n κ l h hpast hI hpost hc
    obtain ⟨A, hst, hA, hsk⟩ := hsketch p n κ l (hcond _ _ hc)
    exact ⟨hcalled h p n κ hpast hI, fun h => Clean p h.state ∧ A h, stable_clean.and hst,
      ⟨hpost.1, hA h hpast hI hpost.2 hpost.1⟩, (κ.sketch_clean l).and hsk⟩

theorem run_of_sketches {ok : Pid → Call → Prop} (Inv : History → Prop)
    (hcond : ∀ h ev, Cond h ev → Machine.Calling ok h ev) {t : Tables} {timer : ReleaseTimer}
    {c : System} (h₀ : Inv ⟨t.world, []⟩)
    (hcalled : ∀ h p n κ, Inv h → Inv (h.push (.called p n κ)))
    (hsketch : ∀ p n κ l, ok p κ →
      machine.Sketch Cond Inv p n (fun _ _ => True) (κ.body l) fun h => Clean p h.state)
    (hrun : machine.Run Cond (t.systemWith timer) c) : Inv c.hist :=
  (run_sound Inv (fun _ _ _ _ => True) hcond h₀ (fun _ _ _ => trivial) (fun _ _ _ => .true)
    (fun h p n κ _ => hcalled h p (n + 1) κ)
    (fun p n κ l hok => ⟨fun h => Clean p h.state, stable_clean, fun _ _ _ _ hc => hc,
      hsketch p (n + 1) κ l hok⟩) hrun).1

/-- **What the timer promises between its passes**, when the other tasks need to keep no more than
    the invariant. -/
theorem timer_sound (Inv : History → Prop) (Post : Local → History → Prop)
    (hcond : ∀ h ev, Cond h ev → Machine.Calling proper h ev) {t : Tables} {timer : ReleaseTimer}
    {c : System} (h₀ : Inv ⟨t.world, []⟩) (hidle : Post (.timer timer) ⟨t.world, []⟩)
    (hstable : ∀ l, machine.Stable Cond Inv .timer (Post l))
    (hcalled : ∀ h p n κ, Inv h → Inv (h.push (.called p n κ)))
    (htask : ∀ h i n e (r : e.Res) w', Inv h → Inv (h.push (.did (.task i) n e r h.state w')))
    (hsketch : ∀ n κ l, κ.isPass = true → ∃ A, machine.Stable Cond Inv .timer A ∧
      (∀ h, Inv h → Post l h → Clean .timer h.state → A (h.push (.called .timer n κ))) ∧
      machine.Sketch Cond Inv .timer n Post (κ.body l) A)
    (hrun : machine.Run Cond (t.systemWith timer) c) :
    Inv c.hist ∧ ∀ l, (c.threads .timer).prog = .ret l → Post l c.hist := by
  have hsound := run_sound Inv (fun p _ l h => p = .timer → Post l h) hcond h₀ ?_ ?_
    (fun h p n κ _ hI => hcalled h p (n + 1) κ hI) ?_ hrun
  · exact ⟨hsound.1, fun l hl => hsound.2 .timer l hl rfl⟩
  · intro p l hl hp
    subst hp
    cases hl
    exact hidle
  · intro p n l h ev hI hA hne hl hc hp
    subst hp
    exact hstable l h ev hI (hA rfl) hne hl hc
  · intro p n κ l hok
    -- What a task does has been dealt with; of it nothing is asked but the invariant.
    cases p with
    | task i =>
      refine ⟨fun _ => True, .true, fun _ _ _ _ _ => trivial, ?_⟩
      exact (Machine.Sketch.keep (κ.emits l) .true fun h e env r w' _ hI _ _ _ =>
        ⟨htask h i _ e r w' hI, trivial⟩).post fun l h _ _ hp => absurd hp Pid.noConfusion
    | timer =>
      obtain ⟨A, hA, hstart, hsk⟩ := hsketch (n + 1) κ l hok
      exact ⟨A, hA, fun h _ hI hpost hclean => hstart h hI (hpost rfl) hclean,
        hsk.post fun _ _ _ hpost _ => hpost⟩

/-! ## What the effects of a call do -/

/-- The `n`-th call of `p` is `κ`, and no other. -/
structure CallIs (p : Pid) (n : Nat) (κ : Call) (h : History) : Prop where
  called : Event.called p n κ ∈ h.trace
  only : ∀ κ', Event.called p n κ' ∈ h.trace → κ' = κ

theorem CallIs.stable {Inv : History → Prop} {κ : Call} :
    machine.Stable Cond Inv p (CallIs p n κ) := by
  intro h ev _ hA hne _ _
  refine ⟨by rw [Hist.push_trace]; exact List.mem_cons_of_mem _ hA.called, fun κ' hκ' => ?_⟩
  rw [Hist.push_trace] at hκ'
  rcases List.mem_cons.mp hκ' with rfl | hκ'
  · exact absurd rfl hne
  · exact hA.only κ' hκ'

/-- A task numbers its calls. -/
theorem callIs_of_called {h : History} (hpast : ∀ ev ∈ h.trace, ev.pid = p → ev.calls ≤ n)
    (κ : Call) : CallIs p (n + 1) κ (h.push (.called p (n + 1) κ)) := by
  refine ⟨by rw [Hist.push_trace]; exact List.mem_cons_self, fun κ' hκ' => ?_⟩
  rw [Hist.push_trace] at hκ'
  rcases List.mem_cons.mp hκ' with heq | hκ'
  · cases heq
    rfl
  · have hle := hpast _ hκ' rfl
    simp only [Event.calls] at hle
    omega

/-- Every effect of every call satisfies `P`. -/
def CallsDo (P : Call → Pid → (e : Effect) → e.Res → World → World → Prop) (tr : Trace) : Prop :=
  ∀ p n κ e r w w', Event.called p n κ ∈ tr → Event.did p n e r w w' ∈ tr → P κ p e r w w'

/-- **A property of the effects of the calls**: it holds in every run if every call keeps an
    assertion about the world that holds of a clean task, that no other task breaks, and under which
    its effects have the property. -/
theorem callsDo_of_run {ok : Pid → Call → Prop}
    {P : Call → Pid → (e : Effect) → e.Res → World → World → Prop} (A : Call → Pid → World → Prop)
    (hclean : ∀ κ p w, Clean p w → A κ p w)
    (hother : ∀ κ p q w e r w', q ≠ p → Acts q w e r w' → A κ p w → A κ p w')
    (hown : ∀ κ p w e r w', ok p κ → Writes κ.writes e → Acts p w e r w' → A κ p w →
      A κ p w' ∧ P κ p e r w w') {t : Tables} {timer : ReleaseTimer} {c : System}
    (hrun : machine.Run (Machine.Calling ok) (t.systemWith timer) c) : CallsDo P c.hist.trace := by
  refine (run_sound (fun h => CallsDo P h.trace) (fun _ _ _ _ => True) (fun _ _ hc => hc)
    (fun _ _ _ _ _ _ _ hκ => absurd hκ List.not_mem_nil) (fun _ _ _ => trivial) (fun _ _ _ => .true)
    ?_ ?_ hrun).1
  · intro h p n κ hpast hI q m κ' e r w w' hκ' hev
    rw [Hist.push_trace] at hκ' hev
    rcases List.mem_cons.mp hev with heq | hev
    · cases heq
    rcases List.mem_cons.mp hκ' with heq | hκ'
    · -- The call that begins has done nothing yet.
      cases heq
      have hle := hpast _ hev rfl
      simp only [Event.calls] at hle
      omega
    · exact hI q m κ' e r w w' hκ' hev
  · intro p n κ l hok
    have hstable : machine.Stable (Machine.Calling ok) (fun h => CallsDo P h.trace) p
        fun h => CallIs p (n + 1) κ h ∧ A κ p h.state :=
      CallIs.stable.and (stable_of_acts fun q w e r w' hq hacts hA =>
        hother κ p q w e r w' hq hacts hA)
    refine ⟨_, hstable, fun h hpast _ _ hc => ⟨callIs_of_called hpast κ, hclean κ p _ hc⟩, ?_⟩
    refine (Machine.Sketch.keep (κ.emits l) hstable ?_).post fun _ _ _ _ => trivial
    intro h e env r w' he hI hA ha _
    obtain ⟨hA', hP⟩ := hown κ p h.state e r w' hok he (acts_of_act ha) hA.2
    refine ⟨?_, ⟨?_, ?_⟩, hA'⟩
    · intro q m κ' e' r' w₁ w₁' hκ' hev
      rw [Hist.push_trace] at hκ' hev
      rcases List.mem_cons.mp hκ' with heq | hκ'
      · cases heq
      rcases List.mem_cons.mp hev with heq | hev
      · cases heq
        rw [hA.1.only κ' hκ']
        exact hP
      · exact hI q m κ' e' r' w₁ w₁' hκ' hev
    · rw [Hist.push_trace]
      exact List.mem_cons_of_mem _ hA.1.called
    · intro κ' hκ'
      rw [Hist.push_trace] at hκ'
      rcases List.mem_cons.mp hκ' with heq | hκ'
      · cases heq
      · exact hA.1.only κ' hκ'

end Tachikoma
