import Tachikoma.Proof.Handlers

/-!
# The discipline of the transactions

Every entry of the server follows one rule in its dealings with the database: it **writes at most
once**, commits nothing but what it has written, and after the commit asks for nothing that could
still change its mind. `Stage` says how far an entry has come, `transactions` is the rule, and
`Entry.obeys` says that all of them follow it, and what a stage has to do with the answer: an entry
ends *kept* if it reports that something was done, and *fresh* if it reports that nothing was.

This is a fact about the programs alone. What the stages mean for the tables is said in
`Tachikoma/Proof/Atomic.lean`.
-/

set_option autoImplicit false

namespace Tachikoma

open Interleaving Versioned Unordered

/-- How far an entry has come with its one write. -/
inductive Stage where
  /-- Nothing is written that could be committed. -/
  | fresh
  /-- The statement went well, and its transaction is open. -/
  | wrote (tx : RegistryTx) (x : Write)
  /-- It is committed. -/
  | kept (x : Write)

namespace Stage

/-- What may be asked for. -/
def allows : Stage → Effect → Prop
  | .fresh, .commit _ => False
  | .wrote _ _, .execute _ _ => False
  | .wrote tx _, .commit tx' => tx' = tx
  | .wrote tx _, .drop tx' => tx' = tx
  | .kept _, .execute _ _ => False
  | .kept _, .commit _ => False
  | _, _ => True

/-- After a statement that writes. -/
def executed (s : Stage) (tx : RegistryTx) (x : Write) : Except SqlxError x.Res → Stage
  | .ok _ => match s with
    | .fresh => .wrote tx x
    | s => s
  | .error _ => s

/-- After a commit. -/
def committed (s : Stage) : Except SqlxError Unit → Stage
  | .ok _ => match s with
    | .wrote _ x => .kept x
    | s => s
  | .error _ => match s with
    | .wrote _ _ => .fresh
    | s => s

/-- After the transaction was dropped. -/
def dropped : Stage → Stage
  | .wrote _ _ => .fresh
  | s => s

def next (s : Stage) : (e : Effect) → e.Res → Stage
  | .execute tx x, r => s.executed tx x r
  | .commit _, r => s.committed r
  | .drop _, _ => s.dropped
  | _, _ => s

/-- The write, if there is one pending, belongs to this transaction. -/
def Of (tx : RegistryTx) (s : Stage) : Prop := ∀ tx' x, s = .wrote tx' x → tx' = tx

/-- What has to hold where a scope is left, so that `A` holds once its transaction is dropped. -/
def Scoped (tx : RegistryTx) (A : Stage → Prop) (s : Stage) : Prop := s.Of tx ∧ A s.dropped

@[simp] theorem scoped_fresh {tx : RegistryTx} {A : Stage → Prop} :
    Scoped tx A .fresh ↔ A .fresh := ⟨fun h => h.2, fun h => ⟨nofun, h⟩⟩

@[simp] theorem scoped_wrote {tx : RegistryTx} {x : Write} {A : Stage → Prop} :
    Scoped tx A (.wrote tx x) ↔ A .fresh :=
  ⟨fun h => h.2, fun h => ⟨fun _ _ he => (Stage.wrote.inj he).1.symm, h⟩⟩

@[simp] theorem scoped_kept {tx : RegistryTx} {x : Write} {A : Stage → Prop} :
    Scoped tx A (.kept x) ↔ A (.kept x) := ⟨fun h => h.2, fun h => ⟨nofun, h⟩⟩

end Stage

/-- The rule. -/
def transactions : Discipline Effect Effect.Res Stage := ⟨Stage.allows, Stage.next⟩

/-- How a task ends: with a value, an error or a panic, and in which stage. -/
def ends {ε α : Type} (A : α → Stage → Prop) (E F : Stage → Prop) : Stage → Exit ε α → Prop
  | s, .ok a => A a s
  | s, .err _ => E s
  | s, .panic _ => F s

/-- Neither writes nor commits. -/
def Quiet (e : Effect) : Prop := (∀ tx x, e ≠ .execute tx x) ∧ ∀ tx, e ≠ .commit tx

namespace Task

variable {ε ε' α β : Type} {s : Stage} {A : α → Stage → Prop} {E F : Stage → Prop}

/-- The task follows the rule from the stage `s` on. -/
def Obeys (Q : Stage → Exit ε α → Prop) (x : Task ε α) (s : Stage) : Prop :=
  Prog.Obeys transactions Q x s

theorem obeys_pure {a : α} (h : A a s) : (pure a : Task ε α).Obeys (ends A E F) s := h

theorem obeys_throw {e : ε} (h : E s) : (Task.throw e : Task ε α).Obeys (ends A E F) s := h

theorem obeys_panic {msg : String} (h : F s) : (Task.panic msg : Task ε α).Obeys (ends A E F) s := h

theorem obeys_bind {B : β → Stage → Prop} {x : Task ε β} {f : β → Task ε α}
    (hx : x.Obeys (ends B E F) s) (hf : ∀ b s, B b s → (f b).Obeys (ends A E F) s) :
    (x >>= f).Obeys (ends A E F) s := by
  refine Prog.Obeys.bind hx fun s r hr => ?_
  cases r with
  | ok b => exact hf b s hr
  | err e => exact hr
  | panic msg => exact hr

/-- The same where the first part leaves only one stage. -/
theorem obeys_then {s₁ : Stage} {x : Task ε β} {f : β → Task ε α}
    (hx : x.Obeys (ends (fun _ s' => s' = s₁) E F) s)
    (hf : ∀ b, (f b).Obeys (ends A E F) s₁) : (x >>= f).Obeys (ends A E F) s :=
  obeys_bind hx fun b _ hs => hs ▸ hf b

theorem obeys_mapErr {f : ε' → ε} {x : Task ε' α} (hx : x.Obeys (ends A E F) s) :
    (x.mapErr f).Obeys (ends A E F) s := by
  refine Prog.Obeys.bind hx fun s r hr => ?_
  cases r <;> exact hr

theorem obeys_attempt {G : Stage → Prop} {x : Task ε' α} (hx : x.Obeys (ends A E F) s) :
    (x.attempt : Task ε (Except ε' α)).Obeys
      (ends (fun r s => match r with | .ok a => A a s | .error _ => E s) G F) s := by
  refine Prog.Obeys.bind hx fun s r hr => ?_
  cases r <;> exact hr

theorem obeys_fetch {tx : RegistryTx} {q : Select} {A : q.Rows → Stage → Prop}
    (hA : ∀ rows, A rows s) (hE : E s) : (tx.fetch q).Obeys (ends A E F) s := by
  refine ⟨by cases s <;> trivial, fun r => ?_⟩
  cases r with
  | ok rows => exact hA rows
  | error e => exact hE

theorem obeys_execute {tx : RegistryTx} {x : Write} {A : x.Res → Stage → Prop}
    (hA : ∀ a, A a (.wrote tx x)) (hE : E .fresh) : (tx.execute x).Obeys (ends A E F) .fresh := by
  refine ⟨trivial, fun r => ?_⟩
  cases r with
  | ok a => exact hA a
  | error e => exact hE

theorem obeys_commit {tx : RegistryTx} {x : Write} {A : Unit → Stage → Prop}
    (hA : A () (.kept x)) (hE : E .fresh) : tx.commit.Obeys (ends A E F) (.wrote tx x) := by
  refine ⟨rfl, fun r => ?_⟩
  cases r with
  | ok a => exact hA
  | error e => exact hE

theorem obeys_utcNow {A : Time → Stage → Prop} (hA : ∀ now, A now s) :
    (utcNow : Task ε Time).Obeys (ends A E F) s :=
  ⟨by cases s <;> trivial, hA⟩

theorem obeys_addTimeDelta {A : Time → Stage → Prop} {t : Time} {d : TimeDelta} (hA : A (t + d) s)
    (hF : F s) : (addTimeDelta t d : Task ε Time).Obeys (ends A E F) s := by
  unfold addTimeDelta
  split
  · exact obeys_pure hA
  · exact obeys_panic hF

theorem obeys_hashOrder {A : List Nat → Stage → Prop} (hA : ∀ order, A order s) :
    (hashOrder : Task ε (List Nat)).Obeys (ends A E F) s :=
  ⟨by cases s <;> trivial, hA⟩

/-- A transaction, begun before anything was written. -/
theorem obeys_withTx {f : SqlxError → ε} {scope : RegistryTx → Task ε α} (hE : E .fresh)
    (hscope : ∀ tx, (scope tx).Obeys
      (ends (fun a => Stage.Scoped tx (A a)) (Stage.Scoped tx E) (Stage.Scoped tx F)) .fresh) :
    (withTx f scope).Obeys (ends A E F) .fresh := by
  refine ⟨trivial, fun r => ?_⟩
  cases r with
  | error e => exact hE
  | ok tx =>
    refine Prog.Obeys.bind (hscope tx) fun s r hr => ?_
    have hallowed : s.Of tx → Stage.allows s (.drop tx) := by
      intro hof
      cases s with
      | fresh => trivial
      | wrote tx' x => exact (hof tx' x rfl).symm
      | kept x => trivial
    cases r with
    | ok a => exact ⟨hallowed hr.1, fun _ => hr.2⟩
    | err e => exact ⟨hallowed hr.1, fun _ => hr.2⟩
    | panic msg => exact ⟨hallowed hr.1, fun _ => hr.2⟩

/-- Where nothing is pending, what neither writes nor commits keeps the stage. -/
theorem obeys_quiet {x : Task ε α} (hx : Prog.Emits Quiet x) (hs : ∀ tx x, s ≠ .wrote tx x)
    (hr : Prog.Returns (ends A E F s) x) : x.Obeys (ends A E F) s := by
  have hstill : ∀ e, Quiet e → transactions.allows s e ∧ ∀ r, transactions.next s e r = s := by
    intro e he
    cases s with
    | fresh =>
      cases e with
      | execute tx x => exact absurd rfl (he.1 tx x)
      | commit tx => exact absurd rfl (he.2 tx)
      | _ => exact ⟨trivial, fun _ => rfl⟩
    | wrote tx x => exact absurd rfl (hs tx x)
    | kept x =>
      cases e with
      | execute tx x => exact absurd rfl (he.1 tx x)
      | commit tx => exact absurd rfl (he.2 tx)
      | _ => exact ⟨trivial, fun _ => rfl⟩
  refine (Prog.Obeys.of_emits hstill hx hr).mono fun s' r h => ?_
  obtain ⟨rfl, hr⟩ := h
  exact hr

theorem obeys_of_succeeds {x : Task ε α} (hx : Prog.Emits Quiet x) (hr : x.Succeeds)
    (hs : ∀ tx x, s ≠ .wrote tx x) : x.Obeys (ends (fun _ s' => s' = s) E F) s :=
  obeys_quiet hx hs (hr.mono fun _ h => by
    obtain ⟨a, rfl⟩ := h
    exact rfl)

theorem obeys_of_quiet {x : Task ε α} (hx : Prog.Emits Quiet x) (hs : ∀ tx x, s ≠ .wrote tx x)
    (hE : E s) (hF : F s) : x.Obeys (ends (fun _ s' => s' = s) E F) s :=
  obeys_quiet hx hs ((Prog.returns_true x).mono fun r _ => by
    cases r with
    | ok a => exact rfl
    | err e => exact hE
    | panic msg => exact hF)

theorem obeys_mono {A' : α → Stage → Prop} {E' F' : Stage → Prop} {x : Task ε α}
    (h : x.Obeys (ends A E F) s) (hA : ∀ a s, A a s → A' a s) (hE : ∀ s, E s → E' s)
    (hF : ∀ s, F s → F' s) : x.Obeys (ends A' E' F') s :=
  Prog.Obeys.mono (fun s r hr => by
    cases r with
    | ok a => exact hA a s hr
    | err e => exact hE s hr
    | panic msg => exact hF s hr) h

end Task

/-! ## The functions of the source -/

/-- Nothing was committed. -/
def Stage.isFresh (s : Stage) : Prop := s = .fresh

@[simp] theorem Stage.isFresh_fresh : Stage.fresh.isFresh := rfl

/-- What the value says that was written is committed; after an error or a panic nothing is. -/
abbrev commits {ε α : Type} (W : α → Write → Prop) : Stage → Exit ε α → Prop :=
  ends (fun a s => ∃ x, W a x ∧ s = .kept x) Stage.isFresh Stage.isFresh

namespace HostsService

variable {s : Stage} {E F : Stage → Prop}

theorem obeys_getLeaseLimit (self : HostsService) {tx : RegistryTx} {groups : List String}
    (hE : E s) (hF : F s) :
    (self.getLeaseLimit tx groups).Obeys (ends (fun _ s' => s' = s) E F) s := by
  refine Task.obeys_then (Task.obeys_fetch (fun _ => rfl) hE) fun limits => ?_
  split
  · exact Task.obeys_pure rfl
  · exact Task.obeys_panic hF

theorem lease_obeys (self : HostsService) (userId : UserId) (userGroups : List String)
    (hostsIds : List HostId) (leaseFor : TimeDelta) :
    (self.lease userId userGroups hostsIds leaseFor).Obeys
      (commits fun _ x => ∃ t, x = .hosts (.leaseHosts userId hostsIds t)) .fresh := by
  refine Task.obeys_withTx rfl fun tx => ?_
  refine Task.obeys_then (Task.obeys_mapErr (Task.obeys_fetch (fun _ => rfl) (by simp)))
    fun leased => ?_
  dsimp only
  split
  · exact Task.obeys_then (Task.obeys_hashOrder fun _ => rfl) fun _ => Task.obeys_throw (by simp)
  · refine Task.obeys_then
      (Task.obeys_mapErr (self.obeys_getLeaseLimit (by simp) (by simp))) fun limit => ?_
    split
    · exact Task.obeys_throw (by simp)
    · refine Task.obeys_then (Task.obeys_utcNow fun _ => rfl) fun now => ?_
      refine Task.obeys_then (Task.obeys_addTimeDelta rfl (by simp)) fun untill => ?_
      refine Task.obeys_then
        (Task.obeys_mapErr (Task.obeys_execute (fun _ => rfl) (by simp))) fun _ => ?_
      refine Task.obeys_then
        (Task.obeys_mapErr (Task.obeys_fetch (fun _ => rfl) (by simp))) fun leased => ?_
      refine Task.obeys_then (Task.obeys_mapErr (Task.obeys_commit rfl (by simp))) fun _ => ?_
      exact Task.obeys_pure (Stage.scoped_kept.mpr ⟨_, ⟨_, rfl⟩, rfl⟩)

theorem leaseRandom_obeys (self : HostsService) (userId : UserId) (userGroups : List String)
    (leaseFor : TimeDelta) (groupId : GroupId) :
    (self.leaseRandom userId userGroups leaseFor groupId).Obeys
      (commits fun _ x => ∃ id t, x = .hosts (.leaseHosts userId [id] t)) .fresh := by
  refine Task.obeys_withTx rfl fun tx => ?_
  refine Task.obeys_then
    (Task.obeys_mapErr (self.obeys_getLeaseLimit (by simp) (by simp))) fun limit => ?_
  refine Task.obeys_then (Task.obeys_mapErr (Task.obeys_fetch (fun _ => rfl) (by simp)))
    fun leased => ?_
  split
  · exact Task.obeys_throw (by simp)
  · refine Task.obeys_then (Task.obeys_mapErr (Task.obeys_fetch (fun _ => rfl) (by simp)))
      fun host => ?_
    split
    · refine Task.obeys_then (Task.obeys_utcNow fun _ => rfl) fun now => ?_
      refine Task.obeys_then (Task.obeys_addTimeDelta rfl (by simp)) fun untill => ?_
      refine Task.obeys_then
        (Task.obeys_mapErr (Task.obeys_execute (fun _ => rfl) (by simp))) fun _ => ?_
      refine Task.obeys_then
        (Task.obeys_mapErr (Task.obeys_fetch (fun _ => rfl) (by simp))) fun leased => ?_
      refine Task.obeys_then (Task.obeys_mapErr (Task.obeys_commit rfl (by simp))) fun _ => ?_
      exact Task.obeys_pure (Stage.scoped_kept.mpr ⟨_, ⟨_, _, rfl⟩, rfl⟩)
    · exact Task.obeys_throw (by simp)

theorem free_obeys (userId : UserId) (hostsIds : List HostId) :
    (free userId hostsIds).Obeys
      (commits fun _ x => x = .hosts (.freeHostsForUser hostsIds userId)) .fresh := by
  refine Task.obeys_withTx rfl fun tx => ?_
  refine Task.obeys_then (Task.obeys_mapErr (Task.obeys_execute (fun _ => rfl) (by simp)))
    fun _ => ?_
  exact Task.obeys_mapErr (Task.obeys_commit (by simp) (by simp))

theorem freeAll_obeys (userId : UserId) :
    (freeAll userId).Obeys (commits fun _ x => x = .hosts (.freeAll userId)) .fresh := by
  refine Task.obeys_withTx rfl fun tx => ?_
  refine Task.obeys_then (Task.obeys_mapErr (Task.obeys_execute (fun _ => rfl) (by simp)))
    fun _ => ?_
  exact Task.obeys_mapErr (Task.obeys_commit (by simp) (by simp))

end HostsService

/-! ## What only reads -/

section Quiet

variable {ε : Type}

theorem quiet_fetch {tx : RegistryTx} {q : Select} : Prog.Emits Quiet (tx.fetch q) :=
  Task.emits_fetch (by simp [Quiet])

theorem quiet_utcNow : Prog.Emits Quiet (utcNow : Task ε Time) :=
  Task.emits_utcNow (by simp [Quiet])

theorem quiet_hashOrder : Prog.Emits Quiet (hashOrder : Task ε (List Nat)) :=
  Task.emits_hashOrder (by simp [Quiet])

theorem quiet_withTx {α : Type} {f : SqlxError → ε} {scope : RegistryTx → Task ε α}
    (hscope : ∀ tx, Prog.Emits Quiet (scope tx)) : Prog.Emits Quiet (withTx f scope) :=
  Task.emits_withTx (by simp [Quiet]) (fun _ => by simp [Quiet]) hscope

theorem quiet_updatedLines (hosts : List Host) (idx : Nat) :
    Prog.Emits Quiet (updatedLines idx hosts) := by
  induction hosts generalizing idx with
  | nil => exact Task.emits_pure _
  | cons host hosts ih =>
    rw [updatedLines]
    split
    · exact Task.emits_bind (ih _) fun _ => Task.emits_pure _
    · exact Task.emits_bind quiet_utcNow fun _ => Task.emits_bind (ih _) fun _ => Task.emits_pure _

theorem succeeds_updatedLines (hosts : List Host) (idx : Nat) :
    (updatedLines idx hosts).Succeeds := by
  induction hosts generalizing idx with
  | nil => exact Task.succeeds_pure _
  | cons host hosts ih =>
    rw [updatedLines]
    split
    · exact Task.succeeds_bind (ih _) fun _ => Task.succeeds_pure _
    · exact Task.succeeds_bind Task.succeeds_utcNow fun _ =>
        Task.succeeds_bind (ih _) fun _ => Task.succeeds_pure _

namespace Notifier

theorem quiet_expiringLines (hosts : List Host) (idx : Nat) :
    Prog.Emits Quiet (expiringLines idx hosts) := by
  induction hosts generalizing idx with
  | nil => exact Task.emits_pure _
  | cons host hosts ih =>
    rw [expiringLines]
    split
    · exact Task.emits_panic _
    · exact Task.emits_bind quiet_utcNow fun _ => Task.emits_bind (ih _) fun _ => Task.emits_pure _

theorem quiet_sendMessage (sender : MsgSender) (msg : Message) :
    Prog.Emits Quiet (sendMessage sender msg) :=
  ⟨by simp [Quiet], fun r => by cases r <;> trivial⟩

theorem quiet_notify (self : Notifier) (userId : UserId) (notification : Notification) :
    Prog.Emits Quiet (self.notify userId notification) := by
  refine ⟨by simp [Quiet], fun _ => ?_⟩
  refine quiet_withTx fun tx => Task.emits_bind (Task.emits_mapErr quiet_fetch) fun user => ?_
  split
  · exact Task.emits_throw _
  · split
    · exact Task.emits_throw _
    · split
      · split
        · exact Task.emits_pure _
        · exact Task.emits_bind (Task.emits_mapErr quiet_fetch) fun _ => quiet_sendMessage _ _
      · split
        · exact Task.emits_pure _
        · refine Task.emits_bind (Task.emits_mapErr quiet_fetch) fun hosts => ?_
          exact Task.emits_bind (quiet_expiringLines _ _) fun _ => quiet_sendMessage _ _

end Notifier

namespace ReleaseTimer

theorem quiet_notifyReleased (notifier : Notifier) (released : List (UserId × List HostId)) :
    Prog.Emits Quiet (notifyReleased notifier released) := by
  induction released with
  | nil => exact Task.emits_pure _
  | cons x rest ih =>
    exact Task.emits_bind (Task.emits_attempt (notifier.quiet_notify _ _)) fun _ => ih

theorem quiet_notifyReleasedHosts (notifier : Notifier) (released : List LeasedHost) :
    Prog.Emits Quiet (notifyReleasedHosts notifier released) :=
  Task.emits_bind quiet_hashOrder fun _ => quiet_notifyReleased _ _

theorem quiet_notifySoon (notifier : Notifier) (expiring : List (UserId × List HostId))
    (sent : UserId → Option (List HostId)) :
    Prog.Emits Quiet (notifySoon notifier sent expiring) := by
  induction expiring generalizing sent with
  | nil => exact Task.emits_pure _
  | cons x rest ih =>
    refine Task.emits_bind quiet_hashOrder fun order => ?_
    dsimp only
    split
    · exact ih _
    · refine Task.emits_bind (Task.emits_attempt (notifier.quiet_notify _ _)) fun r => ?_
      split
      · exact ih _
      · exact ih _

theorem quiet_notifySoonRelease (self : ReleaseTimer) (notifier : Notifier) :
    Prog.Emits Quiet (self.notifySoonRelease notifier) := by
  refine quiet_withTx fun tx => Task.emits_bind quiet_utcNow fun now => ?_
  refine Task.emits_bind (Task.emits_mapErr quiet_fetch) fun expiring => ?_
  refine Task.emits_bind quiet_hashOrder fun order => ?_
  exact Task.emits_bind (quiet_notifySoon _ _ _) fun _ => Task.emits_pure _

theorem quiet_announce (self : ReleaseTimer) (notifier : Option Notifier) :
    Prog.Emits Quiet (self.announce notifier) := by
  unfold announce
  split
  · exact Task.emits_pure _
  · refine Task.emits_bind (Task.emits_attempt (self.quiet_notifySoonRelease _)) fun r => ?_
    split
    · exact Task.emits_pure _
    · exact Task.emits_pure _

end ReleaseTimer

end Quiet

/-! ## Extensions, links, logins, passes -/

theorem extendUserHosts_obeys (tgHandle : String) (hours : Int32) :
    (extendUserHosts tgHandle hours).Obeys
      (ends (fun r s => match r with
        | .noExpiringHosts => s.isFresh
        | .leaseExtended _ _ => ∃ ids, s = .kept (.hosts (.extendHostsLease ids hours)))
        Stage.isFresh Stage.isFresh) .fresh := by
  refine Task.obeys_withTx rfl fun tx => ?_
  refine Task.obeys_then (Task.obeys_mapErr (Task.obeys_fetch (fun _ => rfl) (by simp)))
    fun user => ?_
  split
  · exact Task.obeys_throw (by simp)
  · refine Task.obeys_then (Task.obeys_utcNow fun _ => rfl) fun now => ?_
    refine Task.obeys_then
      (Task.obeys_mapErr (Task.obeys_fetch (fun _ => rfl) (by simp))) fun expiring => ?_
    split
    · exact Task.obeys_pure (by simp)
    · refine Task.obeys_then
        (Task.obeys_mapErr (Task.obeys_execute (fun _ => rfl) (by simp))) fun _ => ?_
      refine Task.obeys_then
        (Task.obeys_mapErr (Task.obeys_fetch (fun _ => rfl) (by simp))) fun updated => ?_
      refine Task.obeys_then (Task.obeys_mapErr (Task.obeys_commit rfl (by simp))) fun _ => ?_
      -- The message is put together after the commit, and nothing in it can fail.
      refine Task.obeys_then (Task.obeys_of_succeeds (quiet_updatedLines _ _)
        (succeeds_updatedLines _ _) (by simp)) fun lines => ?_
      exact Task.obeys_pure (Stage.scoped_kept.mpr ⟨_, rfl⟩)

theorem UsersService.linkUser_obeys (link tgUserId : String) :
    (UsersService.linkUser link tgUserId).Obeys
      (ends (fun r s => match r with
        | none => s.isFresh
        | some _ => ∃ u, s = .kept (.setUserTgHandle u tgUserId))
        Stage.isFresh Stage.isFresh) .fresh := by
  refine Task.obeys_withTx rfl fun tx => ?_
  refine Task.obeys_then (Task.obeys_mapErr (Task.obeys_fetch (fun _ => rfl) (by simp)))
    fun user => ?_
  split
  · refine Task.obeys_then
      (Task.obeys_mapErr (Task.obeys_execute (fun _ => rfl) (by simp))) fun _ => ?_
    refine Task.obeys_then
      (Task.obeys_mapErr (Task.obeys_fetch (fun _ => rfl) (by simp))) fun user => ?_
    split
    · exact Task.obeys_panic (by simp)
    · refine Task.obeys_then (Task.obeys_mapErr (Task.obeys_commit rfl (by simp))) fun _ => ?_
      exact Task.obeys_pure (Stage.scoped_kept.mpr ⟨_, rfl⟩)
  · exact Task.obeys_pure (by simp)

/-- Nothing is committed, or a write in `W` is. -/
def Stage.Settled (W : Write → Prop) (s : Stage) : Prop := s.isFresh ∨ ∃ x, W x ∧ s = .kept x

@[simp] theorem Stage.settled_fresh {W : Write → Prop} : Stage.fresh.Settled W := .inl rfl

theorem Stage.Settled.ne_wrote {W : Write → Prop} {s : Stage} (h : s.Settled W) (tx : RegistryTx)
    (x : Write) : s ≠ .wrote tx x := by
  intro he
  rcases h with h | ⟨y, -, h⟩
  · cases h.symm.trans he
  · cases h.symm.trans he

/-- A new user. -/
def addsUser (x : Write) : Prop := ∃ dn email, x = .addUser dn none email

theorem authenticate_obeys (username password : String) :
    (authenticate username password).Obeys
      (ends (fun r s => match r with
        | none => s.isFresh
        | some _ => s.Settled addsUser) Stage.isFresh (Stage.Settled addsUser)) .fresh := by
  refine Task.obeys_then (Task.obeys_mapErr (Task.obeys_of_quiet
    ⟨by simp [Quiet], fun r => by cases r <;> trivial⟩ (by simp) rfl (by simp))) fun info => ?_
  split
  · exact Task.obeys_pure rfl
  · rename_i uInfo
    refine Task.obeys_bind (B := fun _ s => s = .fresh) ?_ fun r s hs => ?_
    · refine Task.obeys_mono (Task.obeys_attempt (G := Stage.isFresh) (Task.obeys_of_quiet
        (s := .fresh) (E := Stage.isFresh) (F := Stage.Settled addsUser) ?_ (by simp) rfl
          (by simp)))
        (fun r s h => by cases r <;> exact h) (fun _ h => h) fun _ h => h
      unfold UsersInfo.checkAuthentication
      split
      · exact Task.emits_throw _
      · exact ⟨by simp [Quiet], fun r => by cases r <;> trivial⟩
    subst hs
    split
    · exact Task.obeys_pure rfl
    -- A user who is known gets his session, and one who is new is written first.
    · refine Task.obeys_then (Task.obeys_of_quiet
        (quiet_withTx fun tx => Task.emits_mapErr quiet_fetch) (by simp) rfl (by simp))
          fun user => ?_
      split
      · exact Task.obeys_pure (by simp)
      · refine Task.obeys_bind (B := fun _ s => s.Settled addsUser) ?_ fun user s hs =>
          Task.obeys_pure hs
        refine Task.obeys_withTx rfl fun tx => ?_
        refine Task.obeys_then
          (Task.obeys_mapErr (Task.obeys_execute (fun _ => rfl) (by simp))) fun _ => ?_
        refine Task.obeys_then
          (Task.obeys_mapErr (Task.obeys_fetch (fun _ => rfl) (by simp))) fun user => ?_
        refine Task.obeys_then (Task.obeys_mapErr (Task.obeys_commit rfl (by simp))) fun _ => ?_
        split
        · exact Task.obeys_panic (Stage.scoped_kept.mpr (.inr ⟨_, ⟨_, _, rfl⟩, rfl⟩))
        · exact Task.obeys_pure (Stage.scoped_kept.mpr (.inr ⟨_, ⟨_, _, rfl⟩, rfl⟩))

/-- Hosts made free by their ids. -/
def freesHosts (x : Write) : Prop := ∃ ids, x = .hosts (.freeHosts ids)

namespace ReleaseTimer

theorem release_obeys (self : ReleaseTimer) :
    self.release.Obeys (ends (fun r s => match r.1 with
      | [] => s.isFresh
      | hosts => s = .kept (.hosts (.freeHosts (hosts.map (·.id)))))
      Stage.isFresh Stage.isFresh) .fresh := by
  refine Task.obeys_withTx rfl fun tx => ?_
  refine Task.obeys_then (Task.obeys_utcNow fun _ => rfl) fun now => ?_
  refine Task.obeys_then
    (Task.obeys_mapErr (Task.obeys_fetch (fun _ => rfl) (by simp))) fun expired => ?_
  split
  · rename_i hnone
    subst hnone
    exact Task.obeys_pure (by simp)
  · rename_i hsome
    refine Task.obeys_then
      (Task.obeys_mapErr (Task.obeys_execute (fun _ => rfl) (by simp))) fun _ => ?_
    refine Task.obeys_then (Task.obeys_mapErr (Task.obeys_commit rfl (by simp))) fun _ => ?_
    refine Task.obeys_then (Task.obeys_hashOrder fun _ => rfl) fun order => ?_
    refine Task.obeys_pure (Stage.scoped_kept.mpr ?_)
    cases expired with
    | nil => exact absurd rfl hsome
    | cons host hosts => exact rfl

theorem releaseAndReport_obeys (self : ReleaseTimer) (notifier : Option Notifier) :
    (self.releaseAndReport notifier).Obeys (ends (fun _ => Stage.Settled freesHosts)
      (Stage.Settled freesHosts) (Stage.Settled freesHosts)) .fresh := by
  have hrelease : self.release.Obeys (ends (fun r s => match r.1 with
      | [] => s.isFresh
      | hosts => s = .kept (.hosts (.freeHosts (hosts.map (·.id)))))
      (Stage.Settled freesHosts) (Stage.Settled freesHosts)) .fresh :=
    Task.obeys_mono (release_obeys self) (fun _ _ h => h) (fun _ h => Or.inl h) fun _ h => Or.inl h
  refine Task.obeys_bind (Task.obeys_attempt hrelease) fun r s hr => ?_
  cases r with
  | error e => exact Task.obeys_pure hr
  | ok r =>
    obtain ⟨hosts, self⟩ := r
    cases hosts with
    | nil => exact Task.obeys_pure (.inl hr)
    | cons host hosts =>
      have hs : s.Settled freesHosts := .inr ⟨_, ⟨_, rfl⟩, hr⟩
      cases notifier with
      | none => exact Task.obeys_pure hs
      | some notifier =>
        refine Task.obeys_then (Task.obeys_of_quiet ?_ hs.ne_wrote hs hs) fun _ =>
          Task.obeys_pure hs
        exact Task.emits_attempt (quiet_notifyReleasedHosts notifier (host :: hosts))

theorem turn_obeys (self : ReleaseTimer) (notifier : Option Notifier) :
    (self.turn notifier).Obeys (ends (fun _ => Stage.Settled freesHosts) (Stage.Settled freesHosts)
      (Stage.Settled freesHosts)) .fresh := by
  refine Task.obeys_bind (self.releaseAndReport_obeys notifier) fun self s hs => ?_
  refine Task.obeys_mono (Task.obeys_of_quiet (E := Stage.Settled freesHosts)
    (F := Stage.Settled freesHosts) (quiet_announce self notifier) hs.ne_wrote hs hs) ?_
    (fun _ h => h) fun _ h => h
  intro _ s' hs'
  rw [hs']
  exact hs

end ReleaseTimer

/-! ## The entries -/

/-- What is said to be done is committed, by a write in `W`; where nothing is said to be done,
    nothing is. -/
def Stage.Reports (W : Write → Prop) (s : Stage) : Bool → Prop
  | true => ∃ x, W x ∧ s = .kept x
  | false => s.isFresh

/-- What a handler may write for a request. -/
def Request.Writes (service : HostsService) (user : AuthUser) (req : Request) (x : Write) : Prop :=
  ∃ κ, req.call service user = some κ ∧ κ.writes x

theorem Stage.Reports.mono {W W' : Write → Prop} (hW : ∀ x, W x → W' x) {s : Stage} {done : Bool}
    (h : s.Reports W done) : s.Reports W' done := by
  cases done with
  | true =>
    obtain ⟨x, hx, hs⟩ := h
    exact ⟨x, hW x hx, hs⟩
  | false => exact h

/-- The calls that a request can make end in the stage that their result tells. -/
theorem Call.obeys_of_request {service : HostsService} {user : AuthUser} {req : Request} {κ : Call}
    (hκ : req.call service user = some κ) (self : ReleaseTimer) :
    (κ.program self).Obeys transactions (fun s l' => s.Reports κ.writes l'.done) .fresh := by
  rcases Request.call_cases hκ with ⟨ids, leaseFor, rfl⟩ | ⟨leaseFor, groupId, rfl⟩ | ⟨ids, rfl⟩ |
    rfl | ⟨tgHandle, hours, rfl⟩
  · refine Prog.Obeys.bind (service.lease_obeys _ _ _ _) fun s r hr => ?_
    cases r <;> exact hr
  · refine Prog.Obeys.bind (service.leaseRandom_obeys _ _ _ _) fun s r hr => ?_
    cases r <;> exact hr
  · refine Prog.Obeys.bind (HostsService.free_obeys _ _) fun s r hr => ?_
    cases r <;> exact hr
  · refine Prog.Obeys.bind (HostsService.freeAll_obeys _) fun s r hr => ?_
    cases r <;> exact hr
  · refine Prog.Obeys.bind (extendUserHosts_obeys _ _) fun s r hr => ?_
    cases r with
    | ok extended =>
      cases extended with
      | noExpiringHosts => exact hr
      | leaseExtended hours' lines =>
        obtain ⟨ids, hs⟩ := hr
        exact ⟨_, ⟨ids, rfl⟩, hs⟩
    | err e => exact hr
    | panic msg => exact hr

/-- So the handlers answer truthfully. -/
theorem Request.handle_obeys (service : HostsService) (user : AuthUser) (req : Request) :
    (req.handle service user).Obeys
      (fun s r => s.Reports (req.Writes service user) (Exit.done Answer.done r)) .fresh := by
  have hidle : ∀ s e, Idle e → transactions.allows s e ∧ ∀ r, transactions.next s e r = s := by
    intro s e he
    cases he
    cases s <;> exact ⟨trivial, fun _ => rfl⟩
  have hdoes := req.handle_doesCall service user
  cases hcall : req.call service user with
  | none =>
    rw [hcall] at hdoes
    refine (Prog.Obeys.of_emits (hidle .fresh) hdoes.idle hdoes.tells).mono fun s r hr => ?_
    rw [hr.1, hr.2]
    exact rfl
  | some κ =>
    rw [hcall] at hdoes
    refine (hdoes .new).obeys hidle (Call.obeys_of_request hcall .new) fun s r l' hr hs => ?_
    rw [hr.2]
    exact hs.mono fun x hx => ⟨κ, hcall, hx⟩

theorem login_obeys (username password : String) :
    (login username password).Obeys
      (ends (fun a s => match a with
        | .session _ => s.Settled addsUser
        | .redirect _ _ => s.isFresh) Stage.isFresh (Stage.Settled addsUser)) .fresh := by
  refine Task.obeys_bind (Task.obeys_attempt (authenticate_obeys username password))
    fun r s hs => ?_
  cases r with
  | error e => exact Task.obeys_pure hs
  | ok user =>
    cases user with
    | none => exact Task.obeys_pure hs
    | some user => exact Task.obeys_pure hs

theorem mainStateHandler_obeys (sender : Option UInt64) (text : Option String) :
    (mainStateHandler sender text).Obeys
      (ends (fun r s => match r with
        | .notFound => s.isFresh
        | .linked _ => ∃ account u, sender = some account ∧
            s = .kept (.setUserTgHandle u (tgUserId account)))
        Stage.isFresh Stage.isFresh) .fresh := by
  unfold mainStateHandler
  cases sender with
  | none => exact Task.obeys_throw rfl
  | some account =>
    refine Task.obeys_bind (Task.obeys_mapErr (UsersService.linkUser_obeys _ _)) fun user s hs => ?_
    cases user with
    | none => exact Task.obeys_pure hs
    | some user =>
      obtain ⟨u, hs⟩ := hs
      exact Task.obeys_pure ⟨account, u, rfl, hs⟩

namespace Entry

variable (cfg : ServerConfig)

/-- What an entry may write. -/
def Writes : Entry → Write → Prop
  | .request user req, x => req.Writes cfg.hostsService user x
  | .login _ _, x => addsUser x
  | .message sender _, x => ∃ account u, sender = some account ∧
      x = .setUserTgHandle u (tgUserId account)
  | .turn, x => freesHosts x

/-- The stage that an entry ends in is the one that its answer tells of. -/
def Ends (κ : Entry) (s : Stage) : ServerLocal → Prop
  | .idle => False
  | .answered r => ∃ user req, κ = .request user req ∧
      s.Reports (req.Writes cfg.hostsService user) (Exit.done Answer.done r)
  | .loggedIn r => (∃ username password, κ = .login username password) ∧
      match r with
      | .ok (.session _) => s.Settled addsUser
      | .ok (.redirect _ _) => s.isFresh
      | .panic _ => s.Settled addsUser
  | .replied r => ∃ sender text, κ = .message sender text ∧
      match r with
      | .ok (.linked _) => ∃ account u, sender = some account ∧
          s = .kept (.setUserTgHandle u (tgUserId account))
      | _ => s.isFresh
  | .timer _ => κ = .turn ∧ s.Settled freesHosts
  | .crashed => s.isFresh ∨ κ = .turn ∧ s.Settled freesHosts

/-- **Every entry follows the rule**, and its answer tells the stage it ends in. -/
theorem obeys (κ : Entry) (l : ServerLocal) :
    (κ.body cfg l).Obeys transactions (κ.Ends cfg) .fresh := by
  have hprogram : ∀ self, (κ.program cfg self).Obeys transactions (κ.Ends cfg) .fresh := by
    intro self
    cases κ with
    | request user req =>
      refine Prog.Obeys.bind (Request.handle_obeys cfg.hostsService user req) fun s r hr => ?_
      exact ⟨user, req, rfl, hr⟩
    | login username password =>
      refine Prog.Obeys.bind (login_obeys username password) fun s r hr => ?_
      refine ⟨⟨username, password, rfl⟩, ?_⟩
      cases r with
      | ok a => cases a <;> exact hr
      | err e => cases e
      | panic msg => exact hr
    | message sender text =>
      refine Prog.Obeys.bind (mainStateHandler_obeys sender text) fun s r hr => ?_
      refine ⟨sender, text, rfl, ?_⟩
      cases r with
      | ok reply => cases reply <;> exact hr
      | err e => exact hr
      | panic msg => exact hr
    | turn =>
      refine Prog.Obeys.bind (self.turn_obeys cfg.notifier) fun s r hr => ?_
      cases r with
      | ok self' => exact ⟨rfl, hr⟩
      | err e => exact ⟨rfl, hr⟩
      | panic msg => exact .inr ⟨rfl, hr⟩
  -- A server that has crashed answers nothing any more.
  cases l with
  | crashed => exact .inl rfl
  | _ => exact hprogram _

end Entry

end Tachikoma
