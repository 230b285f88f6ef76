import Tachikoma.Proof.Atomic

/-!
# What a change rests on

Every committed change was asked for by somebody, and rests on what was found out in the same call:
a user is added for whom the directory has spoken, an account is linked by a message that has the
link code of the user, a button extends the leases of the user its account is linked to, and the
timer frees hosts that were overdue when it looked. `credentials` is the rule that says so of the
programs: `Standing` is what an entry has shown so far, and a write is allowed if that is enough for
it. `rested_of_run` says what this comes to in a run, whatever else is going on.

What was found out may have changed by the time of the write, with one exception: **an account is
permanent**. Its row stays, and keeps its name, its mail address and its link code.
-/

set_option autoImplicit false

namespace Tachikoma

open Interleaving Versioned

/-! ## Accounts are permanent -/

/-- The row of the same account; only its Telegram handle may be another. -/
structure UserRow.SameAccount (r r' : UserRow) : Prop where
  dn : r'.dn = r.dn
  email : r'.email = r.email
  link : r'.link = r.link

theorem UserRow.SameAccount.refl (r : UserRow) : r.SameAccount r := ⟨rfl, rfl, rfl⟩

theorem UserRow.SameAccount.trans {r r' r'' : UserRow} (h : r.SameAccount r')
    (h' : r'.SameAccount r'') : r.SameAccount r'' :=
  ⟨h'.dn.trans h.dn, h'.email.trans h.email, h'.link.trans h.link⟩

/-- What is pending for a user that is there is a row of the same account. -/
def Permanent (c : Cell TxId UserRow) : Prop :=
  ∀ r, c.committed = some r → ∀ x v, c.pending = some (x, v) → ∃ r', v = some r' ∧ r.SameAccount r'

theorem Permanent.view {c : Cell TxId UserRow} (h : Permanent c) {r s : UserRow} {x : TxId}
    (hr : c.committed = some r) (hs : c.view x = some s) : r.SameAccount s := by
  by_cases hheld : ∃ v, c.pending = some (x, v)
  · obtain ⟨v, hv⟩ := hheld
    obtain ⟨r', rfl, hsame⟩ := h r hr x v hv
    rw [Cell.view_of_held hv] at hs
    cases Option.some.inj hs
    exact hsame
  · rw [Cell.view_of_not_held (not_exists.mp hheld), hr] at hs
    cases Option.some.inj hs
    exact .refl r

theorem Permanent.link {c : Cell TxId UserRow} (h : Permanent c) (x : TxId) (tgHandle : String) :
    Permanent (c.write x (fun _ => true) fun r => { r with tgHandle := some tgHandle }) := by
  intro r hr y v hv
  rw [Cell.write_committed] at hr
  unfold Cell.write at hv
  split at hv
  · rename_i s hs
    simp only [if_true, Option.some.injEq, Prod.mk.injEq] at hv
    obtain ⟨-, rfl⟩ := hv
    have hsame := h.view hr hs
    exact ⟨_, rfl, hsame.dn, hsame.email, hsame.link⟩
  · exact h r hr y v hv

theorem Permanent.commit {c : Cell TxId UserRow} (h : Permanent c) (x : TxId) :
    Permanent (c.commit x) := by
  intro r hr y v hv
  rw [Cell.commit_of_pending hv] at hr hv
  exact h r hr y v hv

theorem Permanent.rollback {c : Cell TxId UserRow} (h : Permanent c) (x : TxId) :
    Permanent (c.rollback x) := by
  intro r hr y v hv
  rw [Cell.rollback_committed] at hr
  by_cases hxy : y = x
  · subst hxy
    exact absurd hv (Cell.rollback_pending_self y c v)
  · exact h r hr y v ((Cell.rollback_pending_other hxy c v).mp hv)

/-- All accounts. -/
def World.Permanent (w : World) : Prop := ∀ u, Tachikoma.Permanent (w.db.users.cell u)

section Acts

variable {p : Pid} {w w' : World} {e : Effect} {r : e.Res}

theorem Acts.permanent (h : Acts p w e r w') (hw : w.Permanent) : w'.Permanent := by
  refine h.users_cells hw (fun _ _ _ _ _ hc => hc.link _ _) (fun _ _ _ _ _ _ => ?_)
    (fun _ _ hc => hc.commit _) (fun _ _ hc => hc.rollback _)
  intro row hrow
  cases hrow

theorem Acts.sameAccount (h : Acts p w e r w') (hw : w.Permanent) {u : UserId} {row : UserRow}
    (hrow : w.user u = some row) : ∃ row', w'.user u = some row' ∧ row.SameAccount row' := by
  rcases h.user 0 u with ⟨-, x, hp⟩ | heq
  · obtain ⟨row', hrow', hsame⟩ := hw u row hrow x _ hp
    exact ⟨row', hrow', hsame⟩
  · exact ⟨row, heq.trans hrow, .refl row⟩

end Acts

/-! ## What an entry has shown -/

inductive Credential where
  | nothing
  /-- The directory knows the login. -/
  | found (login : String) (info : AdUserInfo)
  /-- It accepts the password. -/
  | bound (login : String) (info : AdUserInfo) (password : String)
  /-- The link code is this user's. -/
  | knows (link : String) (user : User)
  /-- The account is linked to this user. -/
  | pressed (tgHandle : String) (user : User)
  /-- And these are the hosts that the user has until then. -/
  | expiring (tgHandle : String) (user : User) (before : Time) (hosts : List LeasedHost)
  /-- The hosts whose time was over. -/
  | overdue (until_ : Time) (hosts : List LeasedHost)

/-- An entry in the middle of its work: what it has shown, the last reading of the clock, and
    whether it has written already. -/
structure Standing where
  entry : Entry
  clock : Option Time
  shown : Credential
  spent : Bool

namespace Standing

/-- At the beginning of an entry. -/
def start (κ : Entry) : Standing := ⟨κ, none, .nothing, false⟩

/-- After the directory was asked for a login. -/
def found (s : Standing) (login : String) : Except Unit (Option AdUserInfo) → Credential
  | .ok (some info) => .found login info
  | _ => s.shown

/-- After a bind. -/
def bound (s : Standing) (userDn password : String) : Except Unit Unit → Credential
  | .ok _ =>
    match s.shown with
    | .found login info => if userDn = info.dn then .bound login info password else s.shown
    | _ => s.shown
  | .error _ => s.shown

/-- After the hosts of a user were read. -/
def expiring (s : Standing) (userId : UserId) (before : Time) (hosts : List LeasedHost) :
    Credential :=
  match s.shown with
  | .pressed tgHandle user =>
    if userId = user.id then .expiring tgHandle user before hosts else s.shown
  | _ => s.shown

/-- After a statement that reads. -/
def read (s : Standing) : (q : Select) → Except SqlxError q.Rows → Credential
  | .getUserByLink link, .ok (some user) => .knows link user
  | .getUserByTgHandle tgHandle, .ok (some user) => .pressed tgHandle user
  | .getExpiringHostsForUser userId before, .ok hosts => s.expiring userId before hosts
  | .getLeasedUntilHosts until_, .ok hosts => .overdue until_ hosts
  | _, _ => s.shown

/-- After a statement that writes. -/
def executed (s : Standing) (x : Write) : Except SqlxError x.Res → Bool
  | .ok _ => true
  | .error _ => s.spent

def next (s : Standing) : (e : Effect) → e.Res → Standing
  | .now, now => { s with clock := some now }
  | .findUserInfo login, r => { s with shown := s.found login r }
  | .simpleBind userDn password, r => { s with shown := s.bound userDn password r }
  | .fetch _ q, r => { s with shown := if s.spent then s.shown else s.read q r }
  | .execute _ x, r => { s with spent := s.executed x r }
  | _, _ => s

/-- The write is one that may be done on the strength of what was shown. A lease and a release are
    the user's own. -/
def Entitled (s : Standing) : Write → Prop
  | .addUser dn tgHandle email => ∃ login info password, s.entry = .login login password ∧
      s.shown = .bound login info password ∧ password ≠ "" ∧ dn = info.dn ∧ tgHandle = none ∧
      email = info.email
  | .setUserTgHandle u tgHandle => ∃ account text user, s.entry = .message (some account) text ∧
      s.shown = .knows (linkCode text) user ∧ u = user.id ∧ tgHandle = tgUserId account
  | .hosts (.freeHosts ids) => s.entry = .turn ∧ ∃ now hosts, s.clock = some now ∧
      s.shown = .overdue now hosts ∧ ids = hosts.map (·.id)
  | .hosts (.extendHostsLease ids hours) => ∃ user account data linked now hosts,
      s.entry = .request user (.extendCallback account data) ∧ callbackHours data = some hours ∧
      0 < hours ∧ s.clock = some now ∧
      s.shown = .expiring (tgUserId account) linked (now + EXPIRATION_NOTIFY_WINDOW) hosts ∧
      ids = hosts.map (·.id)
  | .hosts (.leaseHosts u _ _) => ∃ user req, s.entry = .request user req ∧ u = user.id
  | .hosts (.freeHostsForUser _ u) => ∃ user req, s.entry = .request user req ∧ u = user.id
  | .hosts (.freeAll u) => ∃ user req, s.entry = .request user req ∧ u = user.id

/-- Only writes ask for anything to be shown. -/
def allows (s : Standing) (e : Effect) : Prop := ∀ tx x, e = .execute tx x → s.Entitled x

/-- An entry stays what it is. -/
theorem next_entry (s : Standing) (e : Effect) (r : e.Res) : (s.next e r).entry = s.entry := by
  cases e <;> rfl

end Standing

/-- The entry may do the write without having shown anything. -/
def Entry.Owns (κ : Entry) (x : Write) : Prop := ∀ s : Standing, s.entry = κ → s.Entitled x

/-- The rule. -/
def credentials : Discipline Effect Effect.Res Standing := ⟨Standing.allows, Standing.next⟩

/-! ## How tasks follow it -/

namespace Task

variable {ε ε' α β : Type} {s : Standing} {Q : α → Standing → Prop}

/-- The task follows the rule from the standing `s` on; where it ends with a value, `Q` holds. -/
def Shows (x : Task ε α) (s : Standing) (Q : α → Standing → Prop) : Prop :=
  Prog.Obeys credentials (fun s r => ∀ a, r = .ok a → Q a s) x s

theorem shows_pure {a : α} (h : Q a s) : (pure a : Task ε α).Shows s Q := by
  intro b hb
  cases hb
  exact h

theorem shows_throw {e : ε} : (Task.throw e : Task ε α).Shows s Q := fun _ ha => by cases ha

theorem shows_panic {msg : String} : (Task.panic msg : Task ε α).Shows s Q :=
  fun _ ha => by cases ha

theorem shows_bind {x : Task ε β} {f : β → Task ε α}
    (h : x.Shows s fun b s' => (f b).Shows s' Q) : (x >>= f).Shows s Q := by
  refine Prog.Obeys.bind h fun s r hr => ?_
  cases r with
  | ok b => exact hr b rfl
  | err e => exact shows_throw
  | panic msg => exact shows_panic

theorem Shows.mono {Q' : α → Standing → Prop} {x : Task ε α} (h : x.Shows s Q)
    (hQ : ∀ a s, Q a s → Q' a s) : x.Shows s Q' :=
  Prog.Obeys.mono (fun s _ hr a ha => hQ a s (hr a ha)) h

theorem shows_mapErr {f : ε' → ε} {x : Task ε' α} (h : x.Shows s Q) : (x.mapErr f).Shows s Q := by
  refine Prog.Obeys.bind h fun s r hr => ?_
  cases r with
  | ok a => exact shows_pure (hr a rfl)
  | err e => exact shows_throw
  | panic msg => exact shows_panic

theorem shows_attempt {Q : Except ε' α → Standing → Prop} {x : Task ε' α}
    (h : x.Shows s fun a => Q (.ok a)) (herr : ∀ e s, Q (.error e) s) :
    (x.attempt : Task ε (Except ε' α)).Shows s Q := by
  refine Prog.Obeys.bind h fun s r hr => ?_
  cases r with
  | ok a => exact shows_pure (hr a rfl)
  | err e => exact shows_pure (herr e s)
  | panic msg => exact shows_panic

theorem shows_fetch {tx : RegistryTx} {q : Select} {Q : q.Rows → Standing → Prop}
    (h : ∀ rows, Q rows (s.next (.fetch tx q) (.ok rows))) : (tx.fetch q).Shows s Q := by
  refine ⟨fun _ _ he => (by cases he), fun r => ?_⟩
  cases r with
  | ok rows => exact shows_pure (h rows)
  | error e => exact shows_throw

theorem shows_execute {tx : RegistryTx} {x : Write} {Q : x.Res → Standing → Prop}
    (hx : s.Entitled x) (h : ∀ a, Q a (s.next (.execute tx x) (.ok a))) :
    (tx.execute x).Shows s Q := by
  refine ⟨fun _ _ he => ?_, fun r => ?_⟩
  · cases he
    exact hx
  · cases r with
    | ok a => exact shows_pure (h a)
    | error e => exact shows_throw

theorem shows_commit {tx : RegistryTx} {Q : Unit → Standing → Prop} (h : Q () s) :
    tx.commit.Shows s Q := by
  refine ⟨fun _ _ he => (by cases he), fun r => ?_⟩
  cases r with
  | ok a => exact shows_pure h
  | error e => exact shows_throw

theorem shows_utcNow {Q : Time → Standing → Prop} (h : ∀ now, Q now { s with clock := some now }) :
    (utcNow : Task ε Time).Shows s Q :=
  ⟨fun _ _ he => (by cases he), fun now => shows_pure (h now)⟩

theorem shows_withTx {f : SqlxError → ε} {scope : RegistryTx → Task ε α}
    (h : ∀ tx, (scope tx).Shows s Q) : (withTx f scope).Shows s Q := by
  refine ⟨fun _ _ he => (by cases he), fun r => ?_⟩
  cases r with
  | error e => exact shows_throw
  | ok tx =>
    refine Prog.Obeys.bind (h tx) fun s r hr => ?_
    exact ⟨fun _ _ he => (by cases he), fun _ => hr⟩

/-- What asks only for writes that are the entry's own can do what it likes. -/
theorem shows_of_emits {x : Task ε α} (hx : Prog.Emits (Writes s.entry.Owns) x)
    (hQ : ∀ a s', s'.entry = s.entry → Q a s') : x.Shows s Q := by
  have hobeys : ∀ s' : Standing, s'.entry = s.entry →
      Prog.Obeys credentials (fun s r => ∀ a, r = .ok a → Q a s) x s' := by
    induction x with
    | ret r => exact fun s' hs' a _ => hQ a s' hs'
    | op e k ih =>
      intro s' hs'
      exact ⟨fun tx y he => hx.1 tx y he s' hs', fun r =>
        ih r (hx.2 r) _ ((s'.next_entry e r).trans hs')⟩
  exact hobeys s rfl

theorem shows_quiet {x : Task ε α} (hx : Prog.Emits Quiet x) (hQ : ∀ a s', Q a s') : x.Shows s Q :=
  shows_of_emits (Prog.Emits.mono (fun _ he tx y hy => absurd hy (he.1 tx y)) hx) fun a s' _ =>
    hQ a s'

end Task

/-! ## The programs -/

section Programs

variable {s : Standing}

theorem linkUser_shows {account : UInt64} {text : Option String}
    (hentry : s.entry = .message (some account) text) (hspent : s.spent = false) :
    (UsersService.linkUser (linkCode text) (tgUserId account)).Shows s fun _ _ => True := by
  refine Task.shows_withTx fun tx => ?_
  refine Task.shows_bind (Task.shows_mapErr (Task.shows_fetch fun user => ?_))
  cases user with
  | none => exact Task.shows_pure trivial
  | some user =>
    refine Task.shows_bind (Task.shows_mapErr (Task.shows_execute ?_ fun _ => ?_))
    · simp only [Standing.next, hspent, Bool.false_eq_true, if_false, Standing.read]
      exact ⟨account, text, user, hentry, rfl, rfl, rfl⟩
    · refine Task.shows_bind (Task.shows_mapErr (Task.shows_fetch fun user => ?_))
      cases user with
      | none => exact Task.shows_panic
      | some user =>
        exact Task.shows_bind (Task.shows_mapErr (Task.shows_commit (Task.shows_pure trivial)))

theorem extendUserHosts_shows {user : AuthUser} {account : UInt64} {data : Option String}
    {hours : Int32} (hentry : s.entry = .request user (.extendCallback account data))
    (hhours : callbackHours data = some hours) (hpos : 0 < hours) (hspent : s.spent = false) :
    (extendUserHosts (tgUserId account) hours).Shows s fun _ _ => True := by
  refine Task.shows_withTx fun tx => ?_
  refine Task.shows_bind (Task.shows_mapErr (Task.shows_fetch fun linked => ?_))
  cases linked with
  | none => exact Task.shows_throw
  | some linked =>
    refine Task.shows_bind (Task.shows_utcNow fun now => ?_)
    refine Task.shows_bind (Task.shows_mapErr (Task.shows_fetch fun expiring => ?_))
    split
    · exact Task.shows_pure trivial
    · refine Task.shows_bind (Task.shows_mapErr (Task.shows_execute ?_ fun _ => ?_))
      · simp only [Standing.next, hspent, Bool.false_eq_true, if_false, Standing.read,
          Standing.expiring, if_true]
        exact ⟨user, account, data, linked, now, expiring, hentry, hhours, hpos, rfl, rfl, rfl⟩
      · refine Task.shows_bind (Task.shows_mapErr (Task.shows_fetch fun updated => ?_))
        refine Task.shows_bind (Task.shows_mapErr (Task.shows_commit ?_))
        exact Task.shows_bind (Task.shows_quiet (quiet_updatedLines _ _) fun _ _ =>
          Task.shows_pure trivial)

theorem findUserInfo_shows (login : String) :
    (UsersInfo.findUserInfo login).Shows s fun info s' =>
      s' = { s with shown := s.found login (.ok info) } := by
  refine ⟨fun _ _ he => (by cases he), fun r => ?_⟩
  cases r with
  | ok info => exact Task.shows_pure rfl
  | error e => exact Task.shows_throw

/-- An empty password never reaches the directory. -/
theorem checkAuthentication_shows {login password : String} {info : AdUserInfo}
    (hfound : s.shown = .found login info) :
    (UsersInfo.checkAuthentication info.dn password).Shows s fun _ s' =>
      s' = { s with shown := .bound login info password } ∧ password ≠ "" := by
  unfold UsersInfo.checkAuthentication
  split
  · exact Task.shows_throw
  · rename_i hpassword
    refine ⟨fun _ _ he => (by cases he), fun r => ?_⟩
    cases r with
    | ok a =>
      refine Task.shows_pure ⟨?_, hpassword⟩
      show { s with shown := s.bound info.dn password (.ok a) } = _
      simp only [Standing.bound, hfound, if_true]
    | error e => exact Task.shows_throw

theorem authenticate_shows {username password : String}
    (hentry : s.entry = .login username password) (hspent : s.spent = false) :
    (authenticate username password).Shows s fun _ _ => True := by
  refine Task.shows_bind (Task.shows_mapErr ((findUserInfo_shows username).mono ?_))
  intro info s' hs'
  subst hs'
  cases info with
  | none => exact Task.shows_pure trivial
  | some uInfo =>
    refine Task.shows_bind (Task.shows_attempt ((checkAuthentication_shows rfl).mono ?_)
      fun _ _ => Task.shows_pure trivial)
    intro _ s' hs'
    obtain ⟨rfl, hpassword⟩ := hs'
    -- The two transactions of the registry: a look, and for a new account a write.
    refine Task.shows_bind (Task.shows_withTx fun tx =>
      Task.shows_mapErr (Task.shows_fetch fun user => ?_))
    cases user with
    | some user => exact Task.shows_pure trivial
    | none =>
      refine Task.shows_bind (Task.shows_withTx fun tx => ?_)
      refine Task.shows_bind (Task.shows_mapErr (Task.shows_execute ?_ fun _ => ?_))
      · simp only [Standing.next, hspent, Bool.false_eq_true, if_false, Standing.read]
        exact ⟨username, uInfo, password, hentry, rfl, hpassword, rfl, rfl, rfl⟩
      · refine Task.shows_bind (Task.shows_mapErr (Task.shows_fetch fun user => ?_))
        refine Task.shows_bind (Task.shows_mapErr (Task.shows_commit ?_))
        cases user with
        | none => exact Task.shows_panic
        | some user => exact Task.shows_pure (Task.shows_pure trivial)

theorem release_shows (self : ReleaseTimer) (hentry : s.entry = .turn) (hspent : s.spent = false) :
    self.release.Shows s fun _ _ => True := by
  refine Task.shows_withTx fun tx => ?_
  refine Task.shows_bind (Task.shows_utcNow fun now => ?_)
  refine Task.shows_bind (Task.shows_mapErr (Task.shows_fetch fun expired => ?_))
  split
  · exact Task.shows_pure trivial
  · refine Task.shows_bind (Task.shows_mapErr (Task.shows_execute ?_ fun _ => ?_))
    · simp only [Standing.next, hspent, Bool.false_eq_true, if_false, Standing.read]
      exact ⟨hentry, now, expired, rfl, rfl, rfl⟩
    · refine Task.shows_bind (Task.shows_mapErr (Task.shows_commit ?_))
      exact Task.shows_bind (Task.shows_quiet quiet_hashOrder fun _ _ => Task.shows_pure trivial)

end Programs

/-! ## The entries -/

/-- A request that is no press of a button writes for its own user. -/
theorem Request.owns_of_writes {service : HostsService} {user : AuthUser} {req : Request} {κ : Call}
    (hbutton : ∀ account data, req ≠ .extendCallback account data)
    (hcall : req.call service user = some κ) {y : Write} (hy : κ.writes y) :
    (Entry.request user req).Owns y := by
  intro s hs
  rcases Request.call_cases hcall with ⟨ids, d, rfl⟩ | ⟨d, g, rfl⟩ | ⟨ids, rfl⟩ | rfl |
    ⟨tg, hours, rfl⟩
  · obtain ⟨t, rfl⟩ := hy
    exact ⟨user, req, hs, rfl⟩
  · obtain ⟨id, t, rfl⟩ := hy
    exact ⟨user, req, hs, rfl⟩
  · have hy : y = .hosts (.freeHostsForUser ids user.id) := hy
    subst hy
    exact ⟨user, req, hs, rfl⟩
  · have hy : y = .hosts (.freeAll user.id) := hy
    subst hy
    exact ⟨user, req, hs, rfl⟩
  · cases req with
    | extendCallback account data => exact absurd rfl (hbutton account data)
    | _ => simp [Request.call, Option.bind_eq_some_iff] at hcall

theorem answerExtendCallback_shows {s : Standing} {user : AuthUser} {account : UInt64}
    {data : Option String} (hentry : s.entry = .request user (.extendCallback account data))
    (hspent : s.spent = false) :
    (answerExtendCallback (tgUserId account) data).Shows s fun _ _ => True := by
  unfold answerExtendCallback
  split
  · exact Task.shows_pure trivial
  · rename_i hours hhours
    split
    · exact Task.shows_pure trivial
    · rename_i hpos
      refine Task.shows_bind (Task.shows_attempt ?_ fun _ _ => Task.shows_pure trivial)
      refine (extendUserHosts_shows hentry hhours ?_ hspent).mono fun _ _ _ =>
        Task.shows_pure trivial
      exact Int32.not_le.mp hpos

theorem Request.handle_shows (req : Request) (service : HostsService) (user : AuthUser)
    {s : Standing} (hentry : s.entry = .request user req) (hspent : s.spent = false) :
    (req.handle service user).Shows s fun _ _ => True := by
  by_cases hbutton : ∃ account data, req = .extendCallback account data
  · obtain ⟨account, data, rfl⟩ := hbutton
    exact answerExtendCallback_shows hentry hspent
  · have hbutton : ∀ account data, req ≠ .extendCallback account data :=
      fun account data h => hbutton ⟨account, data, h⟩
    refine Task.shows_of_emits ?_ fun _ _ _ => trivial
    have hdoes := Request.handle_doesCall service user req
    have hidle : ∀ e, Idle e → Tachikoma.Writes s.entry.Owns e := by
      intro e he tx y hy
      cases he.symm.trans hy
    cases hcall : req.call service user with
    | none =>
      rw [hcall] at hdoes
      exact hdoes.idle.mono hidle
    | some κ =>
      rw [hcall] at hdoes
      refine (hdoes ReleaseTimer.new).emits hidle (Prog.Emits.mono (fun e he tx y hy => ?_)
        (κ.emits .idle))
      rw [hentry]
      exact Request.owns_of_writes hbutton hcall (he tx y hy)

theorem ReleaseTimer.releaseAndReport_shows (self : ReleaseTimer) (notifier : Option Notifier)
    {s : Standing} (hentry : s.entry = .turn) (hspent : s.spent = false) :
    (self.releaseAndReport notifier).Shows s fun _ _ => True := by
  refine Task.shows_bind (Task.shows_attempt ((release_shows self hentry hspent).mono
    fun r _ _ => ?_) fun _ _ => Task.shows_pure trivial)
  obtain ⟨hosts, self'⟩ := r
  cases hosts with
  | nil => exact Task.shows_pure trivial
  | cons host hosts =>
    cases notifier with
    | none => exact Task.shows_pure trivial
    | some notifier =>
      refine Task.shows_bind (Task.shows_quiet ?_ fun _ _ => Task.shows_pure trivial)
      exact Task.emits_attempt (quiet_notifyReleasedHosts notifier (host :: hosts))

theorem ReleaseTimer.turn_shows (self : ReleaseTimer) (notifier : Option Notifier) {s : Standing}
    (hentry : s.entry = .turn) (hspent : s.spent = false) :
    (self.turn notifier).Shows s fun _ _ => True :=
  Task.shows_bind ((self.releaseAndReport_shows notifier hentry hspent).mono fun self' _ _ =>
    Task.shows_quiet (quiet_announce self' notifier) fun _ _ => trivial)

theorem login_shows {username password : String} {s : Standing}
    (hentry : s.entry = .login username password) (hspent : s.spent = false) :
    (login username password).Shows s fun _ _ => True := by
  refine Task.shows_bind (Task.shows_attempt ((authenticate_shows hentry hspent).mono
    fun user _ _ => ?_) fun _ _ => Task.shows_pure trivial)
  cases user with
  | none => exact Task.shows_pure trivial
  | some user => exact Task.shows_pure trivial

theorem mainStateHandler_shows {sender : Option UInt64} {text : Option String} {s : Standing}
    (hentry : s.entry = .message sender text) (hspent : s.spent = false) :
    (mainStateHandler sender text).Shows s fun _ _ => True := by
  cases sender with
  | none => exact Task.shows_throw
  | some account =>
    refine Task.shows_bind (Task.shows_mapErr ((linkUser_shows hentry hspent).mono
      fun user _ _ => ?_))
    cases user with
    | none => exact Task.shows_pure trivial
    | some user => exact Task.shows_pure trivial

/-- **Every entry follows the rule.** -/
theorem Entry.shows (cfg : ServerConfig) (κ : Entry) (l : ServerLocal) :
    (κ.body cfg l).Obeys credentials (fun _ _ => True) (.start κ) := by
  have hprogram : ∀ self, (κ.program cfg self).Obeys credentials (fun _ _ => True) (.start κ) := by
    intro self
    cases κ with
    | request user req =>
      exact Prog.Obeys.bind (req.handle_shows cfg.hostsService user rfl rfl) fun _ _ _ => trivial
    | login username password => exact Prog.Obeys.bind (login_shows rfl rfl) fun _ _ _ => trivial
    | message sender text =>
        exact Prog.Obeys.bind (mainStateHandler_shows rfl rfl) fun _ _ _ => trivial
    | turn => exact Prog.Obeys.bind (self.turn_shows cfg.notifier rfl rfl) fun _ _ _ => trivial
  cases l with
  | crashed => exact trivial
  | _ => exact hprogram _

/-! ## What it means -/

/-- The `n`-th call of `p` has asked for the effect in the world `w`, and this was the answer. -/
def Asked (p : Pid) (n : Nat) (e : Effect) (r : e.Res) (w : World) (tr : ServerTrace) : Prop :=
  ∃ w', Event.did p n e r w w' ∈ tr

/-- Somebody has asked for the write, which is the statement of the `n`-th call of `p` in the world
    `w`; and what the call has found out before is reason enough for it. -/
def Rests (p : Pid) (n : Nat) (w : World) (tr : ServerTrace) : Write → Prop
  | .addUser dn tgHandle email => ∃ login password info,
      Event.called p n (.login login password) ∈ tr ∧ password ≠ "" ∧
      (∃ w₁, Asked p n (.findUserInfo login) (.ok (some info)) w₁ tr) ∧
      (∃ w₂, Asked p n (.simpleBind info.dn password) (.ok ()) w₂ tr) ∧
      dn = info.dn ∧ tgHandle = none ∧ email = info.email
  | .setUserTgHandle u tgHandle => ∃ account text,
      Event.called p n (.message (some account) text) ∈ tr ∧ tgHandle = tgUserId account ∧
      ∃ row, w.user u = some row ∧ row.link = linkCode text
  | .hosts (.freeHosts ids) => Event.called p n .turn ∈ tr ∧
      ∃ (now : Time) (w₁ : World) (tx : RegistryTx) (hosts : List LeasedHost) (w₂ : World),
      Asked p n .now now w₁ tr ∧
        Asked p n (.fetch tx (.getLeasedUntilHosts now)) (.ok hosts) w₂ tr ∧
      ∀ id ∈ ids, ∃ row, w₂.host id = some row ∧ expiresBefore now row = true
  | .hosts (.extendHostsLease ids hours) => ∃ user account data,
      Event.called p n (.request user (.extendCallback account data)) ∈ tr ∧
      callbackHours data = some hours ∧ 0 < hours ∧
      ∃ (u : User) (now : Time) (w₁ : World) (tx : RegistryTx) (w₂ : World) (tx' : RegistryTx)
        (hosts : List LeasedHost) (w₃ : World),
      Asked p n .now now w₁ tr ∧
      Asked p n (.fetch tx (.getUserByTgHandle (tgUserId account))) (.ok (some u)) w₂ tr ∧
      (∃ row, w₂.user u.id = some row ∧ row.tgHandle = some (tgUserId account)) ∧
      Asked p n (.fetch tx' (.getExpiringHostsForUser u.id (now + EXPIRATION_NOTIFY_WINDOW)))
        (.ok hosts) w₃ tr ∧
      ∀ id ∈ ids, ∃ row, w₃.host id = some row ∧ row.userId = some u.id ∧
        expiresBefore (now + EXPIRATION_NOTIFY_WINDOW) row = true
  | .hosts (.leaseHosts u _ _) =>
      ∃ user req, Event.called p n (.request user req) ∈ tr ∧ u = user.id
  | .hosts (.freeHostsForUser _ u) => ∃ user req,
      Event.called p n (.request user req) ∈ tr ∧ u = user.id
  | .hosts (.freeAll u) => ∃ user req, Event.called p n (.request user req) ∈ tr ∧ u = user.id

/-- Every statement that wrote something rests on something that had happened before. -/
def AllRest (tr : ServerTrace) : Prop := ∀ newer older p n tx x a w w',
  tr = newer ++ Event.did p n (.execute tx x) (.ok a) w w' :: older → Rests p n w older x

namespace Credential

/-- The account is linked to the user when this is looked up. -/
def Linked (p : Pid) (n : Nat) (tr : ServerTrace) (tgHandle : String) (user : User) : Prop :=
  ∃ tx w row, Asked p n (.fetch tx (.getUserByTgHandle tgHandle)) (.ok (some user)) w tr ∧
    w.user user.id = some row ∧ row.tgHandle = some tgHandle

/-- What a credential says is so. -/
def Holds (p : Pid) (n : Nat) (h : ServerHistory) : Credential → Prop
  | .nothing => True
  | .found login info => ∃ w, Asked p n (.findUserInfo login) (.ok (some info)) w h.trace
  | .bound login info password =>
      (∃ w, Asked p n (.findUserInfo login) (.ok (some info)) w h.trace) ∧
      ∃ w, Asked p n (.simpleBind info.dn password) (.ok ()) w h.trace
  | .knows link user => ∃ row, h.state.user user.id = some row ∧ row.link = link
  | .pressed tgHandle user => Linked p n h.trace tgHandle user
  | .expiring tgHandle user before hosts => Linked p n h.trace tgHandle user ∧ ∃ tx w,
      Asked p n (.fetch tx (.getExpiringHostsForUser user.id before)) (.ok hosts) w h.trace ∧
      ∀ host ∈ hosts, ∃ row, w.host host.id = some row ∧ row.userId = some user.id ∧
        expiresBefore before row = true
  | .overdue until_ hosts => ∃ tx w,
      Asked p n (.fetch tx (.getLeasedUntilHosts until_)) (.ok hosts) w h.trace ∧
      ∀ host ∈ hosts, ∃ row, w.host host.id = some row ∧ expiresBefore until_ row = true

end Credential

/-- What is shown holds, and nothing is pending before the write. -/
structure Standing.Means (p : Pid) (n : Nat) (κ : Entry) (s : Standing) (h : ServerHistory) :
    Prop where
  entry : s.entry = κ
  called : Event.called p n κ ∈ h.trace
  clock : ∀ now, s.clock = some now → ∃ w, Asked p n .now now w h.trace
  clean : s.spent = false → Clean p h.state
  shown : s.shown.Holds p n h

section Traces

variable {p : Pid} {n : Nat} {w : World} {tr : ServerTrace}

theorem Asked.cons {e : Effect} {r : e.Res} (h : Asked p n e r w tr) (ev : ServerEvent) :
    Asked p n e r w (ev :: tr) := by
  obtain ⟨w', hev⟩ := h
  exact ⟨w', List.mem_cons_of_mem _ hev⟩

theorem Credential.Linked.cons {tgHandle : String} {user : User} (h : Linked p n tr tgHandle user)
    (ev : ServerEvent) : Linked p n (ev :: tr) tgHandle user := by
  obtain ⟨tx, w, row, hasked, hrow⟩ := h
  exact ⟨tx, w, row, hasked.cons ev, hrow⟩

theorem Rests.cons {x : Write} (h : Rests p n w tr x) (ev : ServerEvent) :
    Rests p n w (ev :: tr) x := by
  -- What was called and asked for stays in the trace; the rest is about the state at the statement.
  cases x with
  | addUser dn tgHandle email =>
    obtain ⟨login, password, info, hcalled, hpassword, ⟨w₁, hfound⟩, ⟨w₂, hbound⟩, hrow⟩ := h
    exact ⟨login, password, info, List.mem_cons_of_mem _ hcalled, hpassword, ⟨w₁, hfound.cons ev⟩,
      ⟨w₂, hbound.cons ev⟩, hrow⟩
  | setUserTgHandle u tgHandle =>
    obtain ⟨account, text, hcalled, hrow⟩ := h
    exact ⟨account, text, List.mem_cons_of_mem _ hcalled, hrow⟩
  | hosts x =>
    cases x with
    | freeHosts ids =>
      obtain ⟨hcalled, now, w₁, tx, hosts, w₂, hnow, hread, hover⟩ := h
      exact ⟨List.mem_cons_of_mem _ hcalled, now, w₁, tx, hosts, w₂, hnow.cons ev, hread.cons ev,
        hover⟩
    | extendHostsLease ids hours =>
      obtain ⟨user, account, data, hcalled, hhours, hpos, u, now, w₁, tx, w₂, tx', hosts, w₃, hnow,
        hlinked, hrow, hread, hheld⟩ := h
      exact ⟨user, account, data, List.mem_cons_of_mem _ hcalled, hhours, hpos, u, now, w₁, tx, w₂,
        tx', hosts, w₃, hnow.cons ev, hlinked.cons ev, hrow, hread.cons ev, hheld⟩
    | leaseHosts u ids d =>
      obtain ⟨user, req, hcalled, hu⟩ := h
      exact ⟨user, req, List.mem_cons_of_mem _ hcalled, hu⟩
    | freeHostsForUser ids u =>
      obtain ⟨user, req, hcalled, hu⟩ := h
      exact ⟨user, req, List.mem_cons_of_mem _ hcalled, hu⟩
    | freeAll u =>
      obtain ⟨user, req, hcalled, hu⟩ := h
      exact ⟨user, req, List.mem_cons_of_mem _ hcalled, hu⟩

theorem Rests.append {x : Write} (h : Rests p n w tr x) (newer : ServerTrace) :
    Rests p n w (newer ++ tr) x := by
  induction newer with
  | nil => exact h
  | cons ev newer ih => exact ih.cons ev

theorem allRest_nil : AllRest [] := by
  intro newer older p n tx x a w w' heq
  exact absurd heq.symm (List.append_ne_nil_of_right_ne_nil newer (List.cons_ne_nil _ older))

/-- An event that is no statement that wrote something adds nothing to show. -/
theorem AllRest.cons (h : AllRest tr) {ev : ServerEvent}
    (hev : ∀ p n tx x a w w', ev = .did p n (.execute tx x) (.ok a) w w' → Rests p n w tr x) :
    AllRest (ev :: tr) := by
  intro newer older p n tx x a w w' heq
  cases newer with
  | nil =>
    obtain ⟨rfl, rfl⟩ := List.cons.inj heq
    exact hev p n tx x a w w' rfl
  | cons ev' newer => exact h newer older p n tx x a w w' (List.cons.inj heq).2

end Traces

/-! ## Every step -/

section Step

variable {p : Pid} {n : Nat} {κ : Entry} {h : ServerHistory} {s : Standing} {e : Effect} {env : Env}
  {r : e.Res} {w' : World}

/-- A credential is good for all that follows. -/
theorem Credential.Holds.push {cr : Credential} (hcr : cr.Holds p n h) {ev : ServerEvent}
    (haccounts : ∀ u row, h.state.user u = some row →
      ∃ row', (h.push ev).state.user u = some row' ∧ row.SameAccount row') :
    cr.Holds p n (h.push ev) := by
  -- An event in the trace is still there, and a user keeps the link code that he has.
  cases cr with
  | nothing => trivial
  | found login info =>
    obtain ⟨w, hw⟩ := hcr
    exact ⟨w, by rw [Hist.push_trace]; exact hw.cons ev⟩
  | bound login info password =>
    obtain ⟨⟨w, hw⟩, w₁, hw₁⟩ := hcr
    exact ⟨⟨w, by rw [Hist.push_trace]; exact hw.cons ev⟩, w₁,
      by rw [Hist.push_trace]; exact hw₁.cons ev⟩
  | knows link user =>
    obtain ⟨row, hrow, hlink⟩ := hcr
    obtain ⟨row', hrow', hsame⟩ := haccounts user.id row hrow
    exact ⟨row', hrow', hsame.link.trans hlink⟩
  | pressed tgHandle user =>
    have hcr : Linked p n h.trace tgHandle user := hcr
    show Linked p n (h.push ev).trace tgHandle user
    rw [Hist.push_trace]
    exact hcr.cons ev
  | expiring tgHandle user before hosts =>
    obtain ⟨hlinked, tx, w, hw, hheld⟩ := hcr
    refine ⟨?_, tx, w, ?_, hheld⟩
    · rw [Hist.push_trace]
      exact hlinked.cons ev
    · rw [Hist.push_trace]
      exact hw.cons ev
  | overdue until_ hosts =>
    obtain ⟨tx, w, hw, hover⟩ := hcr
    refine ⟨tx, w, ?_, hover⟩
    rw [Hist.push_trace]
    exact hw.cons ev

theorem accounts_push (ev : ServerEvent) (hp : h.state.Permanent)
    (hlegal : ∀ q m e r w w', ev = .did q m e r w w' → w = h.state ∧ Acts q h.state e r w')
    (u : UserId) (row : UserRow) (hrow : h.state.user u = some row) :
    ∃ row', (h.push ev).state.user u = some row' ∧ row.SameAccount row' := by
  cases ev with
  | called q m κ => exact ⟨row, hrow, .refl row⟩
  | did q m e r w w' =>
    obtain ⟨rfl, hacts⟩ := hlegal q m e r w w' rfl
    exact hacts.sameAccount hp hrow

/-- What the standing means, as far as an event has not changed it. -/
theorem Standing.Means.push (hA : s.Means p n κ h) {ev : ServerEvent} {s' : Standing}
    (hentry : s'.entry = s.entry)
    (hclock : ∀ now, s'.clock = some now → s.clock = some now ∨
      ∃ w, Asked p n .now now w (h.push ev).trace)
    (hclean : s'.spent = false → Clean p (h.push ev).state)
    (hshown : s'.shown.Holds p n (h.push ev)) : s'.Means p n κ (h.push ev) := by
  refine ⟨hentry.trans hA.entry, ?_, fun now hnow => ?_, hclean, hshown⟩
  · rw [Hist.push_trace]
    exact List.mem_cons_of_mem _ hA.called
  · rcases hclock now hnow with hnow | hnow
    · obtain ⟨w, hw⟩ := hA.clock now hnow
      exact ⟨w, by rw [Hist.push_trace]; exact hw.cons ev⟩
    · exact hnow

/-- An event that has asked for this. -/
theorem asked_push (w' : World) :
    Asked p n e r h.state (h.push (.did p n e r h.state w')).trace := by
  rw [Hist.push_trace]
  exact ⟨w', List.mem_cons_self⟩

/-- What a statement that reads has shown. -/
theorem Standing.holds_read {tx : RegistryTx} {q : Select} {rows : q.Rows} {order : List Nat}
    (hclean : Clean p h.state)
    (hrun : (.ok rows : Except SqlxError q.Rows) = q.run order (h.state.db.view ⟨p, tx.no⟩))
    (hkeep : s.shown.Holds p n (h.push (.did p n (.fetch tx q) (.ok rows) h.state h.state))) :
    (s.read q (.ok rows)).Holds p n
      (h.push (.did p n (.fetch tx q) (.ok rows) h.state h.state)) := by
  have huser : ∀ {u : User}, u ∈ (h.state.db.view ⟨p, tx.no⟩).users →
      h.state.user u.id = some u.toUserRow := fun hu =>
    (hclean.view_user tx _).symm.trans (mem_view_users.mp hu)
  -- The transaction sees the committed rows, as the task has nothing pending.
  cases q with
  | getUserByLink link =>
    cases rows with
    | none => exact hkeep
    | some user =>
      have hmem := mem_of_head?_arrange (Except.ok.inj hrun).symm
      rw [List.mem_filter] at hmem
      exact ⟨_, huser hmem.1, of_decide_eq_true hmem.2⟩
  | getUserByTgHandle tgHandle =>
    cases rows with
    | none => exact hkeep
    | some user =>
      have hmem := mem_of_head?_arrange (Except.ok.inj hrun).symm
      rw [List.mem_filter] at hmem
      exact ⟨tx, h.state, _, asked_push h.state, huser hmem.1, of_decide_eq_true hmem.2⟩
  | getExpiringHostsForUser userId before =>
    show (s.expiring userId before rows).Holds p n _
    unfold Standing.expiring
    split
    · rename_i tgHandle user hpressed
      split
      · rename_i hid
        subst hid
        rw [hpressed] at hkeep
        refine ⟨hkeep, tx, h.state, asked_push h.state, fun host hhost => ?_⟩
        obtain ⟨row, hrow, ⟨hheld, hbefore⟩, -⟩ :=
          (decoded_getExpiringHostsForUser hrun.symm).sound host hhost
        exact ⟨row, (hclean.view tx _).symm.trans hrow, hheld, hbefore⟩
      · exact hkeep
    · exact hkeep
  | getLeasedUntilHosts until_ =>
    refine ⟨tx, h.state, asked_push h.state, fun host hhost => ?_⟩
    obtain ⟨row, hrow, hbefore, -⟩ := (decoded_getLeasedUntilHosts hrun.symm).sound host hhost
    exact ⟨row, (hclean.view tx _).symm.trans hrow, hbefore⟩
  | _ => exact hkeep

/-- What the directory's answer has shown. -/
theorem Standing.holds_found {login : String} {r : Except Unit (Option AdUserInfo)} {w' : World}
    (hkeep : s.shown.Holds p n (h.push (.did p n (.findUserInfo login) r h.state w'))) :
    (s.found login r).Holds p n (h.push (.did p n (.findUserInfo login) r h.state w')) := by
  unfold Standing.found
  split
  · exact ⟨h.state, asked_push w'⟩
  · exact hkeep

/-- And that of a bind. -/
theorem Standing.holds_bound {userDn password : String} {r : Except Unit Unit} {w' : World}
    (hkeep : s.shown.Holds p n (h.push (.did p n (.simpleBind userDn password) r h.state w'))) :
    (s.bound userDn password r).Holds p n
      (h.push (.did p n (.simpleBind userDn password) r h.state w')) := by
  cases r with
  | error err => exact hkeep
  | ok a =>
    unfold Standing.bound
    dsimp only
    split
    · rename_i login info hfound
      split
      · rename_i hdn
        subst hdn
        rw [hfound] at hkeep
        exact ⟨hkeep, h.state, asked_push w'⟩
      · exact hkeep
    · exact hkeep

/-- **One effect** of an entry leads to the next standing. -/
theorem Standing.step (hp : h.state.Permanent) (hA : s.Means p n κ h)
    (hact : act p e env h.state = some (r, w')) :
    (s.next e r).Means p n κ (h.push (.did p n e r h.state w')) := by
  have hacts := acts_of_act hact
  have haccounts := accounts_push (.did p n e r h.state w') hp fun q m e' r' w w'' heq => by
    cases heq
    exact ⟨rfl, hacts⟩
  have hshown : s.shown.Holds p n (h.push (.did p n e r h.state w')) := hA.shown.push haccounts
  cases e with
  -- A statement spends the standing; what was shown holds on, as the link codes stay.
  | execute tx x =>
    cases r with
    | ok a => exact hA.push rfl (fun _ h => .inl h) (fun hs => by cases hs) hshown
    | error err =>
      exact hA.push rfl (fun _ h => .inl h)
        (fun hs => hacts.clean_of_execute_error (hA.clean hs)) hshown
  -- A read that comes before the statement shows what it found; one that comes after it adds
  -- nothing.
  | fetch tx q =>
    have hclean : s.spent = false → Clean p w' := fun hs =>
      hacts.clean (fun _ _ he => by cases he) (hA.clean hs)
    obtain ⟨rfl, hr⟩ := act_fetch hact
    refine hA.push rfl (fun _ h => .inl h) hclean ?_
    show Credential.Holds p n _ (if s.spent then s.shown else s.read q r)
    cases hspent : s.spent with
    | true => exact hshown
    | false =>
      show Credential.Holds p n _ (s.read q r)
      cases r with
      | error err =>
        have hread : s.read q (.error err) = s.shown := by cases q <;> rfl
        rw [hread]
        exact hshown
      | ok rows =>
        rcases hr with hr | hr
        · cases hr
        · exact holds_read (hA.clean hspent) hr hshown
  | now =>
    refine hA.push rfl (fun now' h => .inr ?_) (fun hs => hacts.clean (fun _ _ he => by cases he)
      (hA.clean hs)) hshown
    cases Option.some.inj h
    exact ⟨_, asked_push w'⟩
  | findUserInfo login =>
    exact hA.push rfl (fun _ h => .inl h) (fun hs => hacts.clean (fun _ _ he => by cases he)
      (hA.clean hs)) (holds_found hshown)
  | simpleBind userDn password =>
    exact hA.push rfl (fun _ h => .inl h) (fun hs => hacts.clean (fun _ _ he => by cases he)
      (hA.clean hs)) (holds_bound hshown)
  | _ => exact hA.push rfl (fun _ h => .inl h) (fun hs => hacts.clean (fun _ _ he => by cases he)
      (hA.clean hs)) hshown

/-- What was shown is what the write rests on. -/
theorem Standing.rests (hA : s.Means p n κ h) {x : Write} (hx : s.Entitled x) :
    Rests p n h.state h.trace x := by
  have hcalled : Event.called p n s.entry ∈ h.trace := hA.entry.symm ▸ hA.called
  have hshown := hA.shown
  cases x with
  | addUser dn tgHandle email =>
    obtain ⟨login, info, password, hentry, hbound, hpassword, hrow⟩ := hx
    rw [hentry] at hcalled
    rw [hbound] at hshown
    exact ⟨login, password, info, hcalled, hpassword, hshown.1, hshown.2, hrow⟩
  | setUserTgHandle u tgHandle =>
    obtain ⟨account, text, user, hentry, hknows, rfl, rfl⟩ := hx
    rw [hentry] at hcalled
    rw [hknows] at hshown
    exact ⟨account, text, hcalled, rfl, hshown⟩
  | hosts x =>
    cases x with
    -- The turn of the timer: its clock and its read of the overdue hosts are in the trace.
    | freeHosts ids =>
      obtain ⟨hentry, now, hosts, hclock, hover, rfl⟩ := hx
      rw [hentry] at hcalled
      rw [hover] at hshown
      obtain ⟨w₁, hnow⟩ := hA.clock now hclock
      obtain ⟨tx, w₂, hread, hrows⟩ := hshown
      refine ⟨hcalled, now, w₁, tx, hosts, w₂, hnow, hread, fun id hid => ?_⟩
      obtain ⟨host, hhost, rfl⟩ := List.mem_map.mp hid
      exact hrows host hhost
    | extendHostsLease ids hours =>
      obtain ⟨user, account, data, linked, now, hosts, hentry, hhours, hpos, hclock, hexpiring,
        rfl⟩ := hx
      rw [hentry] at hcalled
      rw [hexpiring] at hshown
      obtain ⟨w₁, hnow⟩ := hA.clock now hclock
      obtain ⟨⟨tx, w₂, row, hlinked, hrow⟩, tx', w₃, hread, hrows⟩ := hshown
      refine ⟨user, account, data, hcalled, hhours, hpos, linked, now, w₁, tx, w₂, tx', hosts, w₃,
        hnow, hlinked, ⟨row, hrow⟩, hread, fun id hid => ?_⟩
      obtain ⟨host, hhost, rfl⟩ := List.mem_map.mp hid
      exact hrows host hhost
    -- The other writes rest on the session alone.
    | leaseHosts u ids d =>
      obtain ⟨user, req, hentry, hu⟩ := hx
      exact ⟨user, req, hentry ▸ hcalled, hu⟩
    | freeHostsForUser ids u =>
      obtain ⟨user, req, hentry, hu⟩ := hx
      exact ⟨user, req, hentry ▸ hcalled, hu⟩
    | freeAll u =>
      obtain ⟨user, req, hentry, hu⟩ := hx
      exact ⟨user, req, hentry ▸ hcalled, hu⟩

end Step

/-! ## Runs -/

section Runs

variable {cfg : ServerConfig} {Cond : ServerHistory → ServerEvent → Prop} {p : Pid} {n : Nat}
  {κ : Entry} {h₀ : ServerHistory}

/-- What holds between the steps. -/
structure Rested (cfg : ServerConfig) (h₀ h : ServerHistory) : Prop where
  committed : Committed cfg h₀ h
  permanent : h.state.Permanent
  rest : AllRest h.trace

theorem Standing.stable_means (s : Standing) :
    (server cfg).Stable Cond (Rested cfg h₀) p (s.Means p n κ) := by
  intro h ev hI hA hne hl hc
  refine hA.push rfl (fun _ h => .inl h)
    (fun hs => server_stable_clean h ev hI (hA.clean hs) hne hl hc) (hA.shown.push ?_)
  refine accounts_push ev hI.permanent fun q m e r w w' heq => ?_
  subst heq
  exact acts_of_server hl

/-- How far an entry has come and what it has shown. -/
def Accredited (cfg : ServerConfig) (c : Server) (p : Pid) : Prop :=
  Machine.Disciplined (transactions.prod credentials) (fun p h => Clean p h.state ∧ Uncalled p h)
    (fun p n κ s h => s.1.Means cfg p n κ h ∧ s.2.Means p n κ h)
    (fun κ s l => κ.Ends cfg s.1 l ∧ True) c p

theorem Tables.world_permanent (t : Tables) : t.world.Permanent := by
  intro u r hr x v hv
  have hnone : (t.world.db.users.cell u).pending = none := by
    simp [Tables.world, Tables.db]
  rw [hnone] at hv
  cases hv

/-- **Every run.** -/
theorem rested_of_server {t : Tables} {timer : ReleaseTimer} {c : Server}
    (hrun : (server cfg).Run Cond (t.serverWith timer) c) :
    Rested cfg ⟨t.world, []⟩ c.hist ∧ ∀ p, Accredited cfg c p := by
  refine hrun.disciplined (Rested cfg ⟨t.world, []⟩) (fun _ hev => absurd hev List.not_mem_nil)
    ?_ ?_
    (fun p => server_stable_clean.and stable_uncalled)
    (fun p n κ s => s.1.stable_means.and s.2.stable_means) ?_ ?_
  -- In the beginning nothing is committed, and no task has been called.
  · exact ⟨⟨⟨[], rfl, .nil⟩, fun _ hx => absurd hx List.not_mem_nil, List.nodup_nil⟩,
      t.world_permanent, allRest_nil⟩
  · intro p
    refine .inl ⟨?_, t.world_clean p, fun _ _ hev => absurd hev List.not_mem_nil⟩
    cases p with
    | timer => exact ⟨_, rfl⟩
    | task i => exact ⟨_, rfl⟩
  -- A call starts fresh in both disciplines.
  · intro p n κ l h hpast hI hstart _
    have hclean : Clean p h.state := by
      rcases hstart with hidle | ⟨κ', s, hA, hends⟩
      · exact hidle.1
      · exact hA.1.clean_of_ends hends.1
    have hrest : AllRest (h.push (.called p (n + 1) κ)).trace := by
      rw [Hist.push_trace]
      exact hI.rest.cons fun _ _ _ _ _ _ _ heq => by cases heq
    refine ⟨⟨hI.committed.called p (n + 1) κ, hI.permanent, hrest⟩, (.fresh, .start κ),
      ⟨Stage.means_called hpast hclean κ, ?_⟩, (κ.obeys cfg l).prod (κ.shows cfg l)⟩
    refine ⟨rfl, ?_, fun _ h => (by cases h), fun _ => hclean, trivial⟩
    rw [Hist.push_trace]
    exact List.mem_cons_self
  -- An effect is a step of both; if it is a statement, what was shown entitles to it.
  · intro p n κ s h e env r w' hI hA hallows hobeys hact _
    have hacts := acts_of_act hact
    have hstage : ∃ x : Prog Effect Effect.Res ServerLocal,
        x.Obeys transactions (κ.Ends cfg) (transactions.next s.1 e r) := by
      obtain ⟨x, hx⟩ := hobeys
      exact ⟨x, hx.fst fun _ _ h => h.1⟩
    obtain ⟨hcommitted, hmeans⟩ := Stage.step hI.committed hA.1 hallows.1 hstage hacts
    have hrest : AllRest (h.push (.did p n e r h.state w')).trace := by
      rw [Hist.push_trace]
      refine hI.rest.cons fun q m tx x a w w'' heq => ?_
      cases heq
      exact Standing.rests hA.2 (hallows.2 tx x rfl)
    exact ⟨⟨hcommitted, hacts.permanent hI.permanent, hrest⟩, hmeans,
      Standing.step hI.permanent hA.2 hact⟩

theorem Rested.rests_before {h : ServerHistory} (hrested : Rested cfg h₀ h) {x : Performed}
    (hx : x ∈ performed h.trace) :
    ∃ older, x.RanAfter older h.trace ∧ Rests x.pid x.calls x.seen older x.write := by
  obtain ⟨older, newer, tx, w, w', between, tx', a, w₁, htrace⟩ := exists_of_performed hx
  refine ⟨older, ⟨newer, tx, w, w', between, tx', a, w₁, htrace⟩, ?_⟩
  refine hrested.rest (newer ++ .did x.pid x.calls (.commit tx) (.ok ()) w w' :: between) older
    x.pid
    x.calls tx' x.write a x.seen w₁ (htrace.trans ?_)
  rw [List.append_assoc, List.cons_append]

theorem Rested.rests {h : ServerHistory} (hrested : Rested cfg h₀ h) {x : Performed}
    (hx : x ∈ performed h.trace) : Rests x.pid x.calls x.seen h.trace x.write := by
  obtain ⟨older, ⟨newer, tx, w, w', between, tx', a, w₁, htrace⟩, hrests⟩ := hrested.rests_before hx
  rw [htrace]
  exact (((hrests.cons _).append between).cons _).append newer

/-- **What a change rests on**, in every run of the server: everything that was ever committed was
    asked for in a call, and rests on what this call had found out before its statement ran. -/
theorem rests_of_run {t : Tables} {timer : ReleaseTimer} {c : Server}
    (hrun : (server cfg).Run Cond (t.serverWith timer) c) {x : Performed}
    (hx : x ∈ performed c.hist.trace) :
    ∃ older, x.RanAfter older c.hist.trace ∧ Rests x.pid x.calls x.seen older x.write :=
  (rested_of_server hrun).1.rests_before hx

/-- `bob` sends his link code from the account 8. -/
theorem rests_of_run_small : ∃ c, (server smallConfig).Run (Machine.Calling Entry.proper)
      ((small none).serverWith .new) c ∧ ∃ x ∈ performed c.hist.trace,
    x.write = .setUserTgHandle bob.id "8" ∧
      ∃ older, x.RanAfter older c.hist.trace ∧ Rests x.pid x.calls x.seen older x.write := by
  obtain ⟨c, hrun, hc⟩ := (server smallConfig).exists_run_of_exec (Machine.Calling Entry.proper)
    ((small none).serverWith .new)
    ([.call (.task 1) (.message (some 8) (some "link-bob"))] ++ acting (.task 1) 5)
    (fun c => (performed c.hist.trace).any fun x => decide (x.write = .setUserTgHandle bob.id "8"))
    (by decide +kernel)
  obtain ⟨x, hx, hwrite⟩ := List.any_eq_true.mp hc
  exact ⟨c, hrun, x, hx, of_decide_eq_true hwrite, rests_of_run hrun hx⟩

end Runs

end Tachikoma
