import Tachikoma.Proof.Handlers

/-!
# The entry points are the calls

The server as it is started (`server`) and the machine of the single calls (`machine`) are two
systems over the same tables. A request, a login or a message is one call, with what its handler
does before and after it, and a turn of the timer's loop is three calls, one after the other, with a
way out after each. `calls_of_server` is the simulation: beside every run of the server there is a
run of the calls in which the tables and the effects are the same; what a handler does on its own is
to look at the clock.

So whatever is true of all runs of the calls, made by whom they may be made, is true of the server.
-/

set_option autoImplicit false

namespace Tachikoma

open Interleaving

/-- A task of the server and one of the calls, both idle. -/
def Ended : Pid → ServerLocal → Local → Prop
  | .timer, .timer self, l' => l' = .timer self
  | .timer, .crashed, l' => l' = .crashed
  | .timer, _, _ => False
  | .task _, l, l' => l ≠ .crashed ∧ l' ≠ .crashed

namespace Entry

variable (cfg : ServerConfig)

/-- The calls that serve an entry. -/
def Serves : Entry → Call → Prop
  | .request user req, κ => req.call cfg.hostsService user = some κ
  | .login username password, κ => κ = .authenticate username password
  | .message sender text, κ => ∃ account, sender = some account ∧
      κ = .linkUser (linkCode text) (tgUserId account)
  | .turn, κ => κ = .release ∨ ∃ notifier, cfg.notifier = some notifier ∧
      (κ = .notifySoonRelease notifier ∨ ∃ hosts, κ = .notifyReleasedHosts notifier hosts)

variable {cfg}

/-- Who may make an entry may make the calls that serve it. -/
theorem proper_of_serves {p : Pid} {κ : Entry} {κ' : Call} (h : Entry.proper p κ)
    (hserves : κ.Serves cfg κ') : Tachikoma.proper p κ' := by
  -- The calls of a turn are passes, and those of the other entries are none.
  cases p with
  | timer =>
    cases κ with
    | turn =>
      rcases hserves with rfl | ⟨notifier, -, rfl | ⟨hosts, rfl⟩⟩
      · rfl
      · rfl
      · rfl
    | request => cases h
    | login => cases h
    | message => cases h
  | task i =>
    cases κ with
    | turn => cases h
    | request user req =>
      rcases Request.call_cases hserves with ⟨_, _, rfl⟩ | ⟨_, _, rfl⟩ | ⟨_, rfl⟩ | rfl |
        ⟨_, _, rfl⟩
      · rfl
      · rfl
      · rfl
      · rfl
      · rfl
    | login username password =>
      cases hserves
      rfl
    | message sender text =>
      obtain ⟨account, -, rfl⟩ := hserves
      rfl

end Entry

/-! ## The turn -/

section Turn

variable {cfg : ServerConfig} {self self' : ReleaseTimer}

/-- The calls of the timer cover what is left of its turn. -/
abbrev TurnCovered (cfg : ServerConfig) (x : Prog Effect Effect.Res ServerLocal)
    (y : Prog Effect Effect.Res Local) : Prop :=
  Prog.Covered Idle Call.body (Entry.turn.Serves cfg) (Ended .timer) x y

/-- The second half of a turn is a pass that announces, if there is a notifier. -/
theorem announce_covered :
    TurnCovered cfg (Prog.bind (self'.announce cfg.notifier) fun r => .ret (afterTurn self r))
      (.ret (.timer self')) := by
  cases hnotifier : cfg.notifier with
  | none => exact .ret rfl
  | some notifier =>
    have hserves : Entry.turn.Serves cfg (.notifySoonRelease notifier) :=
      .inr ⟨notifier, hnotifier, .inl rfl⟩
    refine .call hserves ?_
    have hannounce : (Prog.bind (self'.announce (some notifier)) fun r =>
        (.ret (afterTurn self r) : Prog Effect Effect.Res ServerLocal)) =
        Prog.bind (self'.notifySoonRelease notifier) fun r => .ret (afterTurn self' r) := by
      refine ((Prog.bind_assoc _ _ _).trans (Prog.bind_assoc _ _ _)).trans
        (congrArg _ (funext fun r => ?_))
      cases r <;> rfl
    rw [hannounce]
    refine (Prog.SameAs.refl _).covered fun r r' hr => ?_
    subst hr
    cases r with
    | ok self'' => exact .ret rfl
    | err e => exact .ret rfl
    | panic msg => exact .ret rfl

/-- The report of a turn whose release has freed hosts. -/
def reportFreed (notifier : Option Notifier) (hosts : List LeasedHost) (self : ReleaseTimer) :
    Task AnyError ReleaseTimer :=
  match notifier with
  | none => return self
  | some notifier => do
    let _ ← (ReleaseTimer.notifyReleasedHosts notifier hosts).attempt
    return self

/-- What is left of such a turn. -/
def afterFreed (notifier : Option Notifier) (hosts : List LeasedHost) (self : ReleaseTimer) :
    Task AnyError ReleaseTimer := do
  let self ← reportFreed notifier hosts self
  self.announce notifier

/-- And what is left after its report. -/
def afterReport (notifier : Option Notifier) (self self' : ReleaseTimer) :
    Exit AnyError Unit → Prog Effect Effect.Res ServerLocal
  | .panic _ => .ret .crashed
  | _ => Prog.bind (self'.announce notifier) fun r => .ret (afterTurn self r)

/-- What follows a release that has freed hosts is a report, if there is a notifier. -/
theorem report_covered (hosts : List LeasedHost) :
    TurnCovered cfg (Prog.bind (afterFreed cfg.notifier hosts self') fun r =>
      .ret (afterTurn self r))
      (.ret (.timer self')) := by
  have hannounce : TurnCovered cfg (Prog.bind (self'.announce cfg.notifier) fun r =>
      .ret (afterTurn self r)) (.ret (.timer self')) := announce_covered
  cases hnotifier : cfg.notifier with
  | none =>
    rw [hnotifier] at hannounce
    exact hannounce
  | some notifier =>
    have hserves : Entry.turn.Serves cfg (.notifyReleasedHosts notifier hosts) :=
      .inr ⟨notifier, hnotifier, .inr ⟨hosts, rfl⟩⟩
    refine .call hserves ?_
    -- The handler calls the pass in the middle of what it does: what comes after it is its
    -- continuation.
    have hreport : (Prog.bind (afterFreed (some notifier) hosts self') fun r =>
          (.ret (afterTurn self r) : Prog Effect Effect.Res ServerLocal)) =
        Prog.bind (ReleaseTimer.notifyReleasedHosts notifier hosts)
          (afterReport (some notifier) self self') := by
      refine ((((Prog.bind_assoc _ _ _).trans (Prog.bind_assoc _ _ _)).trans
        (Prog.bind_assoc _ _ _)).trans (congrArg _ (funext fun r => ?_)))
      cases r <;> rfl
    rw [hreport]
    rw [hnotifier] at hannounce
    refine (Prog.SameAs.refl _).covered fun r r' hr => ?_
    subst hr
    cases r with
    | ok u => exact hannounce
    | err e => exact hannounce
    | panic msg => exact .ret rfl

/-- A turn is a release, a report and a pass that announces. -/
theorem turn_covered :
    TurnCovered cfg (Entry.program cfg self .turn) (.ret (.timer self)) := by
  have hserves : Entry.turn.Serves cfg .release := .inl rfl
  refine .call hserves ?_
  -- The turn as its release, and what is done with the result.
  have hturn : Entry.program cfg self .turn = Prog.bind self.release fun r => match r with
      | .ok (hosts, self') =>
        if hosts = [] then Prog.bind (self'.announce cfg.notifier) fun r => .ret (afterTurn self r)
        else Prog.bind (afterFreed cfg.notifier hosts self') fun r => .ret (afterTurn self r)
      | .err _ => Prog.bind (self.announce cfg.notifier) fun r => .ret (afterTurn self r)
      | .panic _ => .ret .crashed := by
    refine ((((Prog.bind_assoc _ _ _).trans (Prog.bind_assoc _ _ _)).trans
      (Prog.bind_assoc _ _ _)).trans (congrArg _ (funext fun r => ?_)))
    cases r with
    | ok released =>
      obtain ⟨hosts, self'⟩ := released
      by_cases hhosts : hosts = []
      · subst hhosts
        rfl
      · simp only [if_neg hhosts, Prog.bind]
        refine Eq.trans ?_ (Prog.bind_assoc _ _ _).symm
        rfl
    | err e => rfl
    | panic msg => rfl
  rw [hturn]
  refine (Prog.SameAs.refl _).covered fun r r' hr => ?_
  subst hr
  cases r with
  | ok released =>
    obtain ⟨hosts, self'⟩ := released
    by_cases hhosts : hosts = []
    · simp only [hhosts, if_pos]
      exact announce_covered
    · simp only [hhosts, if_false]
      exact report_covered hosts
  | err e => exact announce_covered
  | panic msg => exact .ret rfl

end Turn

/-! ## All entries -/

variable {cfg : ServerConfig}

/-- What is left of an entry of a task, and what the task does in the machine of the calls. -/
abbrev TaskCovered (cfg : ServerConfig) (i : Nat) (κ : Entry)
    (x : Prog Effect Effect.Res ServerLocal) (y : Prog Effect Effect.Res Local) :
    Prop :=
  Prog.Covered Idle Call.body (κ.Serves cfg) (Ended (.task i)) x y

theorem Entry.body_of_ne_crashed {κ : Entry} {l : ServerLocal} (hl : l ≠ .crashed) :
    κ.body cfg l = κ.program cfg l.releaseTimer := by
  cases l with
  | crashed => exact absurd rfl hl
  | _ => rfl

theorem Call.body_of_ne_crashed {κ : Call} {l : Local} (hl : l ≠ .crashed) :
    κ.body l = κ.program l.releaseTimer := by
  cases l with
  | crashed => exact absurd rfl hl
  | _ => rfl

theorem request_covered {i : Nat} {user : AuthUser} {req : Request} {self : ReleaseTimer}
    {l' : Local} (hl' : l' ≠ .crashed) :
    TaskCovered cfg i (.request user req) (Entry.program cfg self (.request user req))
      (.ret l') := by
  have hdoes := Request.handle_doesCall cfg.hostsService user req
  cases hcall : req.call cfg.hostsService user with
  | none =>
    rw [hcall] at hdoes
    have hidle : Prog.SameAs Idle (fun r l'' => Exit.done Answer.done r = false ∧ l'' = l')
        (req.handle cfg.hostsService user) (.ret l') :=
      .of_emits hdoes.idle (Prog.Returns.mono (fun r hr => ⟨hr, rfl⟩) hdoes.tells)
    refine hidle.covered_left fun r l'' hl'' => .ret ⟨ServerLocal.noConfusion, ?_⟩
    rw [hl''.2]
    exact hl'
  | some κ =>
    rw [hcall] at hdoes
    have hserves : (Entry.request user req).Serves cfg κ := hcall
    refine .call hserves ?_
    rw [Call.body_of_ne_crashed hl']
    exact (hdoes l'.releaseTimer).covered_left fun r l'' hl'' =>
      .ret ⟨ServerLocal.noConfusion, hl''.1⟩

theorem login_covered {i : Nat} {username password : String} {self : ReleaseTimer} {l' : Local}
    (hl' : l' ≠ .crashed) :
    TaskCovered cfg i (.login username password) (Entry.program cfg self (.login username password))
      (.ret l') := by
  have hserves : (Entry.login username password).Serves cfg (.authenticate username password) := rfl
  refine .call hserves ?_
  rw [Call.body_of_ne_crashed hl']
  have hlogin : Entry.program cfg self (.login username password) =
      Prog.bind (authenticate username password) fun r => match r with
        | .ok (some user) => .ret (.loggedIn (.ok (.session user)))
        | .ok none => .ret (.loggedIn (.ok (.redirect (.error, "Wrong credentials") "/login")))
        | .err _ => .ret (.loggedIn (.ok (.redirect (.error, "Something went wrong") "/login")))
        | .panic msg => .ret (.loggedIn (.panic msg)) := by
    refine ((Prog.bind_assoc _ _ _).trans (Prog.bind_assoc _ _ _)).trans
      (congrArg _ (funext fun r => ?_))
    cases r with
    | ok user => cases user <;> rfl
    | err e => rfl
    | panic msg => rfl
  rw [hlogin]
  refine (Prog.SameAs.refl _).covered fun r r' hr => ?_
  subst hr
  cases r with
  | ok user => cases user <;> exact .ret ⟨ServerLocal.noConfusion, Local.noConfusion⟩
  | err e => exact .ret ⟨ServerLocal.noConfusion, Local.noConfusion⟩
  | panic msg => exact .ret ⟨ServerLocal.noConfusion, Local.noConfusion⟩

theorem message_covered {i : Nat} {sender : Option UInt64} {text : Option String}
    {self : ReleaseTimer} {l' : Local} (hl' : l' ≠ .crashed) :
    TaskCovered cfg i (.message sender text) (Entry.program cfg self (.message sender text))
      (.ret l') := by
  cases sender with
  | none => exact .ret ⟨ServerLocal.noConfusion, hl'⟩
  | some account =>
    have hserves : (Entry.message (some account) text).Serves cfg
        (.linkUser (linkCode text) (tgUserId account)) := ⟨account, rfl, rfl⟩
    refine .call hserves ?_
    rw [Call.body_of_ne_crashed hl']
    -- The message as its call, and the answer that is made of the result.
    have hmessage : Entry.program cfg self (.message (some account) text) =
        Prog.bind (UsersService.linkUser (linkCode text) (tgUserId account)) fun r => match r with
          | .ok (some user) => .ret (.replied (.ok (.linked user.email)))
          | .ok none => .ret (.replied (.ok .notFound))
          | .err _ => .ret (.replied (.err (.context "Failed user link")))
          | .panic msg => .ret (.replied (.panic msg)) := by
      refine ((Prog.bind_assoc _ _ _).trans (Prog.bind_assoc _ _ _)).trans
        (congrArg _ (funext fun r => ?_))
      cases r with
      | ok user => cases user <;> rfl
      | err e => rfl
      | panic msg => rfl
    rw [hmessage]
    refine (Prog.SameAs.refl _).covered fun r r' hr => ?_
    subst hr
    cases r with
    | ok user => cases user <;> exact .ret ⟨ServerLocal.noConfusion, Local.noConfusion⟩
    | err e => exact .ret ⟨ServerLocal.noConfusion, Local.noConfusion⟩
    | panic msg => exact .ret ⟨ServerLocal.noConfusion, Local.noConfusion⟩

/-- **An entry is covered** by the calls that serve it. -/
theorem Entry.covered {p : Pid} {κ : Entry} {l : ServerLocal} {l' : Local} (hκ : Entry.proper p κ)
    (hl : Ended p l l') :
    Prog.Covered Idle Call.body (κ.Serves cfg) (Ended p) (κ.body cfg l) (.ret l') := by
  cases p with
  | timer =>
    cases κ with
    | turn =>
      cases l with
      | timer self =>
        have hl' : l' = .timer self := hl
        rw [hl']
        exact turn_covered
      | crashed => exact .ret hl
      | _ => exact absurd hl id
    | _ => cases hκ
  | task i =>
    have hl : l ≠ .crashed ∧ l' ≠ .crashed := hl
    rw [Entry.body_of_ne_crashed hl.1]
    cases κ with
    | request user req => exact request_covered hl.2
    | login username password => exact login_covered hl.2
    | message sender text => exact message_covered hl.2
    | turn => cases hκ

/-! ## Runs -/

theorem act_idle (p : Pid) (e : Effect) (env : Env) (w : World) (r : e.Res) (w' : World)
    (he : Idle e) (h : act p e env w = some (r, w')) : w' = w := by
  have he : e = .now := he
  subst he
  cases h
  rfl

/-- The server and the calls start side by side. -/
theorem beside_start (t : Tables) (timer : ReleaseTimer) :
    Machine.Beside machine Idle (Entry.Serves cfg) Ended (t.serverWith timer)
      (t.systemWith timer) where
  state := rfl
  trace := .nil
  threads := fun p => by
    left
    cases p with
    | timer => exact ⟨.timer timer, .timer timer, rfl, rfl, rfl⟩
    | task i => exact ⟨.idle, .idle, rfl, rfl, ServerLocal.noConfusion, Local.noConfusion⟩

/-- **The server makes the calls.** Beside every run of the server there is a run of the calls, made
    by whom they may be made, that ends with the same tables, performs the same effects and makes
    the calls that serve the entries. -/
theorem calls_of_server {t : Tables} {timer : ReleaseTimer} {c : Server}
    (hrun : (server cfg).Run (Machine.Calling Entry.proper) (t.serverWith timer) c) :
    ∃ d, machine.Run (Machine.Calling proper) (t.systemWith timer) d ∧
      d.hist.state = c.hist.state ∧
      Follows Idle (Entry.Serves cfg) c.hist.trace d.hist.trace := by
  have hcalls₀ :
      ∀ p n κ, Event.called p n κ ∈ (t.serverWith timer).hist.trace → Entry.proper p κ := by
    intro p n κ hκ
    cases hκ
  have hact : machine.act = (server cfg).act := rfl
  have hproper : ∀ p κ κ', Entry.proper p κ → Entry.Serves cfg κ κ' → proper p κ' :=
    fun _ _ _ hκ hserves => Entry.proper_of_serves hκ hserves
  have hcovered : ∀ p κ l l', Entry.proper p κ → Ended p l l' →
      Prog.Covered Idle machine.body (Entry.Serves cfg κ) (Ended p) ((server cfg).body κ l)
        (.ret l') :=
    fun _ _ _ _ hκ hl => Entry.covered hκ hl
  have hsimulate : ∃ d, machine.Run (Machine.Calling proper) (t.systemWith timer) d ∧
      Machine.Beside machine Idle (Entry.Serves cfg) Ended c d :=
    Machine.simulate hact act_idle hproper hcovered hrun (beside_start t timer) hcalls₀
  obtain ⟨d, hd, hbeside⟩ := hsimulate
  exact ⟨d, hd, hbeside.state, hbeside.trace⟩

/-- A turn of the timer that frees a host, while a message links an account. -/
theorem calls_of_server_small : ∃ c,
    (server smallConfig).Run (Machine.Calling Entry.proper)
      ((small (some (true, 3))).serverWith .new) c ∧
    c.hist.state.host ⟨1⟩ = some (host1 none).toHostRow ∧
    ∃ d, machine.Run (Machine.Calling proper) ((small (some (true, 3))).systemWith .new) d ∧
      d.hist.state = c.hist.state ∧
      Follows Idle (Entry.Serves smallConfig) c.hist.trace d.hist.trace := by
  obtain ⟨c, hrun, hc⟩ := (server smallConfig).exists_run_of_exec (Machine.Calling Entry.proper)
    ((small (some (true, 3))).serverWith .new)
    (List.flatten [[.call .timer .turn, .call (.task 1) (.message (some 8) (some "link-bob"))],
      acting .timer 2, acting (.task 1) 2, acting .timer 5])
    (fun c => decide (c.hist.state.host ⟨1⟩ = some (host1 none).toHostRow)) (by decide +kernel)
  exact ⟨c, hrun, of_decide_eq_true hc, calls_of_server hrun⟩

end Tachikoma
