import Tachikoma.Lib.Simulation
import Tachikoma.Proof.Calls
import Tachikoma.Server

/-!
# What the handlers do

A handler reads what it is sent, makes one call of a service and answers. `DoesCall` says all of it:
a handler that makes a call does what the call does, apart from looking at the clock, and it answers
that something was done exactly if the call has ended well; one that makes none does nothing and
says so. There are thirteen handlers and one argument, and whatever is known of the calls follows
for them.
-/

set_option autoImplicit false

namespace Tachikoma

open Interleaving

/-- What a handler may do on its own. -/
def Idle (e : Effect) : Prop := e = .now

/-- The call has ended with something done. -/
def Local.done : Local → Bool
  | .leased _ (.ok _) => true
  | .leasedRandom _ (.ok _) => true
  | .freed _ (.ok _) => true
  | .extended _ (.ok (.leaseExtended _ _)) => true
  | _ => false

/-- The answers that say that something was done. -/
def Answer.done : Answer → Bool
  | .api response => response.isOk
  | .tool response => response.isOk
  | .page response => response.isOk
  | .edited (.ok (.leaseExtended _ _)) => true
  | .edited _ => false
  | .ignored => false
  | .confirmed => false

/-- A panic answers nothing. -/
def Exit.done {ε α : Type} (done : α → Bool) : Exit ε α → Bool
  | .ok a => done a
  | .err _ => false
  | .panic _ => false

/-- The calls that a request can make. -/
theorem Request.call_cases {service : HostsService} {user : AuthUser} {req : Request} {κ : Call}
    (h : req.call service user = some κ) :
    (∃ hostsIds leaseFor, κ = .lease service user.id user.groups hostsIds leaseFor) ∨
    (∃ leaseFor groupId, κ = .leaseRandom service user.id user.groups leaseFor groupId) ∨
    (∃ hostsIds, κ = .free user.id hostsIds) ∨ κ = .freeAll user.id ∨
    ∃ tgHandle hours, κ = .extendUserHosts tgHandle hours := by
  cases req with
  | pageLeaseHosts form =>
    obtain ⟨data, -, hκ⟩ := Option.bind_eq_some_iff.mp h
    exact .inl ⟨_, _, (Option.some.inj hκ).symm⟩
  | pageLeaseRandom groupId form =>
    obtain ⟨data, -, hκ⟩ := Option.bind_eq_some_iff.mp h
    exact .inr (.inl ⟨_, _, (Option.some.inj hκ).symm⟩)
  | pageReleaseHosts form =>
    obtain ⟨data, -, hκ⟩ := Option.bind_eq_some_iff.mp h
    exact .inr (.inr (.inl ⟨_, (Option.some.inj hκ).symm⟩))
  | pageReleaseAll => exact .inr (.inr (.inr (.inl (Option.some.inj h).symm)))
  | apiLeaseHosts body =>
    obtain ⟨_, -, h⟩ := Option.bind_eq_some_iff.mp h
    obtain ⟨_, -, hκ⟩ := Option.bind_eq_some_iff.mp h
    exact .inl ⟨_, _, (Option.some.inj hκ).symm⟩
  | apiLeaseRandom body =>
    obtain ⟨_, -, h⟩ := Option.bind_eq_some_iff.mp h
    obtain ⟨_, -, hκ⟩ := Option.bind_eq_some_iff.mp h
    exact .inr (.inl ⟨_, _, (Option.some.inj hκ).symm⟩)
  | apiReleaseHosts body =>
    obtain ⟨_, -, hκ⟩ := Option.bind_eq_some_iff.mp h
    exact .inr (.inr (.inl ⟨_, (Option.some.inj hκ).symm⟩))
  | apiReleaseAll => exact .inr (.inr (.inr (.inl (Option.some.inj h).symm)))
  | toolLeaseHosts args =>
    obtain ⟨_, -, h⟩ := Option.bind_eq_some_iff.mp h
    obtain ⟨_, -, hκ⟩ := Option.bind_eq_some_iff.mp h
    exact .inl ⟨_, _, (Option.some.inj hκ).symm⟩
  | toolLeaseRandomHost args =>
    obtain ⟨_, -, h⟩ := Option.bind_eq_some_iff.mp h
    obtain ⟨_, -, hκ⟩ := Option.bind_eq_some_iff.mp h
    exact .inr (.inl ⟨_, _, (Option.some.inj hκ).symm⟩)
  | toolReleaseHosts args =>
    obtain ⟨_, -, hκ⟩ := Option.bind_eq_some_iff.mp h
    exact .inr (.inr (.inl ⟨_, (Option.some.inj hκ).symm⟩))
  | toolReleaseAllHosts => exact .inr (.inr (.inr (.inl (Option.some.inj h).symm)))
  | extendCallback tgAccount data =>
    obtain ⟨x, -, rfl⟩ := Option.map_eq_some_iff.mp h
    exact .inr (.inr (.inr (.inr ⟨_, _, rfl⟩)))

namespace Task

variable {ε ε' α β : Type}

/-- A task that ends with a value, whatever it is answered. -/
def Succeeds (x : Task ε α) : Prop := Prog.Returns (fun r => ∃ a, r = .ok a) x

theorem succeeds_pure (a : α) : (pure a : Task ε α).Succeeds := ⟨a, rfl⟩

theorem succeeds_bind {x : Task ε α} {f : α → Task ε β} (hx : x.Succeeds)
    (hf : ∀ a, (f a).Succeeds) :
    (x >>= f).Succeeds :=
  Prog.Returns.bind hx fun r hr => by
    obtain ⟨a, rfl⟩ := hr
    exact hf a

theorem succeeds_utcNow : (utcNow : Task ε Time).Succeeds := fun now => ⟨now, rfl⟩

theorem succeeds_ofLeasedHosts (hosts : List LeasedHost) :
    (HostInfo.ofLeasedHosts hosts : Task ε (List HostInfo)).Succeeds := by
  induction hosts with
  | nil => exact succeeds_pure _
  | cons host hosts ih =>
    exact succeeds_bind succeeds_utcNow fun _ => succeeds_bind ih fun _ => succeeds_pure _

theorem emits_idle_ofLeasedHosts (hosts : List LeasedHost) :
    Prog.Emits Idle (HostInfo.ofLeasedHosts hosts : Task ε (List HostInfo)) := by
  induction hosts with
  | nil => exact emits_pure _
  | cons host hosts ih =>
    exact emits_bind (emits_utcNow rfl) fun _ => emits_bind ih fun _ => emits_pure _

/-- What is left of a handler only looks at the clock, and then says whether something was done. -/
structure Renders (done : α → Bool) (b : Bool) (x : Task ε α) : Prop where
  idle : Prog.Emits Idle x
  tells : Prog.Returns (fun r => Exit.done done r = b) x

theorem renders_pure {done : α → Bool} {b : Bool} {a : α} (h : done a = b) :
    (pure a : Task ε α).Renders done b := ⟨trivial, h⟩

theorem renders_panic {done : α → Bool} {msg : String} :
    (Task.panic msg : Task ε α).Renders done false := ⟨trivial, rfl⟩

theorem renders_bind {done : α → Bool} {b : Bool} {x : Task ε β} {f : β → Task ε α}
    (hidle : Prog.Emits Idle x) (hx : x.Succeeds) (hf : ∀ a, (f a).Renders done b) :
    (x >>= f).Renders done b :=
  ⟨emits_bind hidle fun a => (hf a).idle, Prog.Returns.bind hx fun r hr => by
    obtain ⟨a, rfl⟩ := hr
    exact (hf a).tells⟩

end Task

section DoesCall

variable {ε ε' α β : Type} {done : α → Bool}

/-- A handler and the call that it makes, if it makes one. -/
def DoesCall (done : α → Bool) (x : Task ε α) : Option Call → Prop
  | none => x.Renders done false
  | some κ => ∀ self, Prog.SameAs Idle (fun r l' => l' ≠ .crashed ∧ Exit.done done r = l'.done) x
      (κ.program self)

/-- A handler that refuses. -/
theorem doesCall_of_pure {x : Task ε α} {call : Option Call} {a : α} (hx : x = pure a)
    (hcall : call = none) (ha : done a = false) : DoesCall done x call := by
  rw [hx, hcall]
  show Task.Renders done false (pure a : Task ε α)
  exact Task.renders_pure ha

/-- A handler that asks its service and answers according to the result. -/
theorem doesCall_of_attempt {y : Task ε' β} {x : Task ε α} {κ : Call} {g : Exit ε' β → Local}
    {call : Option Call} (hcall : call = some κ)
    (hκ : ∀ self, κ.program self = Prog.bind y fun r => .ret (g r)) (hg : ∀ r, g r ≠ .crashed)
    (hpanic : ∀ msg, (g (.panic msg)).done = false) {f : Except ε' β → Task ε α}
    (hx : x = y.attempt >>= f) (hok : ∀ b, (f (.ok b)).Renders done (g (.ok b)).done)
    (herr : ∀ e, (f (.error e)).Renders done (g (.err e)).done) : DoesCall done x call := by
  subst hcall
  subst hx
  intro self
  rw [hκ]
  -- The handler is the service call followed by a choice on its result, which asks for nothing.
  have hsame : (y.attempt >>= f : Task ε α) = Prog.bind y fun r => match r with
      | .ok b => f (.ok b)
      | .err e => f (.error e)
      | .panic msg => .ret (.panic msg) := by
    refine (Prog.bind_assoc _ _ _).trans (congrArg _ (funext fun r => ?_))
    cases r <;> rfl
  rw [hsame]
  have hleft : Prog.SameAs Idle (fun r b => Exit.done done r = (g b).done)
      (Prog.bind y fun r => match r with
        | .ok b => f (.ok b)
        | .err e => f (.error e)
        | .panic msg => .ret (.panic msg)) y := by
    refine (Prog.SameAs.refl y).bind_left fun r r' hr => ?_
    subst hr
    cases r with
    | ok b => exact .of_emits (hok b).idle (hok b).tells
    | err e => exact .of_emits (herr e).idle (herr e).tells
    | panic msg => exact .ret (hpanic msg).symm
  exact hleft.bind_right fun r b hr => .ret ⟨hg b, hr⟩

theorem DoesCall.map {done' : β → Bool} {x : Task ε α} {call : Option Call}
    (h : DoesCall done x call) {f : α → β} (hf : ∀ a, done' (f a) = done a) :
    DoesCall done' (x >>= fun a => pure (f a)) call := by
  cases call with
  | none =>
    refine ⟨Task.emits_bind h.idle fun _ => Task.emits_pure _,
      Prog.Returns.bind h.tells fun r hr => ?_⟩
    cases r with
    | ok a => exact (hf a).trans hr
    | err e => exact hr
    | panic msg => exact hr
  | some κ =>
    intro self
    refine (h self).bind_left fun r l' hl' => ?_
    cases r with
    | ok a => exact .ret ⟨hl'.1, (hf a).trans hl'.2⟩
    | err e => exact .ret hl'
    | panic msg => exact .ret hl'

end DoesCall

/-! ## The thirteen -/

section Handlers

variable (service : HostsService) (user : AuthUser)

theorem hostErrorResponse_isOk (err : HostError) : (hostErrorResponse err).isOk = false := by
  cases err <;> rfl

theorem Api.leaseHosts_doesCall (body : Serde.Json) :
    DoesCall ApiResponse.isOk (Api.leaseHosts service user body)
      ((Request.apiLeaseHosts body).call service user) := by
  unfold Api.leaseHosts
  split
  · rename_i e he
    exact doesCall_of_pure rfl (by simp [Request.call, he, Except.toOption]) rfl
  · rename_i b hb
    split
    · rename_i msg hmsg
      exact doesCall_of_pure rfl (by simp [Request.call, hb, hmsg, Except.toOption]) rfl
    · rename_i duration hduration
      have hcall : (Request.apiLeaseHosts body).call service user =
          some (.lease service user.id user.groups b.hostsIds duration) := by
        simp [Request.call, hb, hduration, Except.toOption]
      exact doesCall_of_attempt hcall (fun _ => rfl) (fun _ => Local.noConfusion) (fun _ => rfl) rfl
        (fun hosts => Task.renders_bind (Task.emits_idle_ofLeasedHosts hosts)
          (Task.succeeds_ofLeasedHosts hosts) fun _ => Task.renders_pure rfl)
        fun err => Task.renders_pure (hostErrorResponse_isOk err)

theorem Api.leaseRandom_doesCall (body : Serde.Json) :
    DoesCall ApiResponse.isOk (Api.leaseRandom service user body)
      ((Request.apiLeaseRandom body).call service user) := by
  unfold Api.leaseRandom
  split
  · rename_i e he
    exact doesCall_of_pure rfl (by simp [Request.call, he, Except.toOption]) rfl
  · rename_i b hb
    split
    · rename_i msg hmsg
      exact doesCall_of_pure rfl (by simp [Request.call, hb, hmsg, Except.toOption]) rfl
    · rename_i duration hduration
      have hcall : (Request.apiLeaseRandom body).call service user =
          some (.leaseRandom service user.id user.groups duration b.groupId) := by
        simp [Request.call, hb, hduration, Except.toOption]
      exact doesCall_of_attempt hcall (fun _ => rfl) (fun _ => Local.noConfusion) (fun _ => rfl) rfl
        (fun _ => Task.renders_bind (Task.emits_utcNow rfl) Task.succeeds_utcNow fun _ =>
          Task.renders_pure rfl) fun err => Task.renders_pure (hostErrorResponse_isOk err)

theorem Api.releaseHosts_doesCall (body : Serde.Json) :
    DoesCall ApiResponse.isOk (Api.releaseHosts user body)
      ((Request.apiReleaseHosts body).call service user) := by
  unfold Api.releaseHosts
  split
  · rename_i e he
    exact doesCall_of_pure rfl (by simp [Request.call, he, Except.toOption]) rfl
  · rename_i b hb
    have hcall : (Request.apiReleaseHosts body).call service user =
        some (.free user.id b.hostsIds) := by
      simp [Request.call, hb, Except.toOption]
    exact doesCall_of_attempt hcall (fun _ => rfl) (fun _ => Local.noConfusion) (fun _ => rfl) rfl
      (fun _ => Task.renders_pure rfl) fun err => Task.renders_pure (hostErrorResponse_isOk err)

theorem Api.releaseAll_doesCall :
    DoesCall ApiResponse.isOk (Api.releaseAll user) (Request.apiReleaseAll.call service user) :=
  doesCall_of_attempt rfl (fun _ => rfl) (fun _ => Local.noConfusion) (fun _ => rfl) rfl
    (fun _ => Task.renders_pure rfl) fun err => Task.renders_pure (hostErrorResponse_isOk err)

theorem TachikomaMcp.leaseHosts_doesCall (args : Serde.Json) :
    DoesCall ToolResponse.isOk (TachikomaMcp.leaseHosts service user args)
      ((Request.toolLeaseHosts args).call service user) := by
  unfold TachikomaMcp.leaseHosts
  split
  · rename_i e he
    exact doesCall_of_pure rfl (by simp [Request.call, he, Except.toOption]) rfl
  · rename_i b hb
    split
    · rename_i msg hmsg
      exact doesCall_of_pure rfl (by simp [Request.call, hb, hmsg, Except.toOption]) rfl
    · rename_i duration hduration
      have hcall : (Request.toolLeaseHosts args).call service user =
          some (.lease service user.id user.groups (b.hostsIds.map .mk) duration) := by
        simp [Request.call, hb, hduration, Except.toOption]
      exact doesCall_of_attempt hcall (fun _ => rfl) (fun _ => Local.noConfusion) (fun _ => rfl) rfl
        (fun hosts => Task.renders_bind (Task.emits_idle_ofLeasedHosts hosts)
          (Task.succeeds_ofLeasedHosts hosts) fun _ => Task.renders_pure rfl)
        fun _ => Task.renders_pure rfl

theorem TachikomaMcp.leaseRandomHost_doesCall (args : Serde.Json) :
    DoesCall ToolResponse.isOk (TachikomaMcp.leaseRandomHost service user args)
      ((Request.toolLeaseRandomHost args).call service user) := by
  unfold TachikomaMcp.leaseRandomHost
  split
  · rename_i e he
    exact doesCall_of_pure rfl (by simp [Request.call, he, Except.toOption]) rfl
  · rename_i b hb
    split
    · rename_i msg hmsg
      exact doesCall_of_pure rfl (by simp [Request.call, hb, hmsg, Except.toOption]) rfl
    · rename_i duration hduration
      have hcall : (Request.toolLeaseRandomHost args).call service user =
          some (.leaseRandom service user.id user.groups duration ⟨b.groupId⟩) := by
        simp [Request.call, hb, hduration, Except.toOption]
      exact doesCall_of_attempt hcall (fun _ => rfl) (fun _ => Local.noConfusion) (fun _ => rfl) rfl
        (fun _ => Task.renders_bind (Task.emits_utcNow rfl) Task.succeeds_utcNow fun _ =>
          Task.renders_pure rfl) fun _ => Task.renders_pure rfl

theorem TachikomaMcp.releaseHosts_doesCall (args : Serde.Json) :
    DoesCall ToolResponse.isOk (TachikomaMcp.releaseHosts user args)
      ((Request.toolReleaseHosts args).call service user) := by
  unfold TachikomaMcp.releaseHosts
  split
  · rename_i e he
    exact doesCall_of_pure rfl (by simp [Request.call, he, Except.toOption]) rfl
  · rename_i b hb
    have hcall : (Request.toolReleaseHosts args).call service user =
        some (.free user.id (b.hostsIds.map .mk)) := by
      simp [Request.call, hb, Except.toOption]
    exact doesCall_of_attempt hcall (fun _ => rfl) (fun _ => Local.noConfusion) (fun _ => rfl) rfl
      (fun _ => Task.renders_pure rfl) fun _ => Task.renders_pure rfl

theorem TachikomaMcp.releaseAllHosts_doesCall :
    DoesCall ToolResponse.isOk (TachikomaMcp.releaseAllHosts user)
      (Request.toolReleaseAllHosts.call service user) :=
  doesCall_of_attempt rfl (fun _ => rfl) (fun _ => Local.noConfusion) (fun _ => rfl) rfl
    (fun _ => Task.renders_pure rfl) fun _ => Task.renders_pure rfl

theorem Page.leaseHosts_doesCall (form : Form) :
    DoesCall PageResponse.isOk (Page.leaseHosts service user form)
      ((Request.pageLeaseHosts form).call service user) := by
  unfold Page.leaseHosts
  split
  · rename_i e he
    exact doesCall_of_pure rfl (by simp [Request.call, he, Except.toOption]) rfl
  · rename_i data hdata
    have hcall : (Request.pageLeaseHosts form).call service user =
        some (.lease service user.id user.groups data.hostsIds (Request.formDuration data)) := by
      simp [Request.call, hdata, Except.toOption]
    exact doesCall_of_attempt hcall (fun _ => rfl) (fun _ => Local.noConfusion) (fun _ => rfl) rfl
      (fun _ => Task.renders_pure rfl) fun _ => Task.renders_pure rfl

theorem Page.leaseRandom_doesCall (groupId : GroupId) (form : Form) :
    DoesCall PageResponse.isOk (Page.leaseRandom service user groupId form)
      ((Request.pageLeaseRandom groupId form).call service user) := by
  unfold Page.leaseRandom
  split
  · rename_i e he
    exact doesCall_of_pure rfl (by simp [Request.call, he, Except.toOption]) rfl
  · rename_i data hdata
    have hcall : (Request.pageLeaseRandom groupId form).call service user =
        some (.leaseRandom service user.id user.groups (Request.formDuration data) groupId) := by
      simp [Request.call, hdata, Except.toOption]
    exact doesCall_of_attempt hcall (fun _ => rfl) (fun _ => Local.noConfusion) (fun _ => rfl) rfl
      (fun _ => Task.renders_pure rfl) fun _ => Task.renders_pure rfl

theorem Page.releaseHosts_doesCall (form : Form) :
    DoesCall PageResponse.isOk (Page.releaseHosts user form)
      ((Request.pageReleaseHosts form).call service user) := by
  unfold Page.releaseHosts
  split
  · rename_i e he
    exact doesCall_of_pure rfl (by simp [Request.call, he, Except.toOption]) rfl
  · rename_i b hb
    have hcall : (Request.pageReleaseHosts form).call service user =
        some (.free user.id b.hostsIds) := by
      simp [Request.call, hb, Except.toOption]
    exact doesCall_of_attempt hcall (fun _ => rfl) (fun _ => Local.noConfusion) (fun _ => rfl) rfl
      (fun _ => Task.renders_pure rfl) fun _ => Task.renders_panic

theorem Page.releaseAll_doesCall :
    DoesCall PageResponse.isOk (Page.releaseAll user) (Request.pageReleaseAll.call service user) :=
  doesCall_of_attempt rfl (fun _ => rfl) (fun _ => Local.noConfusion) (fun _ => rfl) rfl
    (fun _ => Task.renders_pure rfl) fun _ => Task.renders_panic

theorem answerExtendCallback_doesCall (tgAccount : UInt64) (data : Option String) :
    DoesCall Answer.done (answerExtendCallback (tgUserId tgAccount) data)
      ((Request.extendCallback tgAccount data).call service user) := by
  unfold answerExtendCallback
  split
  · rename_i hhours
    exact doesCall_of_pure rfl (by simp [Request.call, handleExtendCallback, hhours]) rfl
  · rename_i hours hhours
    split
    · rename_i hpos
      exact doesCall_of_pure rfl (by simp [Request.call, handleExtendCallback, hhours, hpos]) rfl
    · rename_i hpos
      have hcall : (Request.extendCallback tgAccount data).call service user =
          some (.extendUserHosts (tgUserId tgAccount) hours) := by
        simp [Request.call, handleExtendCallback, hhours, hpos]
      refine doesCall_of_attempt hcall (fun _ => rfl) (fun _ => Local.noConfusion) (fun _ => rfl)
        rfl
        (fun extended => ?_) fun _ => Task.renders_pure rfl
      cases extended with
      | noExpiringHosts => exact Task.renders_pure rfl
      | leaseExtended hours' lines => exact Task.renders_pure rfl

/-- **Every handler** does what its call does, and answers what has come of it. -/
theorem Request.handle_doesCall (req : Request) :
    DoesCall Answer.done (req.handle service user) (req.call service user) := by
  cases req with
  | pageLeaseHosts form => exact (Page.leaseHosts_doesCall service user form).map fun _ => rfl
  | pageLeaseRandom groupId form =>
    exact (Page.leaseRandom_doesCall service user groupId form).map fun _ => rfl
  | pageReleaseHosts form => exact (Page.releaseHosts_doesCall service user form).map fun _ => rfl
  | pageReleaseAll => exact (Page.releaseAll_doesCall service user).map fun _ => rfl
  | apiLeaseHosts body => exact (Api.leaseHosts_doesCall service user body).map fun _ => rfl
  | apiLeaseRandom body => exact (Api.leaseRandom_doesCall service user body).map fun _ => rfl
  | apiReleaseHosts body => exact (Api.releaseHosts_doesCall service user body).map fun _ => rfl
  | apiReleaseAll => exact (Api.releaseAll_doesCall service user).map fun _ => rfl
  | toolLeaseHosts args =>
      exact (TachikomaMcp.leaseHosts_doesCall service user args).map fun _ => rfl
  | toolLeaseRandomHost args =>
    exact (TachikomaMcp.leaseRandomHost_doesCall service user args).map fun _ => rfl
  | toolReleaseHosts args =>
    exact (TachikomaMcp.releaseHosts_doesCall service user args).map fun _ => rfl
  | toolReleaseAllHosts =>
    exact (TachikomaMcp.releaseAllHosts_doesCall service user).map fun _ => rfl
  | extendCallback tgAccount data => exact answerExtendCallback_doesCall service user tgAccount data

end Handlers

end Tachikoma
