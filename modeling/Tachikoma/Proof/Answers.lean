import Tachikoma.Proof.Atomic

/-!
# What an answer is worth

Whoever asks the server for something, over a page, the API, a tool or the bot, is answered once.
The answer tells what has happened to the tables: one that says that something was done ends a call
that has committed its write, one write and once, and one that says that nothing was done, whatever
the reason, ends a call that has committed nothing. This holds in every interleaving, whichever
statements fail, and it is no matter of luck that it does: nothing that can fail stands between a
commit and its answer. A commit that fails rolls back; that it succeeds and the word of it is lost
on the way is not in the model.

A login is the exception, and only in one direction. It may create the account and then fail to read
it back.
-/

set_option autoImplicit false

namespace Tachikoma

open Interleaving

namespace Entry

variable (cfg : ServerConfig)

/-- What the writes `xs` that a call has committed have to do with how it ended. -/
inductive Told : Entry → ServerLocal → List Performed → Prop where
  | done {user : AuthUser} {req : Request} {a : Answer} {x : Performed} (ha : a.done = true)
      (hx : req.Writes cfg.hostsService user x.write) :
      Told (.request user req) (.answered (.ok a)) [x]
  | refused {user : AuthUser} {req : Request} {a : Answer} (ha : a.done = false) :
      Told (.request user req) (.answered (.ok a)) []
  | dropped {user : AuthUser} {req : Request} {msg : String} :
      Told (.request user req) (.answered (.panic msg)) []
  | session {username password : String} {user : AuthUser} :
      Told (.login username password) (.loggedIn (.ok (.session user))) []
  | firstSession {username password : String} {user : AuthUser} {x : Performed}
      (hx : addsUser x.write) : Told (.login username password)
        (.loggedIn (.ok (.session user))) [x]
  | noSession {username password uri : String} {flash : FlashLevel × String} :
      Told (.login username password) (.loggedIn (.ok (.redirect flash uri))) []
  | loginFails {username password msg : String} :
      Told (.login username password) (.loggedIn (.panic msg)) []
  | firstLoginFails {username password msg : String} {x : Performed} (hx : addsUser x.write) :
      Told (.login username password) (.loggedIn (.panic msg)) [x]
  | linked {account : UInt64} {text : Option String} {email : String} {u : UserId} {x : Performed}
      (hx : x.write = .setUserTgHandle u (tgUserId account)) :
      Told (.message (some account) text) (.replied (.ok (.linked email))) [x]
  | notLinked {sender : Option UInt64} {text : Option String} {r : Exit AnyError Reply}
      (hr : ∀ email, r ≠ .ok (.linked email)) : Told (.message sender text) (.replied r) []
  | turned {self : ReleaseTimer} : Told .turn (.timer self) []
  | released {self : ReleaseTimer} {x : Performed} (hx : freesHosts x.write) :
      Told .turn (.timer self) [x]
  | crashed {κ : Entry} : Told κ .crashed []
  | crashedAfter {x : Performed} (hx : freesHosts x.write) : Told .turn .crashed [x]

end Entry

/-- How an entry ends is what its stage tells. -/
theorem Entry.told_of_ends {cfg : ServerConfig} {κ : Entry} {s : Stage} {l : ServerLocal}
    {xs : List Performed} (h : κ.Ends cfg s l) (hfresh : s = .fresh → xs = [])
    (hkept : ∀ x, s = .kept x → ∃ y : Performed, xs = [y] ∧ y.write = x) : κ.Told cfg l xs := by
  have hsettled : ∀ {W : Write → Prop}, s.Settled W → xs = [] ∨ ∃ y, xs = [y] ∧ W y.write := by
    intro W hs
    rcases hs with hs | ⟨x, hx, hs⟩
    · exact .inl (hfresh hs)
    · obtain ⟨y, hy, rfl⟩ := hkept x hs
      exact .inr ⟨y, hy, hx⟩
  -- By how the entry has ended: what it answers is settled then, and `Ends` says by which stage.
  cases l with
  | idle => exact h.elim
  | answered r =>
    obtain ⟨user, req, rfl, h⟩ := h
    cases r with
    | ok a =>
      have h : s.Reports (req.Writes cfg.hostsService user) a.done := h
      cases ha : a.done with
      | true =>
        rw [ha] at h
        obtain ⟨x, hx, hs⟩ := h
        obtain ⟨y, rfl, rfl⟩ := hkept x hs
        exact .done ha hx
      | false =>
        rw [ha] at h
        rw [hfresh h]
        exact .refused ha
    | err e => cases e
    | panic msg =>
      rw [hfresh h]
      exact .dropped
  | loggedIn r =>
    obtain ⟨⟨username, password, rfl⟩, h⟩ := h
    cases r with
    | ok a =>
      cases a with
      | session user =>
        rcases hsettled h with rfl | ⟨y, rfl, hy⟩
        · exact .session
        · exact .firstSession hy
      | redirect flash uri =>
        rw [hfresh h]
        exact .noSession
    | err e => cases e
    | panic msg =>
      rcases hsettled h with rfl | ⟨y, rfl, hy⟩
      · exact .loginFails
      · exact .firstLoginFails hy
  | replied r =>
    obtain ⟨sender, text, rfl, h⟩ := h
    by_cases hr : ∃ email, r = .ok (.linked email)
    · obtain ⟨email, rfl⟩ := hr
      obtain ⟨account, u, rfl, hs⟩ := h
      obtain ⟨y, rfl, hy⟩ := hkept _ hs
      exact .linked hy
    · have hs : s = .fresh := by
        cases r with
        | ok reply =>
          cases reply with
          | linked email => exact absurd ⟨email, rfl⟩ hr
          | notFound => exact h
        | err e => exact h
        | panic msg => exact h
      rw [hfresh hs]
      exact .notLinked fun email he => hr ⟨email, he⟩
  | timer self =>
    obtain ⟨rfl, h⟩ := h
    rcases hsettled h with rfl | ⟨y, rfl, hy⟩
    · exact .turned
    · exact .released hy
  | crashed =>
    rcases h with hs | ⟨rfl, h⟩
    · rw [hfresh hs]
      exact .crashed
    · rcases hsettled h with rfl | ⟨y, rfl, hy⟩
      · exact .crashed
      · exact .crashedAfter hy

/-- **Answers are truthful.** Whenever a task has ended a call, what the call has committed is what
    its answer tells. -/
theorem told_of_run {cfg : ServerConfig} {Cond : ServerHistory → ServerEvent → Prop} {t : Tables}
    {timer : ReleaseTimer} {c : Server} (hrun : (server cfg).Run Cond (t.serverWith timer) c)
    {p : Pid} {κ : Entry} {l : ServerLocal} (hended : (c.threads p).prog = .ret l)
    (hκ : Event.called p (c.threads p).calls κ ∈ c.hist.trace) :
    κ.Told cfg l (performedBy p (c.threads p).calls c.hist.trace) := by
  rcases (atomic_of_run hrun).2 p with ⟨-, -, huncalled⟩ | ⟨κ', s, hmeans, hobeys⟩
  · exact absurd hκ (huncalled _ κ)
  · rw [hended] at hobeys
    obtain ⟨his, hmeans⟩ := hmeans
    obtain rfl := his.only κ hκ
    refine Entry.told_of_ends hobeys (fun hs => ?_) fun x hs => ?_
    · subst hs
      exact hmeans.2
    · subst hs
      obtain ⟨-, -, w₀, hby⟩ := hmeans
      exact ⟨_, hby, rfl⟩

/-- The call is a release of everything. -/
def releasesAll (p : Pid) (n : Nat) (user : AuthUser) : ServerEvent → Bool
  | .called q m (.request user' .apiReleaseAll) => q == p && (m == n && user' == user)
  | _ => false

theorem called_of_releasesAll {p : Pid} {n : Nat} {user : AuthUser} {ev : ServerEvent}
    (h : releasesAll p n user ev = true) : ev = .called p n (.request user .apiReleaseAll) := by
  unfold releasesAll at h
  split at h
  · simp only [Bool.and_eq_true, beq_iff_eq] at h
    obtain ⟨rfl, rfl, rfl⟩ := h
    rfl
  · cases h

/-- `alice` cannot release her host while the database is down, and releases it when it is back. -/
theorem told_of_run_small : ∃ c, (server smallConfig).Run (Machine.Calling Entry.proper)
      ((small (some (true, 5))).serverWith .new) c ∧ ∃ l,
    (Entry.request aliceUser .apiReleaseAll).Told smallConfig l
      (performedBy (.task 1) 2 c.hist.trace) := by
  obtain ⟨c, hrun, hc⟩ := (server smallConfig).exists_run_of_exec (Machine.Calling Entry.proper)
    ((small (some (true, 5))).serverWith .new)
    (List.flatten [[.call (.task 1) (.request aliceUser .apiReleaseAll),
      .act (.task 1) { fails := true }, .call (.task 1) (.request aliceUser .apiReleaseAll)],
      acting (.task 1) 4])
    (fun c => (c.threads (.task 1)).prog.value?.isSome && ((c.threads (.task 1)).calls == 2) &&
      c.hist.trace.any (releasesAll (.task 1) 2 aliceUser)) (by decide +kernel)
  simp only [Bool.and_eq_true, beq_iff_eq, List.any_eq_true] at hc
  obtain ⟨⟨hended, hcalls⟩, ev, hev, hcalled⟩ := hc
  obtain ⟨l, hl⟩ := Option.isSome_iff_exists.mp hended
  rw [called_of_releasesAll hcalled, ← hcalls] at hev
  have htold := told_of_run hrun (Prog.value?_eq_some.mp hl) hev
  rw [hcalls] at htold
  exact ⟨c, hrun, l, htold⟩

end Tachikoma
