import Tachikoma.Logic.MessageSenders
import Tachikoma.Proof.Notice

/-!
# Telegram accounts

A user's `tg_handle` is where messages to the user go, and the account that presses a button is
looked up by it. The two ways are inverse to each other as long as no two users carry one handle.
The table does not ask for that, and neither does `link_user`: it writes the handle it is given
whoever has it. So it is a matter of what is linked: **while no account is linked to a second user,
and no user to a second account** (`LinkOnce`), a handle once committed stays, and it tells its
user.
-/

set_option autoImplicit false

namespace Tachikoma

open Interleaving Versioned Unordered

/-- The user has this `tg_handle`, for everybody. -/
def Carries (u : UserId) (tgHandle : String) (w : World) : Prop :=
  ∃ r, w.user u = some r ∧ r.tgHandle = some tgHandle

/-- When a link is committed, its account is nobody else's and its user has no other account. -/
def LinkOnce (h : History) (ev : Ev) : Prop :=
  ∀ u ∈ h.state.userIds, ∀ row ∈ committedUser u ev, ∀ tgHandle ∈ row.tgHandle,
    ∀ v ∈ h.state.userIds, ∀ r ∈ h.state.user v,
      if v = u then r.tgHandle = none ∨ r.tgHandle = some tgHandle
      else r.tgHandle ≠ some tgHandle

instance (h : History) (ev : Ev) : Decidable (LinkOnce h ev) := by
  unfold LinkOnce
  infer_instance

/-- A link is made by a Telegram account, and its handle is the number of the account. -/
def telegram (p : Pid) (κ : Call) : Prop :=
  proper p κ ∧ ∀ link tgHandle, κ = .linkUser link tgHandle → ∃ id, tgHandle = tgUserId id

/-- The steps of runs in which every account is linked to one user and every user to one account. -/
def LinkCond (h : History) (ev : Ev) : Prop := Machine.Calling telegram h ev ∧ LinkOnce h ev

/-! ## Versions of users -/

/-- Handles are numbers of Telegram accounts, and only a row that is new has none in a pending
    version. -/
structure AccountHandle (c : Cell TxId UserRow) : Prop where
  committed : ∀ r tgHandle, c.committed = some r → r.tgHandle = some tgHandle →
    ∃ id, tgHandle = tgUserId id
  pending : ∀ x v, c.pending = some (x, v) → ∃ r, v = some r ∧
    (∀ tgHandle, r.tgHandle = some tgHandle → ∃ id, tgHandle = tgUserId id) ∧
    (r.tgHandle = none → c.committed = none)

theorem AccountHandle.link {c : Cell TxId UserRow} (h : AccountHandle c) (x : TxId)
    {tgHandle : String} (hnumber : ∃ id, tgHandle = tgUserId id) :
    AccountHandle (c.write x (fun _ => true) fun r => { r with tgHandle := some tgHandle }) := by
  refine ⟨fun r s hr => h.committed r s (by simpa using hr), fun y v hp => ?_⟩
  unfold Cell.write at hp ⊢
  split at hp
  · rename_i r hview
    simp only [if_true] at hp
    obtain ⟨-, rfl⟩ := Prod.mk.inj (Option.some.inj hp)
    exact ⟨_, rfl, fun s hs => Option.some.inj hs ▸ hnumber, nofun⟩
  · exact h.pending y v hp

theorem AccountHandle.add (x : TxId) (dn email link : String) :
    AccountHandle ⟨none, some (x, some ⟨dn, none, email, link⟩)⟩ :=
  ⟨nofun, fun y v hp => by
    obtain ⟨-, rfl⟩ := Prod.mk.inj (Option.some.inj hp)
    exact ⟨_, rfl, nofun, fun _ => rfl⟩⟩

theorem AccountHandle.commit {c : Cell TxId UserRow} (h : AccountHandle c) (x : TxId) :
    AccountHandle (c.commit x) := by
  unfold Cell.commit
  split
  · rename_i y v hp
    split
    · obtain ⟨r, rfl, hnumber, -⟩ := h.pending y v hp
      refine ⟨fun r' s hr' => ?_, nofun⟩
      cases hr'
      exact hnumber s
    · exact h
  · exact h

theorem AccountHandle.rollback {c : Cell TxId UserRow} (h : AccountHandle c) (x : TxId) :
    AccountHandle (c.rollback x) := by
  unfold Cell.rollback
  split
  · split
    · exact ⟨h.committed, nofun⟩
    · exact h
  · exact h

/-! ## What a run keeps -/

/-- The rows of `users`, and what was delivered and pressed so far: the chats of all this tell the
    same users still. -/
structure Linked (h : History) : Prop where
  handles : ∀ id, AccountHandle (h.state.db.users.cell id)
  /-- A transaction links one user. -/
  alone : ∃ linking : TxId → UserId,
    h.state.db.users.Holds fun x id v => ∀ r, v = some r → r.tgHandle ≠ none → id = linking x
  unique : ∀ u v tgHandle, Carries u tgHandle h.state → Carries v tgHandle h.state → u = v
  /-- A notice was sent for the user whose handle its chat is. -/
  sent : ∀ n sender msg ids w w', Event.did .timer n (.send sender msg) (.ok ()) w w' ∈ h.trace →
    msg.notification = .expirationSoon ids → ∀ tgHandle, sender.user.tgHandle = some tgHandle →
    Carries sender.user.id tgHandle h.state
  /-- A button acted for the user whose handle it was pressed with. -/
  pressed : ∀ q m tgHandle hours tx u before_ r w w',
    Event.called q m (.extendUserHosts tgHandle hours) ∈ h.trace →
    Event.did q m (.fetch tx (.getExpiringHostsForUser u before_)) r w w' ∈ h.trace →
    Carries u tgHandle h.state

section Step

variable {h : History} {p : Pid} {n : Nat} {e : Effect} {r : e.Res} {w' : World}

/-- Users do not vanish. -/
theorem Linked.user_did (hI : Linked h) (hacts : Acts p h.state e r w') {u : UserId}
    (hu : ∃ row, h.state.user u = some row) : ∃ row, w'.user u = some row := by
  rcases hacts.user 0 u with ⟨-, x, hp⟩ | heq
  · obtain ⟨row, hrow, -, -⟩ := (hI.handles u).pending x _ hp
    exact ⟨row, hrow⟩
  · rw [heq]; exact hu

/-- Nor do they change their handle. -/
theorem Linked.carries_did (hI : Linked h) (hacts : Acts p h.state e r w')
    (hc : LinkOnce h (.did p n e r h.state w')) {u : UserId} {tgHandle : String}
    (hu : Carries u tgHandle h.state) : Carries u tgHandle w' := by
  obtain ⟨row, hrow, hhandle⟩ := hu
  rcases hacts.user n u with ⟨hcommitted, x, hp⟩ | heq
  · obtain ⟨row', hrow', -, hnew⟩ := (hI.handles u).pending x _ hp
    refine ⟨row', hrow', ?_⟩
    cases hhandle' : row'.tgHandle with
    | none =>
      rw [World.user, hnew hhandle'] at hrow
      cases hrow
    | some tgHandle' =>
      have hlink := hc u (World.mem_userIds hrow) row' (hcommitted.symm.trans hrow') tgHandle'
        hhandle' u (World.mem_userIds hrow) row hrow
      rw [if_pos rfl, hhandle] at hlink
      rcases hlink with hlink | hlink
      · cases hlink
      · exact hlink.symm
  · exact ⟨row, heq.trans hrow, hhandle⟩

/-- A handle that is committed is nobody else's. -/
theorem Linked.unique_did (hI : Linked h) (hacts : Acts p h.state e r w')
    (hc : LinkOnce h (.did p n e r h.state w')) {u v : UserId} {tgHandle : String}
    (hu : Carries u tgHandle w') (hv : Carries v tgHandle w') : u = v := by
  obtain ⟨row, hrow, hhandle⟩ := hu
  obtain ⟨row', hrow', hhandle'⟩ := hv
  have hlinked :
      ∀ {a b : UserId} {ra rb : UserRow}, w'.user a = some ra → ra.tgHandle = some tgHandle →
      w'.user a = committedUser a (.did p n e r h.state w') → rb.tgHandle = some tgHandle →
      h.state.user b = some rb → b = a := by
    intro a b ra rb hra ha hcommitted hb hrb
    obtain ⟨tx, -, hp⟩ := pending_of_committedUser (hcommitted.symm.trans hra)
    have hlink :=
      hc a (World.mem_userIds_of_pending hp) ra (hcommitted.symm.trans hra) tgHandle ha b
      (World.mem_userIds hrb) rb hrb
    by_contra hne
    rw [if_neg hne] at hlink
    exact hlink hb
  rcases hacts.user n u with ⟨hcu, -⟩ | hsu <;> rcases hacts.user n v with ⟨hcv, -⟩ | hsv
  · obtain ⟨tx, rfl, hpu⟩ := pending_of_committedUser (hcu.symm.trans hrow)
    obtain ⟨tx', htx, hpv⟩ := pending_of_committedUser (hcv.symm.trans hrow')
    cases htx
    obtain ⟨linking, halone⟩ := hI.alone
    exact (halone u _ _ hpu row rfl (by simp [hhandle])).trans
      (halone v _ _ hpv row' rfl (by simp [hhandle'])).symm
  · exact (hlinked hrow hhandle hcu hhandle' (hsv.symm.trans hrow')).symm
  · exact hlinked hrow' hhandle' hcv hhandle (hsu.symm.trans hrow)
  · exact hI.unique u v tgHandle ⟨row, hsu.symm.trans hrow, hhandle⟩
      ⟨row', hsv.symm.trans hrow', hhandle'⟩

theorem Linked.alone_did (hI : Linked h) (hacts : Acts p h.state e r w')
    (hlink : ∀ tx u tgHandle, e = .execute tx (.setUserTgHandle u tgHandle) → Clean p h.state)
    (hadd : ∀ tx dn tgHandle email, e = .execute tx (.addUser dn tgHandle email) →
      tgHandle = none) :
    ∃ linking : TxId → UserId, w'.db.users.Holds fun x id v =>
      ∀ r, v = some r → r.tgHandle ≠ none → id = linking x := by
  obtain ⟨linking, halone⟩ := hI.alone
  have hnew : ∀ tx id dn tgHandle email link, e = .execute tx (.addUser dn tgHandle email) →
      ∀ (linking : TxId → UserId) r, some (⟨dn, tgHandle, email, link⟩ : UserRow) = some r →
        r.tgHandle ≠ none → id = linking ⟨p, tx.no⟩ := by
    intro tx id dn tgHandle email link he linking r hr hhandle
    cases hr
    exact absurd (hadd tx dn tgHandle email he) hhandle
  by_cases he : ∃ tx u tgHandle, e = .execute tx (.setUserTgHandle u tgHandle)
  · obtain ⟨tx, u, tgHandle, rfl⟩ := he
    -- The task has nothing pending, so its transaction may be told to link `u`.
    have hclean := hlink tx u tgHandle rfl
    refine ⟨Function.update linking ⟨p, tx.no⟩ u,
      hacts.users_holds (fun id x v hp r hr hhandle => ?_)
      ?_ fun tx' id dn tgHandle email link he => hnew tx' id dn tgHandle email link he _⟩
    · rw [Function.update_of_ne fun hx => hclean.users id x v hp (by rw [hx])]
      exact halone id x v hp r hr hhandle
    · intro tx' u' tgHandle' row he _ r _ _
      cases he
      rw [Function.update_self]
  · exact ⟨linking, hacts.users_holds halone (fun tx u tgHandle _ hx =>
      absurd ⟨tx, u, tgHandle, hx⟩ he)
      fun tx id dn tgHandle email link he => hnew tx id dn tgHandle email link he _⟩

/-- What an effect is asked to be for the invariant: a link is made with a number by a task that
    has linked nobody in its transaction, a new user has no handle, and who is notified or asked for
    carries the handle of the chat. -/
structure Proper (p : Pid) (n : Nat) (e : Effect) (h : History) : Prop where
  link : ∀ tx u tgHandle, e = .execute tx (.setUserTgHandle u tgHandle) →
    (∃ id, tgHandle = tgUserId id) ∧ Clean p h.state
  add : ∀ tx dn tgHandle email, e = .execute tx (.addUser dn tgHandle email) → tgHandle = none
  send : p = .timer → ∀ sender msg ids, e = .send sender msg →
    msg.notification = .expirationSoon ids →
    ∀ tgHandle, sender.user.tgHandle = some tgHandle → Carries sender.user.id tgHandle h.state
  press : ∀ tx u before_, e = .fetch tx (.getExpiringHostsForUser u before_) → ∀ tgHandle hours,
    Event.called p n (.extendUserHosts tgHandle hours) ∈ h.trace → Carries u tgHandle h.state

theorem Linked.did (hI : Linked h) (hacts : Acts p h.state e r w')
    (hc : LinkOnce h (.did p n e r h.state w')) (he : Proper p n e h) :
    Linked (h.push (.did p n e r h.state w')) := by
  have hcarries : ∀ {u tgHandle}, Carries u tgHandle h.state → Carries u tgHandle w' :=
    fun hu => hI.carries_did hacts hc hu
  refine ⟨?_, hI.alone_did hacts (fun tx u s hx => (he.link tx u s hx).2) he.add,
    fun u v s hu hv => hI.unique_did hacts hc hu hv, ?_, ?_⟩
  · refine hacts.users_cells hI.handles (fun tx u s c hx hc => hc.link _ (he.link tx u s hx).1) ?_
      (fun x c hc => hc.commit x) fun x c hc => hc.rollback x
    intro tx dn tgHandle email link hx
    cases he.add tx dn tgHandle email hx
    exact AccountHandle.add _ dn email link
  · intro m sender msg ids w w₁ hev hmsg s hs
    rw [Hist.push_trace] at hev
    rcases List.mem_cons.mp hev with heq | hev
    · cases heq
      exact hcarries (he.send rfl sender msg ids rfl hmsg s hs)
    · exact hcarries (hI.sent m sender msg ids w w₁ hev hmsg s hs)
  · intro q m s hours tx u before_ a w w₁ hcall hev
    rw [Hist.push_trace] at hcall hev
    have hcall' := (List.mem_cons.mp hcall).resolve_left nofun
    clear hcall
    rcases List.mem_cons.mp hev with heq | hev
    · cases heq
      exact hcarries (he.press tx u before_ rfl s hours hcall')
    · exact hcarries (hI.pressed q m s hours tx u before_ a w w₁ hcall' hev)

theorem Linked.called (hI : Linked h) (κ : Call)
    (hpast : ∀ ev ∈ h.trace, ev.pid = p → ev.calls ≤ n) :
    Linked (h.push (.called p (n + 1) κ)) := by
  refine ⟨hI.handles, hI.alone, hI.unique, fun m sender msg ids w w₁ hev => ?_, ?_⟩
  · rw [Hist.push_trace] at hev
    exact hI.sent m sender msg ids w w₁ ((List.mem_cons.mp hev).resolve_left nofun)
  · intro q m s hours tx u before_ a w w₁ hcall hev
    rw [Hist.push_trace] at hcall hev
    have hev' := (List.mem_cons.mp hev).resolve_left nofun
    rcases List.mem_cons.mp hcall with heq | hcall
    · obtain ⟨rfl, rfl, -⟩ : q = p ∧ m = n + 1 ∧ _ = κ := by simpa using heq
      have hle := hpast _ hev' rfl
      simp only [Event.calls] at hle
      omega
    · exact hI.pressed q m s hours tx u before_ a w w₁ hcall hev'

end Step

/-! ## The calls -/

section Calls

variable {h : History} {p : Pid} {n : Nat} {e : Effect}

/-- The `n`-th call of `p` is `κ`. -/
def Calls (p : Pid) (n : Nat) (κ : Call) (h : History) : Prop :=
  ∀ κ', Event.called p n κ' ∈ h.trace → κ' = κ

theorem Calls.stable {Cond : History → Ev → Prop} {Inv : History → Prop} {κ : Call} :
    machine.Stable Cond Inv p (Calls p n κ) := by
  intro h ev _ hA hne _ _ κ' hev
  rw [Hist.push_trace] at hev
  rcases List.mem_cons.mp hev with rfl | hev
  · exact absurd rfl hne
  · exact hA κ' hev

theorem Calls.did {κ : Call} (hA : Calls p n κ h) {q : Pid} {m : Nat} {r : e.Res} {w w' : World} :
    Calls p n κ (h.push (.did q m e r w w')) := by
  intro κ' hev
  rw [Hist.push_trace] at hev
  exact hA κ' ((List.mem_cons.mp hev).resolve_left nofun)

theorem calls_of_call {κ : Call} (hpast : ∀ ev ∈ h.trace, ev.pid = p → ev.calls ≤ n) :
    Calls p (n + 1) κ (h.push (.called p (n + 1) κ)) := by
  intro κ' hev
  rw [Hist.push_trace] at hev
  rcases List.mem_cons.mp hev with heq | hev
  · obtain ⟨-, -, rfl⟩ : p = p ∧ n + 1 = n + 1 ∧ κ' = κ := by simpa using heq
    rfl
  · have hle := hpast _ hev rfl
    simp only [Event.calls] at hle
    omega

/-- Effects of which nothing has to be known. -/
def Plain : Effect → Prop
  | .execute _ (.setUserTgHandle _ _) => False
  | .execute _ (.addUser _ tgHandle _) => tgHandle = none
  | .send _ msg => ∀ ids, msg.notification ≠ .expirationSoon ids
  | .fetch _ (.getExpiringHostsForUser _ _) => False
  | _ => True

theorem Plain.proper (he : Plain e) : Proper p n e h where
  link _ _ _ hx := by subst hx; exact he.elim
  add _ _ _ _ hx := by subst hx; exact he
  send _ _ _ _ hx hmsg := by subst hx; exact absurd hmsg (he _)
  press _ _ _ hx := by subst hx; exact he.elim

theorem Call.writes_link {κ : Call} {u : UserId} {tgHandle : String}
    (h : κ.writes (.setUserTgHandle u tgHandle)) : ∃ link, κ = .linkUser link tgHandle := by
  cases κ with
  | linkUser link s => obtain ⟨_, hx⟩ := h; cases hx; exact ⟨link, rfl⟩
  | lease => obtain ⟨_, hx⟩ := h; cases hx
  | leaseRandom => obtain ⟨_, _, hx⟩ := h; cases hx
  | free => cases h
  | freeAll => cases h
  | extendUserHosts => obtain ⟨_, hx⟩ := h; cases hx
  | authenticate => obtain ⟨_, _, hx⟩ := h; cases hx
  | release => obtain ⟨_, hx⟩ := h; cases hx
  | notifyReleasedHosts => exact h.elim
  | notifySoonRelease => exact h.elim

theorem Call.writes_add {κ : Call} {dn : String} {tgHandle : Option String} {email : String}
    (h : κ.writes (.addUser dn tgHandle email)) : tgHandle = none := by
  cases κ with
  | linkUser => obtain ⟨_, hx⟩ := h; cases hx
  | lease => obtain ⟨_, hx⟩ := h; cases hx
  | leaseRandom => obtain ⟨_, _, hx⟩ := h; cases hx
  | free => cases h
  | freeAll => cases h
  | extendUserHosts => obtain ⟨_, hx⟩ := h; cases hx
  | authenticate => obtain ⟨_, _, hx⟩ := h; cases hx; rfl
  | release => obtain ⟨_, hx⟩ := h; cases hx
  | notifyReleasedHosts => exact h.elim
  | notifySoonRelease => exact h.elim

/-- Calls that neither link nor extend nor send notices. -/
theorem sketch_other {κ : Call} {l : Local} (hlink : ∀ link s, κ ≠ .linkUser link s)
    (hextend : ∀ s hours, κ ≠ .extendUserHosts s hours)
    (hnotice : p = .timer → (κ.body l).Emits NoNotice) :
    machine.Sketch LinkCond Linked p n (fun _ _ => True) (κ.body l) (Calls p n κ) := by
  have hemits : (κ.body l).Emits fun e => Writes κ.writes e ∧ (p = .timer → NoNotice e) := by
    by_cases hp : p = .timer
    · exact (κ.emits l).and ((hnotice hp).mono fun _ he _ => he)
    · exact (κ.emits l).and ((emits_true _).mono fun _ _ hp' => absurd hp' hp)
  refine (Machine.Sketch.keep hemits Calls.stable fun h e env r w' he hI hA ha hc => ?_).post
    fun _ _ _ _ => trivial
  refine ⟨hI.did (acts_of_act ha) hc.2 ⟨?_, ?_, ?_, ?_⟩, hA.did⟩
  · intro tx u s hx
    obtain ⟨link, hκ⟩ := Call.writes_link (he.1 tx _ hx)
    exact absurd hκ (hlink link s)
  · exact fun tx dn s email hx => Call.writes_add (he.1 tx _ hx)
  · exact fun hp sender msg ids hx hmsg => absurd hmsg (he.2 hp sender msg ids hx)
  · exact fun tx u before_ hx s hours hcall => absurd (hA _ hcall).symm (hextend s hours)

/-- A plain effect of a clean task that writes nothing. -/
theorem Linked.clean_did (hI : Linked h) (hclean : Clean p h.state) {r : e.Res} {w' : World}
    (hacts : Acts p h.state e r w') (hc : LinkCond h (.did p n e r h.state w')) (he : Plain e)
    (hexecute : ∀ tx x, e ≠ .execute tx x) :
    Linked (h.push (.did p n e r h.state w')) ∧ Clean p w' :=
  ⟨hI.did hacts hc.2 he.proper, hacts.clean hexecute hclean⟩

theorem Carries.stable {u : UserId} {tgHandle : String} :
    machine.Stable LinkCond Linked p fun h => Carries u tgHandle h.state := by
  intro h ev hI hA _ hl hc
  cases ev with
  | called q m κ => exact hA
  | did q m e r w w' =>
    obtain ⟨rfl, hacts⟩ := acts_of_legal hl
    exact hI.carries_did hacts hc.2 hA

/-- Who is linked by this transaction. -/
def Linking (p : Pid) (tx : RegistryTx) (u : UserId) (tgHandle : String) (w : World) : Prop :=
  ∃ r, (w.db.users.cell u).pending = some (⟨p, tx.no⟩, some r) ∧ r.tgHandle = some tgHandle

theorem Linking.stable {Cond : History → Ev → Prop} {Inv : History → Prop} {tx : RegistryTx}
    {u : UserId} {tgHandle : String} :
    machine.Stable Cond Inv p fun h => Linking p tx u tgHandle h.state :=
  stable_of_acts fun _ _ _ _ _ hq hacts ⟨r, hp, hhandle⟩ =>
    ⟨r, hacts.pending_user_of_ne hq rfl hp, hhandle⟩

/-- A link that returned a user has committed its handle. -/
theorem sketch_linkUser (link : String) {tgHandle : String}
    (hnumber : ∃ id, tgHandle = tgUserId id) :
    machine.Sketch LinkCond Linked p n
      (onOk fun o h => ∀ user : User, o = some user → Carries user.id tgHandle h.state)
      (UsersService.linkUser link tgHandle) fun h => Clean p h.state := by
  have hpost : machine.Stable LinkCond Linked p fun _ => True := .true
  refine Task.sketch_withTx (fun _ h => Clean p h.state)
    (fun _ => onOk fun o h => ∀ user : User, o = some user → Carries user.id tgHandle h.state)
    (fun _ => stable_clean)
    (stable_exits (fun o => .forall fun user => Carries.stable.imp_const) hpost hpost) ?_ ?_ ?_ ?_
  · exact fun h tx w' hI hclean ha hc => hI.clean_did hclean ha hc trivial (by simp)
  · exact fun h err w' hI hclean ha hc =>
      ⟨(hI.clean_did hclean ha hc trivial (by simp)).1, trivial⟩
  · intro tx
    refine Task.sketch_bind (B := fun o h => Clean p h.state ∧
      ∀ user : User, o = some user → ∃ row, h.state.user user.id = some row)
      (Task.sketch_mapErr ?_) fun o => ?_
    · refine Task.sketch_fetch (fun o => stable_clean.and (.forall fun user => .imp_const ?_)) hpost
        ?_ ?_
      · intro h ev hI hA _ hl _
        cases ev with
        | called q m κ => exact hA
        | did q m e r w w' =>
          obtain ⟨rfl, hacts⟩ := acts_of_legal hl
          exact hI.user_did hacts hA
      · intro h order o hI hclean hrun hc
        refine ⟨hI.did (acts_fetch _) hc.2 (Plain.proper trivial), hclean, fun user huser => ?_⟩
        subst huser
        have hmem := (List.mem_filter.mp (mem_of_head?_arrange (Except.ok.inj hrun))).1
        rw [mem_view_users, hclean.view_user] at hmem
        exact ⟨_, hmem⟩
      · exact fun h err hI hclean hc =>
          ⟨hI.did (acts_fetch _) hc.2 (Plain.proper trivial), trivial⟩
    split
    · rename_i user
      refine Task.sketch_bind (B := fun _ h => Linking p tx user.id tgHandle h.state)
        (Task.sketch_mapErr ?_)
        fun _ => ?_
      · refine Task.sketch_execute (fun _ => Linking.stable) hpost ?_ ?_
        · intro h a w' hI hA hacts hc
          refine ⟨hI.did hacts hc.2 ⟨fun _ _ _ hx => ?_, nofun, nofun, nofun⟩, ?_⟩
          · cases hx; exact ⟨hnumber, hA.1⟩
          · obtain ⟨row, hrow⟩ := hA.2 user rfl
            cases hacts with
            | quiet _ _ _ _ hexecute => exact absurd rfl (hexecute _ _)
            | setUserTgHandle tx u s t hupdate =>
              refine ⟨{ row with tgHandle := some tgHandle }, ?_, rfl⟩
              change (t.cell user.id).pending = _
              rw [Table.cell_update hupdate, Cell.write, hA.1.view_user, hrow]
              simp
        · intro h err w' hI hA hacts hc
          refine ⟨hI.did hacts hc.2 ⟨fun _ _ _ hx => ?_, nofun, nofun, nofun⟩, trivial⟩
          cases hx; exact ⟨hnumber, hA.1⟩
      refine Task.sketch_bind (B := fun o h => Linking p tx user.id tgHandle h.state ∧
        ∀ user' : User, o = some user' → user'.id = user.id) (Task.sketch_mapErr ?_)
        fun o => Machine.Sketch.of_fact fun ho => ?_
      · refine Task.sketch_fetch (fun _ => Linking.stable.and .const) hpost ?_ ?_
        · intro h order o hI hA hrun hc
          refine ⟨hI.did (acts_fetch _) hc.2 (Plain.proper trivial), hA, fun user' huser' => ?_⟩
          exact id_of_getUserById (huser' ▸ hrun)
        · exact fun h err hI _ hc => ⟨hI.did (acts_fetch _) hc.2 (Plain.proper trivial), trivial⟩
      split
      · exact Task.sketch_panic fun _ _ _ => trivial
      · rename_i user'
        refine Task.sketch_bind (B := fun _ h => Carries user.id tgHandle h.state)
          (Task.sketch_mapErr ?_) fun _ => ?_
        · refine Task.sketch_commit (fun _ => Carries.stable) hpost ?_ ?_
          · intro h w' hI hA hacts hc
            refine ⟨hI.did hacts hc.2 (Plain.proper trivial), ?_⟩
            obtain ⟨row, hp, hhandle⟩ := hA
            cases hacts with
            | quiet _ _ _ hcommit => exact absurd rfl (hcommit _)
            | commit tx =>
              refine ⟨row, ?_, hhandle⟩
              change ((h.state.db.users.commit ⟨p, tx.no⟩).cell user.id).committed = _
              rw [Table.cell_commit, Cell.commit_committed_held hp]
          · exact fun h err w' hI _ hacts hc =>
              ⟨hI.did hacts hc.2 (Plain.proper trivial), trivial⟩
        · refine Task.sketch_pure fun h _ hA user'' hsome => ?_
          cases hsome
          rw [ho user' rfl]
          exact hA
    · exact Task.sketch_pure fun _ _ _ _ hsome => by cases hsome
  · intro tx r h w' hI hQ hacts hc
    refine ⟨hI.did hacts hc.2 (Plain.proper trivial), ?_⟩
    cases r with
    | ok o => exact fun user ho => hI.carries_did hacts hc.2 (hQ user ho)
    | _ => trivial

/-- What a button asks for once its user `u` is read. -/
def ExtendingFor (u : UserId) (e : Effect) : Prop :=
  Plain e ∨ ∃ tx before_, e = .fetch tx (.getExpiringHostsForUser u before_)

theorem emits_updatedLines_extending {u : UserId} (hosts : List Host) (idx : Nat) :
    Prog.Emits (ExtendingFor u) (updatedLines idx hosts) := by
  induction hosts generalizing idx with
  | nil => exact Task.emits_pure _
  | cons host hosts ih =>
    rw [updatedLines]
    split
    · exact Task.emits_bind (ih _) fun _ => Task.emits_pure _
    · exact Task.emits_bind (Task.emits_utcNow (.inl trivial)) fun _ =>
        Task.emits_bind (ih _) fun _ => Task.emits_pure _

/-- A button acts for the user whose handle it was pressed with. -/
theorem sketch_extendUserHosts (tgHandle : String) (hours : Int32) :
    machine.Sketch LinkCond Linked p n (fun _ _ => True) (extendUserHosts tgHandle hours)
      fun h => Clean p h.state ∧ Calls p n (.extendUserHosts tgHandle hours) h := by
  have hstable : machine.Stable LinkCond Linked p fun h =>
      Clean p h.state ∧ Calls p n (.extendUserHosts tgHandle hours) h :=
    stable_clean.and Calls.stable
  refine Task.sketch_withTx (fun _ h => Clean p h.state ∧
    Calls p n (.extendUserHosts tgHandle hours) h) (fun _ _ _ => True) (fun _ => hstable)
    (fun _ => .true) ?_ ?_ ?_ ?_
  · intro h tx w' hI hA ha hc
    have hdid := hI.clean_did hA.1 ha hc trivial (by simp)
    exact ⟨hdid.1, hdid.2, hA.2.did⟩
  · exact fun h err w' hI hA ha hc => ⟨(hI.clean_did hA.1 ha hc trivial (by simp)).1, trivial⟩
  · intro tx
    refine Machine.Sketch.post (Q := onOk fun _ _ => True) ?_ fun _ _ _ _ => trivial
    refine Task.sketch_bind (B := fun o h => Calls p n (.extendUserHosts tgHandle hours) h ∧
      ∀ user : User, o = some user → Carries user.id tgHandle h.state) (Task.sketch_mapErr ?_)
      fun o => ?_
    · refine Task.sketch_fetch (fun o => Calls.stable.and
        (.forall fun user => Carries.stable.imp_const)) .true ?_ ?_
      · intro h order o hI hA hrun hc
        refine ⟨hI.did (acts_fetch _) hc.2 (Plain.proper trivial), hA.2.did, fun user huser => ?_⟩
        subst huser
        obtain ⟨hmem, hhandle⟩ :=
          List.mem_filter.mp (mem_of_head?_arrange (Except.ok.inj hrun))
        rw [mem_view_users, hA.1.view_user] at hmem
        exact ⟨_, hmem, of_decide_eq_true hhandle⟩
      · exact fun h err hI _ hc => ⟨hI.did (acts_fetch _) hc.2 (Plain.proper trivial), trivial⟩
    split
    · exact Task.sketch_throw fun _ _ _ => trivial
    rename_i user
    -- From here on every effect is plain, but for the question for the user's hosts.
    have hkeep : ∀ h e env r w', ExtendingFor user.id e → Linked h →
        Calls p n (.extendUserHosts tgHandle hours) h ∧ Carries user.id tgHandle h.state →
        act p e env h.state = some (r, w') → LinkCond h (.did p n e r h.state w') →
        Linked (h.push (.did p n e r h.state w')) ∧
          Calls p n (.extendUserHosts tgHandle hours) (h.push (.did p n e r h.state w')) ∧
          Carries user.id tgHandle w' := by
      intro h e env r w' he hI hA ha hc
      have hacts := acts_of_act ha
      refine ⟨hI.did hacts hc.2 ?_, hA.1.did, hI.carries_did hacts hc.2 hA.2⟩
      rcases he with he | ⟨tx', before_, rfl⟩
      · exact he.proper
      · refine ⟨nofun, nofun, nofun, fun _ _ _ hx s hours' hcall => ?_⟩
        cases hx
        cases hA.1 _ hcall
        exact hA.2
    refine ((Machine.Sketch.keep ?_ (Calls.stable.and Carries.stable) hkeep).pre
      fun h _ hA => ⟨hA.1, hA.2 user rfl⟩).post fun r _ _ _ => by cases r <;> trivial
    refine Task.emits_bind (Task.emits_utcNow (.inl trivial)) fun now => ?_
    refine Task.emits_bind (Task.emits_mapErr (Task.emits_fetch (.inr ⟨_, _, rfl⟩)))
      fun hosts => ?_
    split
    · exact Task.emits_pure _
    · refine Task.emits_bind (Task.emits_mapErr (Task.emits_execute (.inl trivial))) fun _ => ?_
      refine Task.emits_bind (Task.emits_mapErr (Task.emits_fetch (.inl trivial))) fun _ => ?_
      refine Task.emits_bind (Task.emits_mapErr (Task.emits_commit (.inl trivial))) fun _ => ?_
      exact Task.emits_bind (emits_updatedLines_extending _ _) fun _ => Task.emits_pure _
  · exact fun tx r h w' hI _ hacts hc => ⟨hI.did hacts hc.2 (Plain.proper trivial), trivial⟩

/-! ## The passes of the timer -/

theorem Preparing.plain {e : Effect} (h : Preparing e) : Plain e := by
  cases h <;> trivial

/-- A notice goes to the chat of the user it is about. -/
theorem sketch_notice_linked (notifier : Notifier) {u : UserId} {ids : List HostId}
    (hids : ids ≠ []) :
    machine.Sketch LinkCond Linked .timer n
      (exits (fun _ h => Clean .timer h.state) (fun h => Clean .timer h.state)
        fun h => Clean .timer h.state)
      (notifier.notify u (.expirationSoon ids)) fun h => Clean .timer h.state := by
  refine sketch_expirationSoon notifier hids
    (A := fun o h => Clean .timer h.state ∧ ∀ user : User, o = some user → ∀ tgHandle,
      user.tgHandle = some tgHandle → Carries user.id tgHandle h.state)
    (fun o => stable_clean.and (.forall fun user => .imp_const (.forall fun s =>
      Carries.stable.imp_const))) stable_clean stable_clean stable_clean stable_clean
    ?_ ?_ ?_ ?_ ?_ ?_ ?_
  · exact fun h hI hclean hc => hI.clean_did hclean acts_notify hc trivial (by simp)
  · intro h r w' hI hclean hacts hc
    have hdid := hI.clean_did hclean hacts hc trivial (by simp)
    exact ⟨hdid.1, fun _ => ⟨hdid.2, nofun⟩, fun _ => hdid.2⟩
  · intro h o e r he hI hA hacts hc
    have hdid := hI.clean_did hA.1 hacts hc he.plain he.not_execute
    exact ⟨hdid.1, hdid.2, hA.2⟩
  · intro h tx order user hI hA hrun hA'
    refine ⟨hA'.1, fun user' ho s hs => ?_⟩
    cases ho
    have hmem := (List.mem_filter.mp (mem_of_head?_arrange (Except.ok.inj hrun))).1
    rw [mem_view_users, hA.1.view_user] at hmem
    exact ⟨_, hmem, hs⟩
  · exact fun h user tx order hs hI hA hrun hc => .inr fun h _ hA => hA.1
  · intro h sender msg r _ _ hI hA hc
    have hpush : Linked (h.push (.did .timer n (.send sender msg) r h.state h.state)) := by
      refine hI.did (acts_send r) hc.2 ⟨nofun, nofun, fun _ sender' msg' ids' hx hmsg s hs => ?_,
        nofun⟩
      cases hx
      exact hA.2 sender.user rfl s hs
    exact ⟨hpush, fun _ => hA.1, fun _ => hA⟩
  · intro h tx w' hI hacts hc _
    exact ⟨hI.did hacts hc.2 (Plain.proper trivial), fun o hA => hacts.clean (by simp) hA.1,
      hacts.clean (by simp), hacts.clean (by simp)⟩

theorem sketch_notifySoonRelease_linked (self : ReleaseTimer) (notifier : Notifier) :
    machine.Sketch LinkCond Linked .timer n (fun _ _ => True) (self.notifySoonRelease notifier)
      fun h => Clean .timer h.state := by
  refine Task.sketch_withTx (fun _ h => Clean .timer h.state) (fun _ _ _ => True)
    (fun _ => stable_clean) (fun _ => .true) ?_ ?_ ?_ ?_
  · exact fun h tx w' hI hclean ha hc => hI.clean_did hclean ha hc trivial (by simp)
  · exact fun h err w' hI hclean ha hc =>
      ⟨(hI.clean_did hclean ha hc trivial (by simp)).1, trivial⟩
  · intro tx
    refine Machine.Sketch.post (Q := exits (fun _ _ => True) (fun _ => True)
      fun h => Clean .timer h.state) ?_ fun _ _ _ _ => trivial
    refine Task.sketch_bind (B := fun _ h => Clean .timer h.state) (Task.sketch_utcNow
      (fun _ => stable_clean) fun h now hI hclean hc =>
        ⟨hI.did (acts_now _) hc.2 (Plain.proper trivial), hclean⟩) fun now => ?_
    refine Task.sketch_bind (B := fun _ h => Clean .timer h.state) (Task.sketch_mapErr ?_)
      fun hosts => ?_
    · refine Task.sketch_fetch (fun _ => stable_clean) .true ?_ ?_
      · exact fun h order hosts hI hclean _ hc =>
          ⟨hI.did (acts_fetch _) hc.2 (Plain.proper trivial), hclean⟩
      · exact fun h err hI _ hc => ⟨hI.did (acts_fetch _) hc.2 (Plain.proper trivial), trivial⟩
    refine Task.sketch_bind (B := fun _ h => Clean .timer h.state) (Task.sketch_hashOrder
      (fun _ => stable_clean) fun h o hI hclean hc =>
        ⟨hI.did (acts_hashOrder o) hc.2 (Plain.proper trivial), hclean⟩) fun order => ?_
    refine Task.sketch_bind (B := fun _ h => Clean .timer h.state)
      (sketch_notifySoon notifier (I := fun _ _ h => Clean .timer h.state)
        (fun _ _ => stable_clean) ?_ (fun _ _ _ _ _ _ hclean _ => hclean)
        (fun u ids rest sent ids' hids _ => sketch_notice_linked notifier hids) _ _)
      fun _ => Task.sketch_pure fun _ _ _ => trivial
    exact fun h o _ _ hI hclean hc =>
      ⟨hI.did (acts_hashOrder o) hc.2 (Plain.proper trivial), hclean⟩
  · exact fun tx r h w' hI _ hacts hc => ⟨hI.did hacts hc.2 (Plain.proper trivial), trivial⟩

end Calls

/-! ## Runs -/

/-- Handles are numbers of Telegram accounts, and no two users have the same. -/
structure Tables.Identified (t : Tables) : Prop where
  handles : ∀ x ∈ t.users, ∀ tgHandle, x.tgHandle = some tgHandle → ∃ id, tgHandle = tgUserId id
  unique : ∀ x ∈ t.users, ∀ y ∈ t.users, ∀ tgHandle, x.tgHandle = some tgHandle →
    y.tgHandle = some tgHandle → x.id = y.id

theorem Tables.Identified.linked {t : Tables} (h : t.Identified) : Linked ⟨t.world, []⟩ where
  handles id := by
    refine ⟨fun r s hr hs => ?_, fun x v hp => ?_⟩
    · obtain ⟨x, hx, rfl, rfl⟩ := t.world_user.mp hr
      exact h.handles x hx s hs
    · exact (t.users_holds (fun _ _ _ => False) id x v hp).elim
  alone := ⟨fun x => ⟨0⟩, t.users_holds _⟩
  unique u v s hu hv := by
    obtain ⟨r, hr, hs⟩ := hu
    obtain ⟨r', hr', hs'⟩ := hv
    obtain ⟨x, hx, rfl, rfl⟩ := t.world_user.mp hr
    obtain ⟨y, hy, rfl, rfl⟩ := t.world_user.mp hr'
    exact h.unique x hx y hy s hs hs'
  sent _ _ _ _ _ _ hev := absurd hev List.not_mem_nil
  pressed _ _ _ _ _ _ _ _ _ _ hev := absurd hev List.not_mem_nil

theorem Call.returns_other {κ : Call} (h : ∀ link s, κ ≠ .linkUser link s) (l : Local) :
    (κ.body l).Returns fun l' => ∀ link s r, l' ≠ .linked link s r := by
  rcases κ.body_cases l with hb | hb
  · rw [hb]; exact nofun
  · rw [hb]
    cases κ with
    | linkUser link s => exact absurd rfl (h link s)
    | release => exact .bind (Prog.returns_true _) fun r _ => by cases r <;> exact nofun
    | notifyReleasedHosts => exact .bind (Prog.returns_true _) fun r _ => by cases r <;> exact nofun
    | notifySoonRelease => exact .bind (Prog.returns_true _) fun r _ => by cases r <;> exact nofun
    | _ => exact .bind (Prog.returns_true _) fun r _ => nofun

/-- What an idle task promises: the user that it has linked carries the handle. -/
def LinkedBy (l : Local) (h : History) : Prop :=
  ∀ link tgHandle (user : User), l = .linked link tgHandle (.ok (some user)) →
    Carries user.id tgHandle h.state

theorem linked_of_run {t : Tables} (h₀ : t.Identified) {timer : ReleaseTimer} {c : System}
    (hrun : machine.Run LinkCond (t.systemWith timer) c) :
    Linked c.hist ∧ ∀ p l, (c.threads p).prog = .ret l → LinkedBy l c.hist := by
  refine run_sound Linked (fun _ _ => LinkedBy) (fun _ _ hc => hc.1) h₀.linked ?_ ?_
    (fun h p n κ hpast hI => hI.called κ hpast) ?_ hrun
  · intro p l hl link s user hlink
    cases p with
    | timer => cases hl; cases hlink
    | task i => cases hl; cases hlink
  · exact fun p n l => .forall fun link => .forall fun s => .forall fun user =>
      Carries.stable.imp_const
  · intro p n κ l hok
    -- A call that does not link promises nothing.
    have hother : (∀ link s, κ ≠ .linkUser link s) → ∀ A, machine.Sketch LinkCond Linked p (n + 1)
        (fun _ _ => True) (κ.body l) A →
        machine.Sketch LinkCond Linked p (n + 1) LinkedBy (κ.body l) A := by
      intro hlink A hsk
      refine (((Machine.Sketch.of_returns (κ.returns_other hlink l)).and hsk).pre
        fun h _ hA => ⟨trivial, hA⟩).post fun l' h _ hQ link s user hl' => ?_
      exact absurd hl' (hQ.1 link s _)
    rcases κ.body_cases l with hb | hb
    · refine ⟨fun _ => True, .true, fun _ _ _ _ _ => trivial, ?_⟩
      rw [hb]
      exact fun _ _ _ _ _ _ hl => by cases hl
    · cases κ with
      | linkUser link s =>
        refine ⟨fun h => Clean p h.state, stable_clean, fun _ _ _ _ hclean => hclean, ?_⟩
        rw [hb]
        refine .bind (sketch_linkUser link (hok.2 link s rfl)) fun r h _ hQ link' s' user hl => ?_
        cases hl
        exact hQ user rfl
      | extendUserHosts s hours =>
        refine ⟨fun h => Clean p h.state ∧ Calls p (n + 1) (.extendUserHosts s hours) h,
          stable_clean.and Calls.stable,
          fun h hpast _ _ hclean => ⟨hclean, calls_of_call hpast⟩, hother nofun _ ?_⟩
        rw [hb]
        exact .bind (sketch_extendUserHosts s hours) fun _ _ _ _ => trivial
      | notifySoonRelease notifier =>
        cases p with
        | task i => cases hok.1
        | timer =>
          refine ⟨fun h => Clean .timer h.state, stable_clean, fun _ _ _ _ hclean => hclean,
            hother nofun _ ?_⟩
          rw [hb]
          exact .bind (sketch_notifySoonRelease_linked _ notifier) fun _ _ _ _ => trivial
      | release =>
        refine ⟨_, Calls.stable, fun h hpast _ _ _ => calls_of_call hpast, hother nofun _
          (sketch_other nofun nofun fun _ => ?_)⟩
        rw [hb]
        exact .bind (ReleaseTimer.emits_release_noNotice _) fun _ => trivial
      | notifyReleasedHosts notifier released =>
        refine ⟨_, Calls.stable, fun h hpast _ _ _ => calls_of_call hpast, hother nofun _
          (sketch_other nofun nofun fun _ => ?_)⟩
        rw [hb]
        exact .bind (ReleaseTimer.emits_notifyReleasedHosts_noNotice _ _) fun _ => trivial
      | _ =>
        refine ⟨_, Calls.stable, fun h hpast _ _ _ => calls_of_call hpast, hother nofun _
          (sketch_other nofun nofun fun hp => ?_)⟩
        subst hp
        cases hok.1

/-- A handle that is committed stays. -/
theorem carries_of_run {t : Tables} (h₀ : t.Identified) {timer : ReleaseTimer} {c₁ c : System}
    (h₁ : machine.Run LinkCond (t.systemWith timer) c₁) (h₂ : machine.Run LinkCond c₁ c)
    {u : UserId} {tgHandle : String} (hu : Carries u tgHandle c₁.hist.state) :
    Carries u tgHandle c.hist.state := by
  induction h₂ with
  | refl => exact hu
  | @step c c' l ev hpre hs he hc ih =>
    have hI := (linked_of_run h₀ (h₁.trans machine hpre)).1
    have hl := machine.legal_of_step hs he
    rw [he]
    cases ev with
    | called q m κ => exact ih
    | did q m e r w w' =>
      obtain ⟨rfl, hacts⟩ := acts_of_legal hl
      exact hI.carries_did hacts hc.2 ih

/-- Who carries a handle is found by it, whichever row comes first. -/
theorem Linked.found {h : History} (hI : Linked h) {u : UserId} {tgHandle : String}
    (hu : Carries u tgHandle h.state) (order : List Nat) : ∃ user,
    Select.run order h.state.db.committed (.getUserByTgHandle tgHandle) = .ok (some user) ∧
      user.id = u := by
  obtain ⟨row, hrow, hhandle⟩ := hu
  have hmem : ({ row with id := u } : User) ∈
      arrange order (h.state.db.committed.users.filter fun u => u.tgHandle = some tgHandle) :=
    mem_arrange.mpr (List.mem_filter.mpr ⟨mem_committed_users.mpr hrow, decide_eq_true hhandle⟩)
  cases hfound : (arrange order
      (h.state.db.committed.users.filter fun u => u.tgHandle = some tgHandle)).head? with
  | none =>
    rw [List.head?_eq_none_iff.mp hfound] at hmem
    cases hmem
  | some user =>
    obtain ⟨huser, hs⟩ := List.mem_filter.mp (mem_of_head?_arrange hfound)
    refine ⟨user, congrArg Except.ok hfound, ?_⟩
    exact hI.unique user.id u tgHandle ⟨_, mem_committed_users.mp huser, of_decide_eq_true hs⟩
      ⟨row, hrow, hhandle⟩

/-- A notice for the user was delivered, over Telegram, to the chat. -/
def Delivered (u : UserId) (chat : Int) (tr : Trace) : Prop :=
  ∃ n sender msg ids w w', Event.did .timer n (.send sender msg) (.ok ()) w w' ∈ tr ∧
    msg.notification = .expirationSoon ids ∧ sender.user.id = u ∧ sender.chatId = chat ∧
    tgMessages.getMessageSender sender.user = .ok chat

/-- A button that was pressed in the chat acted on the hosts of the user. -/
def Pressed (u : UserId) (chat : Int) (tr : Trace) : Prop :=
  ∃ q m account hours tx before_ r w w', (UInt64.toNat account : Int) = chat ∧
    Event.called q m (.extendUserHosts (tgUserId account) hours) ∈ tr ∧
    Event.did q m (.fetch tx (.getExpiringHostsForUser u before_)) r w w' ∈ tr

theorem Linked.pressed_of_delivered {h : History} (hI : Linked h) {u v : UserId} {chat : Int}
    (hu : Delivered u chat h.trace) (hv : Pressed v chat h.trace) : v = u := by
  obtain ⟨n, sender, msg, ids, w, w', hev, hmsg, rfl, -, hsender⟩ := hu
  obtain ⟨q, m, account, hours, tx, before_, r, w₁, w₁', haccount, hcall, hpress⟩ := hv
  -- The chat is the number that is the user's handle.
  simp only [tgMessages] at hsender
  split at hsender
  · cases hsender
  rename_i tgHandle hhandle
  split at hsender
  · cases hsender
  rename_i chat' hparse
  cases hsender
  have hu := hI.sent n sender msg ids w w' hev hmsg tgHandle hhandle
  obtain ⟨row, hrow, hs⟩ := hu
  obtain ⟨id, rfl⟩ := (hI.handles sender.user.id).committed row tgHandle hrow hs
  have hchat := parseI64_toString hparse
  have hid : tgUserId account = tgUserId id := by
    rw [tgUserId, tgUserId]
    exact congrArg toString (Int.ofNat_inj.mp (haccount.trans hchat))
  rw [hid] at hcall
  exact hI.unique v sender.user.id _
    (hI.pressed q m _ hours tx v before_ r w₁ w₁' hcall hpress) ⟨row, hrow, hs⟩

/-- **A Telegram account tells its user**, in every run in which each account is linked to one user
    and each user to one account: no two users carry one handle; a user that was linked is found by
    the handle from then on; and a button acts for the user whose notice its chat has got. -/
theorem identified_of_run (t : Tables) (h₀ : t.Identified) (timer : ReleaseTimer) {c₁ c : System}
    (h₁ : machine.Run LinkCond (t.systemWith timer) c₁) (h₂ : machine.Run LinkCond c₁ c) :
    (∀ u v tgHandle, Carries u tgHandle c.hist.state → Carries v tgHandle c.hist.state → u = v) ∧
    (∀ p link tgHandle (user : User),
      (c₁.threads p).prog = .ret (.linked link tgHandle (.ok (some user))) → ∀ order, ∃ user',
        Select.run order c.hist.state.db.committed (.getUserByTgHandle tgHandle) =
          .ok (some user') ∧
          user'.id = user.id) ∧
    ∀ u v chat, Delivered u chat c.hist.trace → Pressed v chat c.hist.trace → v = u := by
  have hI := (linked_of_run h₀ (h₁.trans machine h₂)).1
  refine ⟨hI.unique, fun p link s user hp order => ?_, fun u v chat => hI.pressed_of_delivered⟩
  have hu := (linked_of_run h₀ h₁).2 p _ hp link s user rfl
  exact hI.found (carries_of_run h₀ h₁ h₂ hu) order

/-- Calls in which the only account that is linked has the given number. -/
def linksOnly (account : UInt64) (p : Pid) (κ : Call) : Prop :=
  proper p κ ∧ (match κ with | .linkUser _ s => decide (s = tgUserId account) | _ => true) = true

instance (account : UInt64) (p : Pid) (κ : Call) : Decidable (linksOnly account p κ) :=
  inferInstanceAs (Decidable (_ ∧ _))

theorem telegram_of_linksOnly {account : UInt64} {p : Pid} {κ : Call} (h : linksOnly account p κ) :
    telegram p κ := by
  refine ⟨h.1, fun link s hκ => ?_⟩
  subst hκ
  exact ⟨account, of_decide_eq_true h.2⟩

theorem calling_telegram {account : UInt64} {h : History} {ev : Ev}
    (hc : Machine.Calling (linksOnly account) h ev) : Machine.Calling telegram h ev := by
  cases ev with
  | called p n κ => exact telegram_of_linksOnly hc
  | did => trivial

theorem small_identified (lease : Option (Bool × Time)) : (small lease).Identified where
  handles x hx s hs := by
    rcases List.mem_cons.mp hx with rfl | hx
    · exact ⟨7, (Option.some.inj hs).symm⟩
    · obtain rfl := List.mem_singleton.mp hx
      cases hs
  unique x hx y hy s hs hs' := by
    rcases List.mem_cons.mp hx with rfl | hx <;> rcases List.mem_cons.mp hy with rfl | hy
    · rfl
    · obtain rfl := List.mem_singleton.mp hy
      cases hs'
    · obtain rfl := List.mem_singleton.mp hx
      cases hs
    · obtain rfl := List.mem_singleton.mp hx
      obtain rfl := List.mem_singleton.mp hy
      rfl

/-- `bob` is linked to an account of his own, and `alice` presses a button of her notice. -/
theorem identified_of_run_small : ∃ c,
    machine.Run LinkCond ((small (some (true, 5))).systemWith .new) c ∧
      (∀ u v s, Carries u s c.hist.state → Carries v s c.hist.state → u = v) ∧
      (∀ p link s (user : User), (c.threads p).prog = .ret (.linked link s (.ok (some user))) →
        ∀ order, ∃ user', Select.run order c.hist.state.db.committed (.getUserByTgHandle s) =
          .ok (some user') ∧ user'.id = user.id) ∧
      ∀ u v chat, Delivered u chat c.hist.trace → Pressed v chat c.hist.trace → v = u := by
  obtain ⟨c, hrun, -⟩ := machine.exists_run_of_exec
    (fun h ev => Machine.Calling (linksOnly 8) h ev ∧ LinkOnce h ev)
    ((small (some (true, 5))).systemWith .new)
    [.call (.task 0) (.linkUser "link-bob" "8"), .act (.task 0) {}, .act (.task 0) {},
      .act (.task 0) {}, .act (.task 0) {}, .act (.task 0) {}, .act (.task 0) {},
      .call .timer (.notifySoonRelease tgMessages), .act .timer {}, .act .timer {}, .act .timer {},
      .act .timer {}, .act .timer {}, .act .timer {}, .act .timer {}, .act .timer {},
      .act .timer {}, .act .timer {}, .act .timer {}, .call (.task 1) (.extendUserHosts "7" 1),
      .act (.task 1) {}, .act (.task 1) {}, .act (.task 1) {}, .act (.task 1) {}]
    (fun _ => true) (by decide +kernel)
  have hrun := hrun.mono machine fun _ _ hc => (⟨calling_telegram hc.1, hc.2⟩ : LinkCond _ _)
  exact ⟨c, hrun, identified_of_run _ (small_identified _) .new hrun .refl⟩

/-- `bob` is linked to the account of `alice`. -/
theorem not_identified : ∃ c,
    machine.Run (Machine.Calling telegram) ((small none).systemWith .new) c ∧
      ∃ u v s, u ≠ v ∧ Carries u s c.hist.state ∧ Carries v s c.hist.state := by
  obtain ⟨c, hrun, hc⟩ := machine.exists_run_of_exec (Machine.Calling (linksOnly 7))
    ((small none).systemWith .new)
    [.call (.task 0) (.linkUser "link-bob" "7"), .act (.task 0) {}, .act (.task 0) {},
      .act (.task 0) {}, .act (.task 0) {}, .act (.task 0) {}, .act (.task 0) {}]
    (fun c => (c.hist.state.user alice.id).any (fun r => r.tgHandle = some "7") &&
      (c.hist.state.user bob.id).any (fun r => r.tgHandle = some "7")) (by decide +kernel)
  refine ⟨c, hrun.mono machine fun _ _ => calling_telegram, alice.id, bob.id, "7", by decide, ?_⟩
  obtain ⟨halice, hbob⟩ := (Bool.and_eq_true _ _).mp hc
  obtain ⟨r, hr, hs⟩ := (Option.any_eq_true _ _).mp halice
  obtain ⟨r', hr', hs'⟩ := (Option.any_eq_true _ _).mp hbob
  exact ⟨⟨r, hr, of_decide_eq_true hs⟩, r', hr', of_decide_eq_true hs'⟩

end Tachikoma
