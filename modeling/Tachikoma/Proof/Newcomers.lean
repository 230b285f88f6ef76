import Tachikoma.Listings
import Tachikoma.Proof.Holders
import Tachikoma.Proof.Gap

/-!
# A listing between two logins

The listing of all hosts reads the accounts first and the hosts afterwards, and what it shows of a
lease it finds by looking the holder up in the accounts. Who logs in **for the first time in
between**, and takes a host, is not among them: the host is shown as free.

That is the only way, as long as a host that is held has a deadline. Three facts carry it, for all
interleavings:

* nobody deletes a user, and who holds a host is a user (`Tachikoma/Proof/Holders.lean`), so a
  holder that the first reading did not see was added after it;
* both readings see what is committed, for a task has nothing pending between its calls;
* what happened between the readings is in the trace (`Since`).
-/

set_option autoImplicit false

namespace Tachikoma

open Interleaving Joins Versioned Unordered

variable {p : Pid} {n : Nat} {w w' : World} {e : Effect} {r : e.Res}

/-! ## Between the readings -/

section Trace

variable {K K' : Type}

/-- The event adds the account of `u`. -/
def AddsAccount (u : UserId) : Event Pid Effect Effect.Res World K → Prop
  | .called _ _ _ => False
  | .did _ _ _ _ before after => before.user u = none ∧ after.user u ≠ none

/-- The accounts of `w` are those of `w₁` and the ones that were added `since`. -/
structure Since (w₁ : World) (since : List (Event Pid Effect Effect.Res World K)) (w : World) :
    Prop where
  kept : ∀ u, w₁.user u ≠ none → w.user u ≠ none
  added : ∀ u, (∃ ev ∈ since, AddsAccount u ev) ↔ w₁.user u = none ∧ w.user u ≠ none

theorem Since.refl (w : World) : Since w ([] : List (Event Pid Effect Effect.Res World K)) w where
  kept _ hu := hu
  added u := by simp

/-- One more effect. -/
theorem Since.did {w₁ : World} {since : List (Event Pid Effect Effect.Res World K)} {q : Pid}
    {m : Nat} (h : Since w₁ since w) (hkept : ∀ u, w.user u ≠ none → w'.user u ≠ none) :
    Since w₁ (.did q m e r w w' :: since) w' where
  kept u hu := hkept u (h.kept u hu)
  added u := by
    have hold := h.added u
    have hkept₁ := h.kept u
    rw [List.exists_mem_cons_iff, hold]
    constructor
    · intro hyp
      rcases hyp with ⟨hnone, hthere⟩ | ⟨hnone, hthere⟩
      · exact ⟨by_contra fun hu => hkept₁ hu hnone, hthere⟩
      · exact ⟨hnone, hkept u hthere⟩
    · intro hyp
      by_cases hu : w.user u = none
      · exact .inl ⟨hu, hyp.2⟩
      · exact .inr ⟨hyp.1, hu⟩

theorem Since.called {w₁ : World} {since : List (Event Pid Effect Effect.Res World K)} {q : Pid}
    {m : Nat} {κ : K} (h : Since w₁ since w) : Since w₁ (.called q m κ :: since) w where
  kept := h.kept
  added u := by
    rw [List.exists_mem_cons_iff, h.added u]
    exact or_iff_right id

/-- The `n`-th call of `p` has read the accounts in the world `w₁`; `since` is what has happened
    after that, newest first. -/
def AccountsRead (p : Pid) (n : Nat) (w₁ : World)
    (since trace : List (Event Pid Effect Effect.Res World K)) : Prop :=
  ∃ tx users earlier, trace =
    since ++ .did p n (.fetch tx .getAllUsers) (.ok users) w₁ w₁ :: earlier

/-- And then the hosts, in the world `w₂`. -/
def HostsRead (p : Pid) (n : Nat) (w₁ : World)
    (between : List (Event Pid Effect Effect.Res World K)) (w₂ : World)
    (trace : List (Event Pid Effect Effect.Res World K)) : Prop :=
  ∃ tx hosts later earlier, AccountsRead p n w₁ between earlier ∧
    trace = later ++ .did p n (.fetch tx .getAllHosts) (.ok hosts) w₂ w₂ :: earlier

/-- The host as the event, the second reading of the call, has found it. -/
def readingOf (p : Pid) (n : Nat) (id : HostId) :
    Event Pid Effect Effect.Res World K → Option HostRow
  | .did q m (.fetch _ .getAllHosts) (.ok _) w _ => if q = p ∧ m = n then w.host id else none
  | _ => none

theorem eq_did_of_readingOf {id : HostId} {row : HostRow}
    {ev : Event Pid Effect Effect.Res World K} (h : readingOf p n id ev = some row) :
    ∃ tx hosts w w', ev = .did p n (.fetch tx .getAllHosts) (.ok hosts) w w' ∧
      w.host id = some row := by
  unfold readingOf at h
  split at h
  · rename_i q m tx hosts w w'
    split at h
    · rename_i heq
      obtain ⟨rfl, rfl⟩ := heq
      exact ⟨tx, hosts, w, w', rfl, h⟩
    · cases h
  · cases h

/-- Of the hosts that are shown as free none has a holder in `w`. -/
def ShownFree (infos : List HostInfo) (w : World) : Prop :=
  ∀ info ∈ infos, info.leaseInfo = none → ∀ row, w.host info.id = some row → row.userId = none

/-- Whoever holds a host has a deadline there, and an account that was not added `between`. -/
def OldHolders (between : List (Event Pid Effect Effect.Res World K)) (w : World) : Prop :=
  ∀ id row u, w.host id = some row → row.userId = some u →
    row.leasedUntil ≠ none ∧ ∀ ev ∈ between, ¬ AddsAccount u ev

/-- The `n`-th call of `p` lists the hosts as `infos`, and when that shows no host as free that has
    a holder. -/
def ListsHosts (p : Pid) (n : Nat) (infos : List HostInfo)
    (trace : List (Event Pid Effect Effect.Res World K)) : Prop :=
  ∃ w₁ between w₂, HostsRead p n w₁ between w₂ trace ∧ (ShownFree infos w₂ ↔ OldHolders between w₂)

theorem addsAccount_mapCall {f : K → K'} {u : UserId} {ev : Event Pid Effect Effect.Res World K} :
    AddsAccount u (ev.mapCall f) ↔ AddsAccount u ev := by
  cases ev <;> exact Iff.rfl

theorem eq_did_of_mapCall {f : K → K'} {q : Pid} {m : Nat}
    {ev : Event Pid Effect Effect.Res World K} (h : ev.mapCall f = .did q m e r w w') :
    ev = .did q m e r w w' := by
  cases ev with
  | called q m κ => cases h
  | did q m e r w w' => cases h; rfl

/-- None of this is about how the calls are named. -/
theorem ListsHosts.of_mapCall {f : K → K'} {infos : List HostInfo}
    {trace : List (Event Pid Effect Effect.Res World K)}
    (h : ListsHosts p n infos (trace.map (Event.mapCall f))) : ListsHosts p n infos trace := by
  obtain ⟨w₁, between, w₂, ⟨tx, hosts, later, earlier, ⟨tx₁, users, earliest, heq₁⟩, heq⟩,
    hiff⟩ := h
  obtain ⟨later', rest, rfl, rfl, hrest⟩ := List.map_eq_append_iff.mp heq
  obtain ⟨ev, earlier', rfl, hev, rfl⟩ := List.map_eq_cons_iff.mp hrest
  obtain rfl := eq_did_of_mapCall hev
  obtain ⟨between', rest₁, rfl, rfl, hrest₁⟩ := List.map_eq_append_iff.mp heq₁
  obtain ⟨ev₁, earliest', rfl, hev₁, rfl⟩ := List.map_eq_cons_iff.mp hrest₁
  obtain rfl := eq_did_of_mapCall hev₁
  refine ⟨w₁, between', w₂, ⟨tx, hosts, later', _, ⟨tx₁, users, earliest', rfl⟩, rfl⟩, ?_⟩
  rw [hiff]
  simp only [OldHolders, List.forall_mem_map, addsAccount_mapCall]

end Trace

/-! ## What is shown -/

/-- The accounts as they were read, and the hosts. -/
structure Answered (users : List User) (hosts : List Host) (w₁ w₂ : World) : Prop where
  users : ∀ u, u ∈ users.map (·.id) ↔ w₁.user u ≠ none
  hosts : ∀ id row, w₂.host id = some row ↔ ∃ h ∈ hosts, h.id = id ∧ h.toHostRow = row

/-- The entries of a listing, each with its own reading of the clock. -/
def Shows (pairs : List (Host × Option User)) (infos : List HostInfo) : Prop :=
  List.Forall₂ (fun x info => ∃ now, info = HostInfo.ofHost now x.1 x.2) pairs infos

theorem leaseInfoOf_eq_none {now : Time} {user : Option User} {leasedUntil : Option Time} :
    leaseInfoOf now user leasedUntil = none ↔ user = none ∨ leasedUntil = none := by
  cases user <;> cases leasedUntil <;> simp [leaseInfoOf]

theorem Shows.exists_pair {pairs : List (Host × Option User)} {infos : List HostInfo}
    (h : Shows pairs infos) {info : HostInfo} (hinfo : info ∈ infos) :
    ∃ x ∈ pairs, ∃ now, info = HostInfo.ofHost now x.1 x.2 := by
  induction h with
  | nil => cases hinfo
  | @cons x _ _ _ hx _ ih =>
    rcases List.mem_cons.mp hinfo with rfl | hinfo
    · exact ⟨x, List.mem_cons_self, hx⟩
    · obtain ⟨y, hy, hshown⟩ := ih hinfo
      exact ⟨y, List.mem_cons_of_mem _ hy, hshown⟩

theorem Shows.exists_info {pairs : List (Host × Option User)} {infos : List HostInfo}
    (h : Shows pairs infos) {x : Host × Option User} (hx : x ∈ pairs) :
    ∃ info ∈ infos, ∃ now, info = HostInfo.ofHost now x.1 x.2 := by
  induction h with
  | nil => cases hx
  | @cons _ info _ _ hinfo _ ih =>
    rcases List.mem_cons.mp hx with rfl | hx
    · exact ⟨info, List.mem_cons_self, hinfo⟩
    · obtain ⟨info', hinfo', hshown⟩ := ih hx
      exact ⟨info', List.mem_cons_of_mem _ hinfo', hshown⟩

/-- **What is shown as free.** -/
theorem Answered.shownFree_iff {users : List User} {hosts : List Host} {w₁ w₂ : World}
    {infos : List HostInfo} {K : Type} {between : List (Event Pid Effect Effect.Res World K)}
    (h : Answered users hosts w₁ w₂) (hk : HoldersKnown w₂) (hsince : Since w₁ between w₂)
    (hshows : Shows (pairHosts users hosts) infos) :
    ShownFree infos w₂ ↔ OldHolders between w₂ := by
  constructor
  · intro hfree id row u hrow hu
    obtain ⟨x, hx, rfl, rfl⟩ := (h.hosts id row).mp hrow
    obtain ⟨info, hinfo, now, rfl⟩ := hshows.exists_info (List.mem_map_of_mem hx)
    have hlease : leaseInfoOf now (x.userId.bind (indexBy User.id users)) x.leasedUntil ≠ none := by
      intro hnone
      rw [hfree _ hinfo hnone x.toHostRow hrow] at hu
      cases hu
    rw [hu, Option.bind_some, Ne, leaseInfoOf_eq_none, not_or] at hlease
    refine ⟨hlease.2, fun ev hev hadds => hlease.1 ?_⟩
    rw [indexBy_eq_none, h.users u, not_not]
    exact ((hsince.added u).mp ⟨ev, hev, hadds⟩).1
  · intro hold info hinfo hnone row hrow
    obtain ⟨pair, hpair, now, rfl⟩ := hshows.exists_pair hinfo
    obtain ⟨x, hx, rfl⟩ := List.mem_map.mp hpair
    have hx' : w₂.host x.id = some x.toHostRow := (h.hosts x.id x.toHostRow).mpr ⟨x, hx, rfl, rfl⟩
    obtain rfl : x.toHostRow = row := Option.some.inj (hx'.symm.trans hrow)
    by_contra hheld
    obtain ⟨u, hu⟩ := Option.ne_none_iff_exists'.mp hheld
    obtain ⟨hdeadline, hnew⟩ := hold x.id x.toHostRow u hx' hu
    change leaseInfoOf now (x.userId.bind (indexBy User.id users)) x.leasedUntil = none at hnone
    rw [hu, Option.bind_some, leaseInfoOf_eq_none, indexBy_eq_none, h.users u, not_not] at hnone
    rcases hnone with hmissing | hmissing
    · -- A holder is a user; who was none at the first reading has become one since.
      obtain ⟨ev, hev, hadds⟩ := (hsince.added u).mpr ⟨hmissing, hk.committed _ _ _ hx' hu⟩
      exact hnew ev hev hadds
    · exact hdeadline hmissing

/-! ## A listing

Its sketch is one for the system without listings; it holds in the other system as well. -/

/-- What every run keeps. -/
def HoldersKnownIn (h : History) : Prop := HoldersKnown h.state

/-- Between the readings. -/
structure KnowsAccounts (p : Pid) (n : Nat) (users : List User) (h : History) : Prop where
  clean : Clean p h.state
  read : ∃ w₁ since, AccountsRead p n w₁ since h.trace ∧
    (∀ u, u ∈ users.map (·.id) ↔ w₁.user u ≠ none) ∧ Since w₁ since h.state

/-- After them. -/
def KnowsHosts (p : Pid) (n : Nat) (users : List User) (hosts : List Host) (h : History) : Prop :=
  ∃ w₁ between w₂, HostsRead p n w₁ between w₂ h.trace ∧ Answered users hosts w₁ w₂ ∧
    Since w₁ between w₂ ∧ HoldersKnown w₂

section Sketch

variable {Cond : History → Ev → Prop} {users : List User} {hosts : List Host} {h : History}

theorem KnowsAccounts.did {q : Pid} {m : Nat} (hA : KnowsAccounts p n users h)
    (hk : HoldersKnownIn h) (hacts : Acts q h.state e r w') (hclean : Clean p w') :
    KnowsAccounts p n users (h.push (.did q m e r h.state w')) := by
  obtain ⟨-, w₁, since, ⟨tx, rows, earlier, htrace⟩, husers, hsince⟩ := hA
  refine ⟨hclean, w₁, .did q m e r h.state w' :: since, ⟨tx, rows, earlier, ?_⟩, husers, ?_⟩
  · rw [Hist.push_trace, htrace, List.cons_append]
  · exact hsince.did fun u => hacts.user_ne_none hk.kept

theorem KnowsAccounts.stable :
    machine.Stable Cond HoldersKnownIn p (KnowsAccounts p n users) := by
  intro h ev hI hA hne hl _
  cases ev with
  | called q m κ =>
    obtain ⟨hclean, w₁, since, ⟨tx, rows, earlier, htrace⟩, husers, hsince⟩ := hA
    refine ⟨hclean, w₁, .called q m κ :: since, ⟨tx, rows, earlier, ?_⟩, husers, hsince.called⟩
    rw [Hist.push_trace, htrace, List.cons_append]
  | did q m e r w w' =>
    obtain ⟨rfl, hacts⟩ := acts_of_legal hl
    exact hA.did hI hacts (hacts.clean_of_ne hne hA.clean)

/-- An effect of the listing itself, which writes nothing. -/
theorem KnowsAccounts.own (hA : KnowsAccounts p n users h) (hk : HoldersKnownIn h)
    (hacts : Acts p h.state e r w') (he : ∀ tx x, e ≠ .execute tx x) :
    HoldersKnownIn (h.push (.did p n e r h.state w')) ∧
      KnowsAccounts p n users (h.push (.did p n e r h.state w')) :=
  ⟨hacts.holdersKnown hk, hA.did hk hacts (hacts.clean he hA.clean)⟩

theorem KnowsHosts.push (h : History) (ev : Ev) (hA : KnowsHosts p n users hosts h) :
    KnowsHosts p n users hosts (h.push ev) := by
  obtain ⟨w₁, between, w₂, ⟨tx, rows, later, earlier, hread, htrace⟩, hrest⟩ := hA
  refine ⟨w₁, between, w₂, ⟨tx, rows, ev :: later, earlier, hread, ?_⟩, hrest⟩
  rw [Hist.push_trace, htrace, List.cons_append]

/-- The first reading. -/
theorem knowsAccounts_of_fetch {tx : RegistryTx} {order : List Nat} (hc : Clean p h.state)
    (hrun : Select.run order (h.state.db.view ⟨p, tx.no⟩) .getAllUsers = .ok users) :
    KnowsAccounts p n users
      (h.push (.did p n (.fetch tx .getAllUsers) (.ok users) h.state h.state)) := by
  refine ⟨hc, h.state, [], ⟨tx, users, h.trace, ?_⟩, fun u => ?_, .refl _⟩
  · rw [Hist.push_trace, List.nil_append]
  obtain rfl := Except.ok.inj hrun
  rw [List.mem_map]
  constructor
  · intro hu
    obtain ⟨user, huser, rfl⟩ := hu
    rw [← hc.view_user tx, mem_view_users.mp (mem_arrange.mp huser)]
    nofun
  · intro hu
    obtain ⟨row, hrow⟩ := Option.ne_none_iff_exists'.mp hu
    rw [← hc.view_user tx] at hrow
    exact ⟨{ row with id := u }, mem_arrange.mpr (mem_view_users.mpr hrow), rfl⟩

/-- The second reading. -/
theorem KnowsAccounts.knowsHosts {tx : RegistryTx} {order : List Nat}
    (hA : KnowsAccounts p n users h) (hk : HoldersKnownIn h)
    (hrun : Select.run order (h.state.db.view ⟨p, tx.no⟩) .getAllHosts = .ok hosts) :
    KnowsHosts p n users hosts
      (h.push (.did p n (.fetch tx .getAllHosts) (.ok hosts) h.state h.state)) := by
  obtain ⟨hc, w₁, since, hread, husers, hsince⟩ := hA
  refine ⟨w₁, since, h.state, ⟨tx, hosts, [], h.trace, hread, ?_⟩, ⟨husers, fun id row => ?_⟩,
    hsince, hk⟩
  · rw [Hist.push_trace, List.nil_append]
  obtain rfl := Except.ok.inj hrun
  constructor
  · intro hrow
    rw [← hc.view tx] at hrow
    exact ⟨{ row with id := id }, mem_orderBy.mpr (mem_view_hosts.mpr hrow), rfl, rfl⟩
  · intro hmem
    obtain ⟨x, hx, rfl, rfl⟩ := hmem
    rw [← hc.view tx]
    exact mem_view_hosts.mp (mem_orderBy.mp hx)

theorem sketch_unwrap {ε α : Type} {front : Front} {ofError : ε → ListingError} {x : Task ε α}
    {A : History → Prop} {Q : α → History → Prop}
    (hx : machine.Sketch Cond HoldersKnownIn p n (onOk Q) x A) :
    machine.Sketch Cond HoldersKnownIn p n (onOk Q) (front.unwrap ofError x) A := by
  refine Task.sketch_bind (Task.sketch_attempt hx) fun r => ?_
  cases r with
  | ok a => exact Task.sketch_pure fun _ _ h => h
  | error err =>
    cases front with
    | page => exact Task.sketch_panic fun _ _ _ => trivial
    | api => exact Task.sketch_throw fun _ _ _ => trivial
    | tool => exact Task.sketch_throw fun _ _ _ => trivial

theorem sketch_getAllUsers :
    machine.Sketch Cond HoldersKnownIn p n (onOk (KnowsAccounts p n)) UsersService.getAllUsers
      fun h => Clean p h.state := by
  refine Task.sketch_withTx (fun _ h => Clean p h.state) (fun _ => onOk (KnowsAccounts p n))
    (fun _ => stable_clean)
    (stable_exits (fun _ => KnowsAccounts.stable) .true .true) ?_ ?_ (fun tx => ?_) ?_
  · exact fun h tx w' hI hc hacts _ => ⟨hacts.holdersKnown hI, hacts.clean (by simp) hc⟩
  · exact fun h err w' hI _ hacts _ => ⟨hacts.holdersKnown hI, trivial⟩
  · refine Task.sketch_mapErr (Task.sketch_fetch (fun _ => KnowsAccounts.stable) .true ?_ ?_)
    · exact fun h order users hI hc hrun _ => ⟨hI, knowsAccounts_of_fetch hc hrun⟩
    · exact fun h err hI _ _ => ⟨hI, trivial⟩
  · intro tx r h w' hI hQ hacts _
    cases r with
    | ok users => exact hQ.own hI hacts (by simp)
    | err err => exact ⟨hacts.holdersKnown hI, trivial⟩
    | panic msg => exact ⟨hacts.holdersKnown hI, trivial⟩

theorem sketch_getAllHosts :
    machine.Sketch Cond HoldersKnownIn p n (onOk (KnowsHosts p n users)) HostsService.getAllHosts
      (KnowsAccounts p n users) := by
  have hstable : ∀ hosts, machine.Stable Cond HoldersKnownIn p (KnowsHosts p n users hosts) :=
    fun hosts => .of_mono KnowsHosts.push
  refine Task.sketch_withTx (fun _ => KnowsAccounts p n users)
    (fun _ => onOk (KnowsHosts p n users)) (fun _ => KnowsAccounts.stable)
    (stable_exits hstable .true .true) ?_ ?_ (fun tx => ?_) ?_
  · exact fun h tx w' hI hA hacts _ => hA.own hI hacts (by simp)
  · exact fun h err w' hI _ hacts _ => ⟨hacts.holdersKnown hI, trivial⟩
  · refine Task.sketch_bind (B := KnowsHosts p n users)
      (Task.sketch_mapErr (Task.sketch_fetch hstable .true ?_ ?_)) fun hosts => ?_
    · exact fun h order hosts hI hA hrun _ => ⟨hI, hA.knowsHosts hI hrun⟩
    · exact fun h err hI _ _ => ⟨hI, trivial⟩
    · refine Task.sketch_bind (B := fun _ => KnowsHosts p n users hosts)
        (Task.sketch_mapErr (Task.sketch_commit (fun _ => hstable hosts) .true ?_ ?_)) fun _ =>
          Task.sketch_pure fun _ _ h => h
      · exact fun h w' hI hA hacts _ => ⟨hacts.holdersKnown hI, hA.push _ _⟩
      · exact fun h err w' hI _ hacts _ => ⟨hacts.holdersKnown hI, trivial⟩
  · intro tx r h w' hI hQ hacts _
    cases r with
    | ok hosts => exact ⟨hacts.holdersKnown hI, hQ.push _ _⟩
    | err err => exact ⟨hacts.holdersKnown hI, trivial⟩
    | panic msg => exact ⟨hacts.holdersKnown hI, trivial⟩

/-- The entries are made of the pairs, whatever the clock says. -/
theorem sketch_readAll {ε : Type} {A : History → Prop} (hA : ∀ h ev, A h → A (h.push ev))
    (pairs : List (Host × Option User)) :
    machine.Sketch Cond HoldersKnownIn p n (onOk fun infos h => A h ∧ Shows pairs infos)
      (HostInfo.readAll pairs : Task ε (List HostInfo)) A := by
  induction pairs with
  | nil => exact Task.sketch_pure fun _ _ h => ⟨h, .nil⟩
  | cons x pairs ih =>
    obtain ⟨host, user⟩ := x
    refine Task.sketch_bind
      (B := fun info h => A h ∧ ∃ now, info = HostInfo.ofHost now host user) ?_ fun info => ?_
    · obtain ⟨⟨hostname, ipAddress, leasedUntil, userId, groupId⟩, id⟩ := host
      cases user with
      | none => exact Task.sketch_pure fun _ _ h => ⟨h, 0, rfl⟩
      | some user =>
        cases leasedUntil with
        | none => exact Task.sketch_pure fun _ _ h => ⟨h, 0, rfl⟩
        | some d =>
          refine Task.sketch_bind (B := fun _ => A) (Task.sketch_utcNow (fun _ => .of_mono hA) ?_)
            fun now => Task.sketch_pure fun _ _ h => ⟨h, now, rfl⟩
          exact fun h t hI hAh _ => ⟨hI, hA _ _ hAh⟩
    · refine Machine.Sketch.of_fact fun hinfo => ?_
      refine Task.sketch_bind ih fun infos => Task.sketch_pure fun _ _ h => ?_
      exact ⟨h.1, .cons hinfo h.2⟩

theorem sketch_listAllHosts (front : Front) :
    machine.Sketch Cond HoldersKnownIn p n
      (onOk fun infos h => ListsHosts p n infos h.trace) (listAllHosts front) fun h =>
        Clean p h.state := by
  refine Task.sketch_bind (sketch_unwrap sketch_getAllUsers) fun users => ?_
  refine Task.sketch_bind (sketch_unwrap sketch_getAllHosts) fun hosts => ?_
  refine (sketch_readAll KnowsHosts.push _).post fun r h _ hQ => ?_
  cases r with
  | ok infos =>
    obtain ⟨⟨w₁, between, w₂, hread, hanswered, hsince, hknown⟩, hshows⟩ := hQ
    exact ⟨w₁, between, w₂, hread, hanswered.shownFree_iff hknown hsince hshows⟩
  | err err => trivial
  | panic msg => trivial

end Sketch

/-! ## Runs -/

theorem emits_unwrap {Φ : Effect → Prop} {ε α : Type} {front : Front} {ofError : ε → ListingError}
    {x : Task ε α} (hx : Prog.Emits Φ x) : Prog.Emits Φ (front.unwrap ofError x) := by
  refine Task.emits_bind (Task.emits_attempt hx) fun r => ?_
  cases r with
  | ok a => exact Task.emits_pure _
  | error e => cases front <;> trivial

theorem emits_readAll {ε : Type} {Φ : Effect → Prop} (hnow : Φ .now)
    (pairs : List (Host × Option User)) :
    Prog.Emits Φ (HostInfo.readAll pairs : Task ε (List HostInfo)) := by
  induction pairs with
  | nil => exact Task.emits_pure _
  | cons x pairs ih =>
    refine Task.emits_bind ?_ fun info => Task.emits_bind ih fun _ => Task.emits_pure _
    unfold HostInfo.read
    split
    · exact Task.emits_bind (Task.emits_utcNow hnow) fun _ => Task.emits_pure _
    · exact Task.emits_pure _

/-- A listing writes nothing. -/
theorem emits_listAllHosts (front : Front) :
    Prog.Emits (Writes fun _ => False) (listAllHosts front) := by
  have husers : Transaction (fun _ => False) UsersService.getAllUsers :=
    ⟨_, _, rfl, fun _ => Task.emits_mapErr emits_fetch_in⟩
  have hhosts : Transaction (fun _ => False) HostsService.getAllHosts :=
    ⟨_, _, rfl, fun _ => Task.emits_bind (Task.emits_mapErr emits_fetch_in) fun _ =>
      Task.emits_bind (Task.emits_mapErr emits_commit_in) fun _ => Task.emits_pure _⟩
  refine Task.emits_bind (emits_unwrap husers.emits) fun users => ?_
  refine Task.emits_bind (emits_unwrap hhosts.emits) fun hosts => ?_
  exact emits_readAll (fun _ _ hx => by cases hx) _

/-- A call that stands in for a listing where there are none. -/
def ListingCall.stand : ListingCall → Call
  | .service κ => κ
  | .listAllHosts _ => .release

/-- What an idle task promises: nothing is pending, and its last listing is as it should be. -/
def ListingPromise (p : Pid) (n : Nat) (l : ListingLocal)
    (h : Hist Pid Effect Effect.Res World ListingCall) : Prop :=
  Clean p h.state ∧ ∀ infos, l = .listed (.ok infos) → ListsHosts p n infos h.trace

theorem listingMachine_act : listingMachine.act = machine.act := rfl

/-- What holds in the system without listings holds in the one with them. -/
theorem sketch_in_listings {α : Type} {x : Prog Effect Effect.Res α} {Q : α → History → Prop}
    {A : History → Prop} (hx : machine.Sketch (fun _ _ => True) HoldersKnownIn p n Q x A) :
    listingMachine.Sketch (fun _ _ => True) (fun h => HoldersKnown h.state) p n
      (fun a h => Q a (h.mapCall ListingCall.stand)) x fun h => A (h.mapCall ListingCall.stand) :=
  hx.mapCall listingMachine_act

theorem stable_clean_in_listings :
    listingMachine.Stable (fun _ _ => True) (fun h => HoldersKnown h.state) p
      fun h => Clean p h.state := by
  have hclean : machine.Stable (fun _ _ => True) HoldersKnownIn p fun h => Clean p h.state :=
    stable_clean
  exact hclean.mapCall (f := ListingCall.stand) listingMachine_act

theorem ListingCall.sketch (κ : ListingCall) (l : ListingLocal) :
    listingMachine.Sketch (fun _ _ => True) (fun h => HoldersKnown h.state) p n
      (ListingPromise p n) (κ.body l) fun h => Clean p h.state := by
  cases κ with
  | service κ =>
    have hkeep : machine.Sketch (fun _ _ => True) HoldersKnownIn p n (fun _ _ => True)
        (κ.body l.toLocal) fun _ => True :=
      Machine.Sketch.keep (κ.emits l.toLocal) .true fun _ _ _ _ _ _ hI _ ha _ =>
        ⟨(acts_of_act ha).holdersKnown hI, trivial⟩
    have hsketch := sketch_in_listings ((κ.sketch_clean l.toLocal).and hkeep)
    refine Machine.Sketch.bind (hsketch.pre fun _ _ h => ⟨h, trivial⟩) fun l' h _ hQ => ?_
    exact ⟨hQ.1, fun infos hinfos => by cases hinfos⟩
  | listAllHosts front =>
    have hclean : machine.Sketch (fun _ _ => True) (fun _ => True) p n (fun _ h => Clean p h.state)
        (Tachikoma.listAllHosts front) fun h => Clean p h.state :=
      sketch_clean_of_silent (emits_listAllHosts front)
    have hsketch := sketch_in_listings (hclean.and (sketch_listAllHosts front))
    refine Machine.Sketch.bind (hsketch.pre fun _ _ h => ⟨h, h⟩) fun r h _ hQ => ?_
    refine ⟨hQ.1, fun infos hinfos => ?_⟩
    cases hinfos
    exact hQ.2.of_mapCall

/-- **When the listing shows no leased host as free**, in every run: exactly if, when it reads the
    hosts, whoever holds one has a deadline, and an account that was there when it read the
    accounts. -/
theorem listsHosts_of_run (t : Tables) (timer : ReleaseTimer) (c : ListingSystem)
    (hrun : listingMachine.Run (Machine.Calling ListingCall.proper) (t.listingSystemWith timer) c)
    (p : Pid) (infos : List HostInfo) (hidle : (c.threads p).prog = .ret (.listed (.ok infos))) :
    ListsHosts p (c.threads p).calls infos c.hist.trace := by
  have hrun' : listingMachine.Run (fun _ _ => True) (t.listingSystemWith timer) c :=
    hrun.mono _ fun _ _ _ => trivial
  have hsound := Machine.Run.sound (fun h => HoldersKnown h.state) ListingPromise hrun'
    (fun _ hev => absurd hev List.not_mem_nil) t.world_holdersKnown ?_ ?_
  · exact (hsound.2.idle hsound.1 hidle).2 infos rfl
  · intro q
    refine ⟨fun h => Clean q h.state, stable_clean_in_listings, t.world_clean q, ?_⟩
    cases q with
    | timer => exact fun _ _ hc => ⟨hc, fun infos hinfos => by cases hinfos⟩
    | task i => exact fun _ _ hc => ⟨hc, fun infos hinfos => by cases hinfos⟩
  · intro q m κ l h _ hI hpromise _
    exact ⟨hI, fun h => Clean q h.state, stable_clean_in_listings, hpromise.1, κ.sketch l⟩

/-! ### Two runs -/

/-- `bob` has the first host. -/
def bobsHost : HostInfo :=
  ⟨⟨1⟩, "host1", "0.0.0.1", some ⟨5, "0 days, 0 hours, 0 minutes", "bob@example.org"⟩, none⟩

/-- `alice` has the second one, for an hour. -/
def alicesHost : HostInfo :=
  ⟨⟨2⟩, "host2", "0.0.0.2", some ⟨TimeDelta.hours 1, "0 days, 1 hours, 0 minutes",
    "alice@example.org"⟩, none⟩

/-- While the tool lists the hosts, `carol` logs in for the first time and `alice` takes a host.
    Nobody's host is shown as free. -/
theorem listsHosts_of_run_small : ∃ c, listingMachine.Run (Machine.Calling ListingCall.proper)
      ((small (some (false, 5))).listingSystemWith .new) c ∧
    (∃ u ∈ c.hist.state.db.committed.users, u.email = "carol@example.org") ∧
    ListsHosts (.task 0) (c.threads (.task 0)).calls [bobsHost, alicesHost] c.hist.trace := by
  let carol : AdUserInfo := ⟨"CN=carol", "carol@example.org", []⟩
  obtain ⟨c, hrun, htest⟩ := listingMachine.exists_run_of_exec (Machine.Calling ListingCall.proper)
    ((small (some (false, 5))).listingSystemWith .new)
    (List.flatten [
      -- The accounts are read.
      [.call (.task 0) (.listAllHosts .tool)], List.replicate 3 (.act (.task 0) {}),
      -- The first login, and the lease.
      [.call (.task 1) (.service (.authenticate "carol" "secret")),
        .act (.task 1) { userInfo := some carol }],
      List.replicate 9 (.act (.task 1) { uuid := "link-carol" }),
      [.call (.task 1) (.service (.lease ⟨3⟩ alice.id [] [⟨2⟩] (TimeDelta.hours 1)))],
      List.replicate 8 (.act (.task 1) {}),
      -- The hosts are read.
      List.replicate 6 (.act (.task 0) {})])
    (fun c => ((c.threads (.task 0)).prog.value?.bind ListingLocal.infos? ==
        some [bobsHost, alicesHost]) &&
      c.hist.state.db.committed.users.any fun u => u.email = "carol@example.org")
    (by decide +kernel)
  rw [Bool.and_eq_true] at htest
  obtain ⟨l, hl, hinfos⟩ := Option.bind_eq_some_iff.mp (eq_of_beq htest.1)
  rw [Prog.value?_eq_some, ListingLocal.infos?_eq_some.mp hinfos] at hl
  obtain ⟨u, hu, hmail⟩ := List.any_eq_true.mp htest.2
  exact ⟨c, hrun, ⟨u, hu, of_decide_eq_true hmail⟩, listsHosts_of_run _ .new c hrun (.task 0) _ hl⟩

/-- `carol` logs in for the first time and takes a host while the hosts are being listed. -/
theorem not_shownFree : ∃ c infos tx hosts w w',
    listingMachine.Run (Machine.Calling ListingCall.proper)
      ((small none).listingSystemWith .new) c ∧
    (c.threads (.task 0)).prog = .ret (.listed (.ok infos)) ∧
    .did (.task 0) 1 (.fetch tx .getAllHosts) (.ok hosts) w w' ∈ c.hist.trace ∧
    ¬ ShownFree infos w := by
  let carol : AdUserInfo := ⟨"CN=carol", "carol@example.org", []⟩
  obtain ⟨c, hrun, htest⟩ := listingMachine.exists_run_of_exec (Machine.Calling ListingCall.proper)
    ((small none).listingSystemWith .new)
    (List.flatten [
      -- The accounts are read.
      [.call (.task 0) (.listAllHosts .api)], List.replicate 3 (.act (.task 0) {}),
      -- The first login, and the lease.
      [.call (.task 1) (.service (.authenticate "carol" "secret")),
        .act (.task 1) { userInfo := some carol }],
      List.replicate 9 (.act (.task 1) { uuid := "link-carol" }),
      [.call (.task 1) (.service (.lease ⟨1⟩ ⟨3⟩ [] [⟨1⟩] 5))],
        List.replicate 8 (.act (.task 1) {}),
      -- The hosts are read.
      List.replicate 4 (.act (.task 0) {})])
    (fun c => ((c.threads (.task 0)).prog.value?.bind ListingLocal.infos? ==
        some [⟨⟨1⟩, "host1", "0.0.0.1", none, none⟩, ⟨⟨2⟩, "host2", "0.0.0.2", none, none⟩]) &&
      c.hist.trace.any fun ev => (readingOf (.task 0) 1 ⟨1⟩ ev).any fun row =>
        row.userId == some ⟨3⟩)
    (by decide +kernel)
  rw [Bool.and_eq_true] at htest
  obtain ⟨l, hl, hinfos⟩ := Option.bind_eq_some_iff.mp (eq_of_beq htest.1)
  rw [Prog.value?_eq_some, ListingLocal.infos?_eq_some.mp hinfos] at hl
  obtain ⟨ev, hev, hreading⟩ := List.any_eq_true.mp htest.2
  obtain ⟨row, hrow, hholder⟩ := (Option.any_eq_true _ _).mp hreading
  obtain ⟨tx, hosts, w, w', rfl, hhost⟩ := eq_did_of_readingOf hrow
  refine ⟨c, _, tx, hosts, w, w', hrun, hl, hev, fun hfree => ?_⟩
  have hnone := hfree _ List.mem_cons_self rfl row hhost
  rw [hnone] at hholder
  cases hholder

end Tachikoma
