import Tachikoma.Lib.Changes
import Tachikoma.Proof.Discipline

/-!
# What is committed

The discipline of the transactions, with its meaning. While an entry is *fresh* it has nothing
pending; after its statement, what it has pending are the rows that the statement hit, rewritten,
and these rows are locked (`Carried`); once it has *kept* its write it has committed it, once.

From this follows what the server does to the tables in any interleaving. `performed` reads off a
trace the writes that were committed, newest first, each with the world that its statement saw, and
`atomic_of_run` says that the committed rows are what these writes make of the first ones when they
are done one after the other, each in one moment.
-/

set_option autoImplicit false

namespace Tachikoma

open Interleaving Versioned

/-- The committed rows. -/
@[ext] structure Rows where
  host : HostId → Option HostRow
  user : UserId → Option UserRow

def World.rows (w : World) : Rows := ⟨w.host, w.user⟩

/-- What a write makes of the hosts that its statement sees. -/
def Write.hostChanges (x : Write) (w : World) : Changes HostId HostRow :=
  match x with
  | .hosts x => Changes.update w.host x.sel x.set
  | .setUserTgHandle _ _ => fun _ => none
  | .addUser _ _ _ => fun _ => none

/-- And of the users; a new one has an id that was free, and some link. -/
inductive Write.UserChanges (w : World) : Write → Changes UserId UserRow → Prop where
  | hosts (x : HostWrite) : UserChanges w (.hosts x) fun _ => none
  | setUserTgHandle (u : UserId) (tgHandle : String) :
      UserChanges w (.setUserTgHandle u tgHandle)
        (Changes.update w.user (fun id _ => decide (id = u))
          fun r => { r with tgHandle := some tgHandle })
  | addUser (dn : String) (tgHandle : Option String) (email link : String) (id : UserId)
      (hid : w.user id = none) :
      UserChanges w (.addUser dn tgHandle email) (Changes.single id ⟨dn, tgHandle, email, link⟩)

/-! ## Between a statement and its commit -/

/-- What `p` has pending is what the write `x`, run as `tx` in the world `w₀`, has made of its
    rows. -/
structure Carried (p : Pid) (tx : RegistryTx) (x : Write) (w₀ w : World) : Prop where
  within : Within p tx w
  hosts : w.db.hosts.Carries ⟨p, tx.no⟩ w₀.host (x.hostChanges w₀)
  users : ∃ δ, x.UserChanges w₀ δ ∧ w.db.users.Carries ⟨p, tx.no⟩ w₀.user δ

section Acts

variable {p q : Pid} {w w' : World} {e : Effect} {r : e.Res}

theorem Clean.hosts_nothing (hc : Clean p w) (tx : RegistryTx) (base : HostId → Option HostRow) :
    w.db.hosts.Carries ⟨p, tx.no⟩ base fun _ => none :=
  .nothing (hc.hosts.mono fun _ _ _ hne he => hne (by rw [he])) base

theorem Clean.users_nothing (hc : Clean p w) (tx : RegistryTx) (base : UserId → Option UserRow) :
    w.db.users.Carries ⟨p, tx.no⟩ base fun _ => none :=
  .nothing (hc.users.mono fun _ _ _ hne he => hne (by rw [he])) base

/-- After its statement a clean task carries what the statement says. -/
theorem Acts.carried_of_execute {tx : RegistryTx} {x : Write} {a : x.Res}
    (h : Acts p w (.execute tx x) (.ok a) w') (hc : Clean p w) : Carried p tx x w w' := by
  refine ⟨h.within (fun tx' x' he => by cases he; rfl) (hc.within tx), ?_, ?_⟩
  · cases h with
    | quiet _ _ _ _ hexecute => exact absurd rfl (hexecute tx x)
    | updateHosts _ x t hupdate =>
      exact .of_update (hc.hosts.mono fun _ _ _ hne he => hne (by rw [he])) hupdate
    | setUserTgHandle => exact hc.hosts_nothing tx _
    | addUser => exact hc.hosts_nothing tx _
  · cases h with
    | quiet _ _ _ _ hexecute => exact absurd rfl (hexecute tx x)
    | updateHosts _ x t hupdate => exact ⟨_, .hosts x, hc.users_nothing tx _⟩
    | setUserTgHandle _ u tgHandle t hupdate =>
      exact ⟨_, .setUserTgHandle u tgHandle,
        .of_update (hc.users.mono fun _ _ _ hne he => hne (by rw [he])) hupdate⟩
    | addUser _ dn tgHandle email link id t n hinsert =>
      refine ⟨_, .addUser dn tgHandle email link id ?_,
        .of_insert (hc.users.mono fun _ _ _ hne he => hne (by rw [he])) hinsert⟩
      rw [World.user, Table.cell_of_insert hinsert]
      rfl

/-- No effect of another task takes it away. -/
theorem Acts.carried_of_ne {tx : RegistryTx} {x : Write} {w₀ : World} (h : Acts q w e r w')
    (hq : q ≠ p) (hc : Carried p tx x w₀ w) : Carried p tx x w₀ w' := by
  have hne : ∀ no, (⟨p, tx.no⟩ : TxId) ≠ ⟨q, no⟩ := fun no he => hq (congrArg TxId.pid he).symm
  obtain ⟨hwithin, hhosts, δ, hδ, husers⟩ := hc
  refine ⟨h.within_of_ne hq hwithin, ?_, δ, hδ, ?_⟩
  · cases h with
    | quiet _ _ _ _ _ _ heq => rw [heq]; exact hhosts
    | updateHosts tx' y t hupdate => exact hhosts.update_other (hne _) hupdate
    | commit => exact hhosts.commit_other (hne _)
    | commitFails => exact hhosts.rollback_other (hne _)
    | drop => exact hhosts.rollback_other (hne _)
    | _ => exact hhosts
  · cases h with
    | quiet _ _ _ _ _ _ _ heq => rw [heq]; exact husers
    | setUserTgHandle tx' u tgHandle t hupdate => exact husers.update_other (hne _) hupdate
    | addUser tx' dn tgHandle email link id t n hinsert => exact husers.insert_other (hne _) hinsert
    | commit => exact husers.commit_other (hne _)
    | commitFails => exact husers.rollback_other (hne _)
    | drop => exact husers.rollback_other (hne _)
    | _ => exact husers

/-- Neither does an effect of the task itself that is no statement and does not end a
    transaction. -/
theorem Acts.carried {tx : RegistryTx} {x : Write} {w₀ : World} (h : Acts p w e r w')
    (hexecute : ∀ tx x, e ≠ .execute tx x) (hcommit : ∀ tx, e ≠ .commit tx)
    (hdrop : ∀ tx, e ≠ .drop tx) (hc : Carried p tx x w₀ w) : Carried p tx x w₀ w' := by
  refine ⟨h.within (fun _ _ he => absurd he (hexecute _ _)) hc.within, ?_, ?_⟩
  · cases h with
    | quiet _ _ _ _ _ _ heq => rw [heq]; exact hc.hosts
    | commit => exact absurd rfl (hcommit _)
    | commitFails => exact absurd rfl (hcommit _)
    | drop => exact absurd rfl (hdrop _)
    | _ => exact absurd rfl (hexecute _ _)
  · cases h with
    | quiet _ _ _ _ _ _ _ heq => rw [heq]; exact hc.users
    | commit => exact absurd rfl (hcommit _)
    | commitFails => exact absurd rfl (hcommit _)
    | drop => exact absurd rfl (hdrop _)
    | _ => exact absurd rfl (hexecute _ _)

theorem Acts.user_of_ne_commit (h : Acts p w e r w') (he : ∀ tx, e ≠ .commit tx) (id : UserId) :
    w'.user id = w.user id := by
  cases h with
  | quiet _ _ _ _ _ _ _ husers => rw [World.user, World.user, husers]
  | executeFails => rfl
  | updateHosts => rfl
  | setUserTgHandle tx u tgHandle t hupdate =>
    simp only [World.user, Table.cell_update hupdate, Cell.write_committed]
  | addUser tx dn tgHandle email link id' t n hinsert =>
    simp only [World.user, Table.cell_insert hinsert]
    split
    · rename_i hid
      subst hid
      rw [Table.cell_of_insert hinsert]
      rfl
    · rfl
  | commit tx => exact absurd rfl (he tx)
  | commitFails tx => exact absurd rfl (he tx)
  | drop tx => simp [World.user, Db.rollback]

/-- Only a commit changes the committed rows. -/
theorem Acts.rows_of_ne_commit (h : Acts p w e r w') (he : ∀ tx, e ≠ .commit tx) :
    w'.rows = w.rows :=
  Rows.ext (funext (h.host_of_ne_commit he)) (funext (h.user_of_ne_commit he))

theorem Acts.rows_of_commit_error {tx : RegistryTx} {err : SqlxError}
    (h : Acts p w (.commit tx) (.error err) w') : w'.rows = w.rows := by
  cases h with
  | quiet _ _ _ hcommit => exact absurd rfl (hcommit tx)
  | commitFails =>
    refine Rows.ext (funext fun id => ?_) (funext fun id => ?_)
    · show World.host _ id = w.host id
      simp [World.host, Db.rollback]
    · show World.user _ id = w.user id
      simp [World.user, Db.rollback]

end Acts

/-! ## The writes of a trace -/

/-- A write that a call has committed, with the world that its statement saw. -/
structure Performed where
  pid : Pid
  calls : Nat
  write : Write
  seen : World

/-- The statement that an event is, if it is one of the `n`-th call of `p` and went well. -/
def statement (p : Pid) (n : Nat) : ServerEvent → Option (Write × World)
  | .did q m (.execute _ x) (.ok _) w _ => if q = p ∧ m = n then some (x, w) else none
  | _ => none

/-- The writes that are committed, newest first: at every commit the last statement of its call. -/
def performed : ServerTrace → List Performed
  | [] => []
  | .did p n (.commit _) (.ok ()) _ _ :: tr =>
    match tr.findSome? (statement p n) with
    | some s => ⟨p, n, s.1, s.2⟩ :: performed tr
    | none => performed tr
  | _ :: tr => performed tr

/-- `older` is what had happened when the statement ran that the write is; its call has committed it
    since. -/
def Performed.RanAfter (x : Performed) (older tr : ServerTrace) : Prop :=
  ∃ newer tx w w' between tx', ∃ a : x.write.Res, ∃ w₁,
    tr = newer ++ Event.did x.pid x.calls (.commit tx) (.ok ()) w w' ::
      (between ++ Event.did x.pid x.calls (.execute tx' x.write) (.ok a) x.seen w₁ :: older)

/-- Those of one call. -/
def performedBy (p : Pid) (n : Nat) (tr : ServerTrace) : List Performed :=
  (performed tr).filter fun x => x.pid = p ∧ x.calls = n

section Traces

variable {p q : Pid} {n m : Nat} {tr : ServerTrace} {e : Effect} {r : e.Res} {w w' : World}

@[simp] theorem performed_called {κ : Entry} : performed (.called p n κ :: tr) = performed tr := rfl

theorem performed_of_ne_commit (he : ∀ tx, e ≠ .commit tx) :
    performed (.did p n e r w w' :: tr) = performed tr := by
  cases e with
  | commit tx => exact absurd rfl (he tx)
  | _ => rfl

@[simp] theorem performed_commit_error {tx : RegistryTx} {err : SqlxError} :
    performed (.did p n (.commit tx) (.error err) w w' :: tr) = performed tr := rfl

theorem performed_commit {tx : RegistryTx} {x : Write} {w₀ : World}
    (h : tr.findSome? (statement p n) = some (x, w₀)) :
    performed (.did p n (.commit tx) (.ok ()) w w' :: tr) = ⟨p, n, x, w₀⟩ :: performed tr := by
  simp only [performed, h]

theorem statement_of_pid_ne {ev : ServerEvent} (h : ev.pid ≠ p) : statement p n ev = none := by
  cases ev with
  | called => rfl
  | did q m e r w w' =>
    cases e with
    | execute tx x =>
      cases r with
      | ok a => exact if_neg fun hq => h hq.1
      | error err => rfl
    | _ => rfl

theorem statement_of_ne_execute (he : ∀ tx x, e ≠ .execute tx x) :
    statement p n (.did q m e r w w') = none := by
  cases e with
  | execute tx x => exact absurd rfl (he tx x)
  | _ => rfl

theorem mem_of_statement {x : Write} {w₀ : World}
    (h : tr.findSome? (statement p n) = some (x, w₀)) :
    ∃ tx, ∃ a : x.Res, ∃ w', Event.did p n (.execute tx x) (.ok a) w₀ w' ∈ tr := by
  obtain ⟨ev, hev, hs⟩ := List.exists_of_findSome?_eq_some h
  cases ev with
  | called => cases hs
  | did q m e r w w' =>
    cases e with
    | execute tx y =>
      cases r with
      | ok a =>
        simp only [statement] at hs
        split at hs
        · rename_i hqm
          obtain ⟨rfl, rfl⟩ := hqm
          cases Option.some.inj hs
          exact ⟨tx, a, w', hev⟩
        · cases hs
      | error err => cases hs
    | _ => cases hs

/-- The statement of a write that was performed has been committed by its call. -/
theorem exists_of_performed {x : Performed} (hx : x ∈ performed tr) :
    ∃ older, x.RanAfter older tr := by
  have htail : ∀ (ev : ServerEvent) (tr : ServerTrace), (∃ older, x.RanAfter older tr) →
      ∃ older, x.RanAfter older (ev :: tr) := by
    intro ev tr h
    obtain ⟨older, newer, tx, w, w', between, tx', a, w₁, rfl⟩ := h
    exact ⟨older, ev :: newer, tx, w, w', between, tx', a, w₁, rfl⟩
  -- On the trace, newest event first: the write is committed by this event or by an older one.
  induction tr with
  | nil => cases hx
  | cons ev tr ih =>
    cases ev with
    | called => exact htail _ tr (ih hx)
    | did p n e r w w' =>
      by_cases he : ∃ tx, e = .commit tx
      · obtain ⟨tx, rfl⟩ := he
        cases r with
        | error err => exact htail _ tr (ih hx)
        | ok a =>
          cases hs : tr.findSome? (statement p n) with
          | none =>
            simp only [performed, hs] at hx
            exact htail _ tr (ih hx)
          | some s =>
            obtain ⟨y, w₀⟩ := s
            rw [performed_commit hs] at hx
            rcases List.mem_cons.mp hx with rfl | hx
            · obtain ⟨tx', a', w₁, hev⟩ := mem_of_statement hs
              obtain ⟨between, older, rfl⟩ := List.append_of_mem hev
              exact ⟨older, [], tx, w, w', between, tx', a', w₁, rfl⟩
            · exact htail _ tr (ih hx)
      · rw [performed_of_ne_commit (not_exists.mp he)] at hx
        exact htail _ tr (ih hx)

/-- A write that was performed was committed by its call. -/
theorem mem_of_performed {x : Performed} (hx : x ∈ performed tr) :
    ∃ tx w w', Event.did x.pid x.calls (.commit tx) (.ok ()) w w' ∈ tr := by
  obtain ⟨older, newer, tx, w, w', between, tx', a, w₁, rfl⟩ := exists_of_performed hx
  exact ⟨tx, w, w', List.mem_append_right _ List.mem_cons_self⟩

theorem performedBy_eq_nil (hpast : ∀ ev ∈ tr, ev.pid = p → ev.calls ≤ n) :
    performedBy p (n + 1) tr = [] := by
  rw [performedBy, List.filter_eq_nil_iff]
  intro x hx hp
  obtain ⟨rfl, hcalls⟩ := of_decide_eq_true hp
  obtain ⟨tx, w, w', hmem⟩ := mem_of_performed hx
  have hle := hpast _ hmem rfl
  simp only [Event.calls] at hle
  omega

end Traces

/-! ## One after the other -/

/-- The write, done in one moment: the rows that it changes are those that its statement saw. -/
structure Performed.Applies (x : Performed) (m m' : Rows) : Prop where
  seen : ∀ id r, x.write.hostChanges x.seen id = some r → m.host id = x.seen.host id
  host : m'.host = (x.write.hostChanges x.seen).onto m.host
  user : ∃ δ, x.write.UserChanges x.seen δ ∧
    (∀ id r, δ id = some r → m.user id = x.seen.user id) ∧ m'.user = δ.onto m.user

/-- The rows after the writes, newest first. -/
inductive Replays (m₀ : Rows) : List Performed → Rows → Prop where
  | nil : Replays m₀ [] m₀
  | cons {xs : List Performed} {m m' : Rows} {x : Performed} :
      Replays m₀ xs m → x.Applies m m' → Replays m₀ (x :: xs) m'

/-- At its commit a task does what it carries. -/
theorem Carried.applies {p : Pid} {n : Nat} {tx : RegistryTx} {x : Write} {w₀ w w' : World}
    (hc : Carried p tx x w₀ w) (h : Acts p w (.commit tx) (.ok ()) w') :
    Performed.Applies ⟨p, n, x, w₀⟩ w.rows w'.rows := by
  obtain ⟨-, hhosts, δ, hδ, husers⟩ := hc
  cases h with
  | quiet _ _ _ hcommit => exact absurd rfl (hcommit tx)
  | commit =>
    refine ⟨fun id r hr => hhosts.base id r hr, ?_, δ, hδ, fun id r hr => husers.base id r hr, ?_⟩
    · exact hhosts.commit
    · exact husers.commit

/-- The write is one that its call may do, and its statement ran in the world that is noted. -/
def Performed.Permitted (cfg : ServerConfig) (x : Performed) (tr : ServerTrace) : Prop :=
  (∃ κ, Event.called x.pid x.calls κ ∈ tr ∧ κ.Writes cfg x.write) ∧
    ∃ tx, ∃ a : x.write.Res, ∃ w',
      Event.did x.pid x.calls (.execute tx x.write) (.ok a) x.seen w' ∈ tr

theorem Performed.Permitted.cons {cfg : ServerConfig} {x : Performed} {tr : ServerTrace}
    (h : x.Permitted cfg tr) (ev : ServerEvent) : x.Permitted cfg (ev :: tr) := by
  obtain ⟨⟨κ, hκ, hw⟩, tx, a, w', hev⟩ := h
  exact ⟨⟨κ, List.mem_cons_of_mem _ hκ, hw⟩, tx, a, w', List.mem_cons_of_mem _ hev⟩

/-- What the server has done to the tables since the history `h₀`. -/
structure Committed (cfg : ServerConfig) (h₀ h : ServerHistory) : Prop where
  replays : ∃ newer, performed h.trace = newer ++ performed h₀.trace ∧
    Replays h₀.state.rows newer h.state.rows
  permitted : ∀ x ∈ performed h.trace, x.Permitted cfg h.trace
  /-- No call commits twice. -/
  once : ((performed h.trace).map fun x => (x.pid, x.calls)).Nodup

/-! ## What the stages mean -/

/-- The `n`-th call of `p` is `κ`, and no other. -/
structure EntryIs (p : Pid) (n : Nat) (κ : Entry) (h : ServerHistory) : Prop where
  called : Event.called p n κ ∈ h.trace
  only : ∀ κ', Event.called p n κ' ∈ h.trace → κ' = κ

/-- This is how far the `n`-th call of `p` has come. -/
def Stage.Means (cfg : ServerConfig) (p : Pid) (n : Nat) (κ : Entry) (s : Stage)
    (h : ServerHistory) : Prop :=
  EntryIs p n κ h ∧
    match s with
    | .fresh => Clean p h.state ∧ performedBy p n h.trace = []
    | .wrote tx x => performedBy p n h.trace = [] ∧ ∃ w₀,
        h.trace.findSome? (statement p n) = some (x, w₀) ∧ Carried p tx x w₀ h.state
    | .kept x => Clean p h.state ∧ κ.Writes cfg x ∧ ∃ w₀, performedBy p n h.trace = [⟨p, n, x, w₀⟩]

section Soundness

variable {cfg : ServerConfig} {Cond : ServerHistory → ServerEvent → Prop}
  {Inv : ServerHistory → Prop} {p : Pid} {n : Nat} {κ : Entry}

/-- An effect that happened is one that `Acts` allows. -/
theorem acts_of_server {h : ServerHistory} {e : Effect} {r : e.Res} {w w' : World}
    (hl : (server cfg).Legal h (.did p n e r w w')) : w = h.state ∧ Acts p h.state e r w' := by
  obtain ⟨rfl, env, ha⟩ := hl
  exact ⟨rfl, acts_of_act ha⟩

theorem server_stable_of_acts {A : World → Prop}
    (hA : ∀ q w e r w', q ≠ p → Acts q w e r w' → A w → A w') :
    (server cfg).Stable Cond Inv p fun h => A h.state := by
  intro h ev _ hAh hne hl _
  cases ev with
  | called q n κ => exact hAh
  | did q n e r w w' =>
    obtain ⟨rfl, hacts⟩ := acts_of_server hl
    exact hA q _ e r w' hne hacts hAh

theorem server_stable_clean : (server cfg).Stable Cond Inv p fun h => Clean p h.state :=
  server_stable_of_acts fun _ _ _ _ _ hq hacts hc => hacts.clean_of_ne hq hc

theorem EntryIs.push {h : ServerHistory} (hκ : EntryIs p n κ h) {ev : ServerEvent}
    (hev : ∀ κ', ev ≠ .called p n κ') : EntryIs p n κ (h.push ev) := by
  refine ⟨by rw [Hist.push_trace]; exact List.mem_cons_of_mem _ hκ.called, fun κ' hκ' => ?_⟩
  rw [Hist.push_trace] at hκ'
  rcases List.mem_cons.mp hκ' with heq | hκ'
  · exact absurd heq.symm (hev κ')
  · exact hκ.only κ' hκ'

/-- A task numbers its calls. -/
theorem entryIs_of_called {h : ServerHistory} (hpast : ∀ ev ∈ h.trace, ev.pid = p → ev.calls ≤ n)
    (κ : Entry) : EntryIs p (n + 1) κ (h.push (.called p (n + 1) κ)) := by
  refine ⟨by rw [Hist.push_trace]; exact List.mem_cons_self, fun κ' hκ' => ?_⟩
  rw [Hist.push_trace] at hκ'
  rcases List.mem_cons.mp hκ' with heq | hκ'
  · cases heq
    rfl
  · have hle := hpast _ hκ' rfl
    simp only [Event.calls] at hle
    omega

/-- The task has made no call. -/
def Uncalled (p : Pid) (h : ServerHistory) : Prop := ∀ n κ, Event.called p n κ ∉ h.trace

theorem stable_uncalled : (server cfg).Stable Cond Inv p (Uncalled p) := by
  intro h ev _ hA hne _ _ n κ hmem
  rw [Hist.push_trace] at hmem
  rcases List.mem_cons.mp hmem with heq | hmem
  · rw [← heq] at hne
    exact hne rfl
  · exact hA n κ hmem

/-- What a call has performed is no matter of the others. -/
theorem performedBy_push_of_ne {h : ServerHistory} {ev : ServerEvent} (hne : ev.pid ≠ p) :
    performedBy p n (h.push ev).trace = performedBy p n h.trace := by
  rw [Hist.push_trace]
  cases ev with
  | called => rfl
  | did q m e r w w' =>
    by_cases he : ∃ tx, e = .commit tx
    · obtain ⟨tx, rfl⟩ := he
      cases r with
      | error err => rfl
      | ok a =>
        cases hs : h.trace.findSome? (statement q m) with
        | none => simp only [performedBy, performed, hs]
        | some s =>
          obtain ⟨y, w₀⟩ := s
          rw [performedBy, performed_commit hs, List.filter_cons_of_neg]
          · rfl
          · exact fun hp => hne (of_decide_eq_true hp).1
    · rw [performedBy, performed_of_ne_commit (not_exists.mp he)]
      rfl

theorem statement_push_of_ne {h : ServerHistory} {ev : ServerEvent} (hne : ev.pid ≠ p) :
    (h.push ev).trace.findSome? (statement p n) = h.trace.findSome? (statement p n) := by
  rw [Hist.push_trace, List.findSome?_cons, statement_of_pid_ne hne]

/-- Other tasks do not change how far a call has come. -/
theorem Stage.stable_means (s : Stage) : (server cfg).Stable Cond Inv p (s.Means cfg p n κ) := by
  intro h ev hI hA hne hl hc
  obtain ⟨hcalled, hA⟩ := hA
  refine ⟨hcalled.push fun κ' he => hne (by rw [he]; rfl), ?_⟩
  cases s with
  | fresh =>
    exact ⟨server_stable_clean h ev hI hA.1 hne hl hc, by rw [performedBy_push_of_ne hne, hA.2]⟩
  | wrote tx x =>
    obtain ⟨hnone, w₀, hs, hcarried⟩ := hA
    refine ⟨by rw [performedBy_push_of_ne hne, hnone], w₀, by rw [statement_push_of_ne hne, hs], ?_⟩
    exact server_stable_of_acts (A := Carried p tx x w₀)
      (fun q w e r w' hq hacts hA => hacts.carried_of_ne hq hA) h ev hI hcarried hne hl hc
  | kept x =>
    obtain ⟨hclean, hwrites, w₀, hby⟩ := hA
    exact ⟨server_stable_clean h ev hI hclean hne hl hc, hwrites, w₀,
      by rw [performedBy_push_of_ne hne, hby]⟩

/-! ## Soundness -/

theorem Effect.nonempty_res (e : Effect) : Nonempty e.Res := by
  cases e with
  | begin => exact ⟨.error .io⟩
  | fetch => exact ⟨.error .io⟩
  | execute => exact ⟨.error .io⟩
  | commit => exact ⟨.error .io⟩
  | drop => exact ⟨()⟩
  | now => exact ⟨(0 : Time)⟩
  | hashOrder => exact ⟨([] : List Nat)⟩
  | send => exact ⟨.error ()⟩
  | notify => exact ⟨()⟩
  | findUserInfo => exact ⟨.error ()⟩
  | simpleBind => exact ⟨.error ()⟩

theorem Stage.Reports.settled {W : Write → Prop} {s : Stage} {done : Bool} (h : s.Reports W done) :
    s.Settled W := by
  cases done with
  | true => exact .inr h
  | false => exact .inl h

theorem Stage.Settled.writes {W : Write → Prop} {x : Write} (h : (Stage.kept x).Settled W) :
    W x := by
  rcases h with h | ⟨y, hy, h⟩
  · cases h
  · cases h
    exact hy

/-- An entry ends with nothing pending, and what it has kept is a write of its own. -/
theorem Entry.settled_of_ends {s : Stage} {l : ServerLocal} (h : κ.Ends cfg s l) :
    s.Settled (κ.Writes cfg) := by
  -- By the answer: one that says more than that is weakened to it.
  cases l with
  | idle => exact h.elim
  | answered r =>
    obtain ⟨user, req, rfl, h⟩ := h
    exact h.settled
  | loggedIn r =>
    obtain ⟨⟨username, password, rfl⟩, h⟩ := h
    cases r with
    | ok a =>
      cases a with
      | session user => exact h
      | redirect => exact .inl h
    | err e => cases e
    | panic msg => exact h
  | replied r =>
    obtain ⟨sender, text, rfl, h⟩ := h
    cases r with
    | ok a =>
      cases a with
      | linked email =>
        obtain ⟨account, u, hsender, hs⟩ := h
        exact .inr ⟨_, ⟨account, u, hsender, rfl⟩, hs⟩
      | notFound => exact .inl h
    | err e => exact .inl h
    | panic msg => exact .inl h
  | timer self =>
    obtain ⟨rfl, h⟩ := h
    exact h
  | crashed =>
    rcases h with h | ⟨rfl, h⟩
    · exact .inl h
    · exact h

/-- A task that has something pending has written, and will not write again. -/
theorem Stage.Means.clean_or_wrote {s : Stage} {h : ServerHistory} (hs : s.Means cfg p n κ h) :
    Clean p h.state ∨ ∃ tx x, s = .wrote tx x := by
  cases s with
  | fresh => exact .inl hs.2.1
  | wrote tx x => exact .inr ⟨tx, x, rfl⟩
  | kept x => exact .inl hs.2.1

/-- And it has nothing pending when its entry has ended. -/
theorem Stage.Means.clean_of_ends {s : Stage} {h : ServerHistory} {l : ServerLocal}
    (hs : s.Means cfg p n κ h) (hends : κ.Ends cfg s l) : Clean p h.state := by
  rcases hs.clean_or_wrote with hclean | ⟨tx, x, rfl⟩
  · exact hclean
  · rcases Entry.settled_of_ends hends with hfresh | ⟨y, -, hkept⟩
    · cases hfresh
    · cases hkept

/-- A call starts fresh. -/
theorem Stage.means_called {h : ServerHistory} (hpast : ∀ ev ∈ h.trace, ev.pid = p → ev.calls ≤ n)
    (hclean : Clean p h.state) (κ : Entry) :
    Stage.fresh.Means cfg p (n + 1) κ (h.push (.called p (n + 1) κ)) := by
  refine ⟨entryIs_of_called hpast κ, hclean, ?_⟩
  show performedBy p (n + 1) h.trace = []
  exact performedBy_eq_nil hpast

/-- What may be kept is a write of the entry. -/
theorem Entry.writes_of_obeys {x : Write}
    (h : ∃ y : Prog Effect Effect.Res ServerLocal, y.Obeys transactions (κ.Ends cfg) (.kept x)) :
    κ.Writes cfg x := by
  obtain ⟨y, hy⟩ := h
  obtain ⟨l, hl⟩ := hy.exists_end Effect.nonempty_res fun e he r => by
    cases e with
    | execute => exact he.elim
    | commit => exact he.elim
    | _ => rfl
  exact (Entry.settled_of_ends hl).writes

theorem Acts.clean_of_execute_error {p : Pid} {w w' : World} {tx : RegistryTx} {x : Write}
    {err : SqlxError} (h : Acts p w (.execute tx x) (.error err) w') (hc : Clean p w) :
    Clean p w' := by
  cases h with
  | quiet _ _ _ _ hexecute => exact absurd rfl (hexecute tx x)
  | executeFails => exact ⟨hc.hosts, hc.users⟩

section Step

variable {h₀ h : ServerHistory} {e : Effect} {r : e.Res} {w' : World}

theorem Committed.called (hI : Committed cfg h₀ h) (p : Pid) (n : Nat) (κ : Entry) :
    Committed cfg h₀ (h.push (.called p n κ)) :=
  ⟨hI.replays, fun x hx => (hI.permitted x hx).cons _, hI.once⟩

/-- An event that performs nothing and leaves the rows alone. -/
theorem Committed.quiet (hI : Committed cfg h₀ h)
    (hperformed : performed (h.push (.did p n e r h.state w')).trace = performed h.trace)
    (hrows : w'.rows = h.state.rows) : Committed cfg h₀ (h.push (.did p n e r h.state w')) := by
  refine ⟨?_, ?_, ?_⟩
  · rw [hperformed, Hist.push_did_state, hrows]
    exact hI.replays
  · rw [hperformed, Hist.push_trace]
    exact fun x hx => (hI.permitted x hx).cons _
  · rw [hperformed]
    exact hI.once

/-- An effect of the call that neither writes nor commits. -/
theorem Stage.means_quiet {s : Stage} (hA : s.Means cfg p n κ h) (hacts : Acts p h.state e r w')
    (hexecute : ∀ tx x, e ≠ .execute tx x) (hcommit : ∀ tx, e ≠ .commit tx)
    (hdrop : ∀ tx, e ≠ .drop tx) : s.Means cfg p n κ (h.push (.did p n e r h.state w')) := by
  obtain ⟨hcalled, hA⟩ := hA
  have hperformed : performedBy p n (h.push (.did p n e r h.state w')).trace =
      performedBy p n h.trace := by
    rw [performedBy, Hist.push_trace, performed_of_ne_commit hcommit]
    rfl
  refine ⟨hcalled.push (fun _ he => by cases he), ?_⟩
  cases s with
  | fresh => exact ⟨hacts.clean hexecute hA.1, hperformed.trans hA.2⟩
  | wrote tx x =>
    obtain ⟨hnone, w₀, hs, hcarried⟩ := hA
    refine ⟨hperformed.trans hnone, w₀, ?_, hacts.carried hexecute hcommit hdrop hcarried⟩
    rw [Hist.push_trace, List.findSome?_cons, statement_of_ne_execute hexecute]
    exact hs
  | kept x => exact ⟨hacts.clean hexecute hA.1, hA.2.1, hA.2.2.imp fun _ => hperformed.trans⟩

/-- The statement of a fresh call: afterwards the call carries what the statement hit, or the
    statement has failed and the call is still fresh. -/
theorem Stage.means_execute {tx : RegistryTx} {x : Write} {r : (Effect.execute tx x).Res}
    (hA : Stage.fresh.Means cfg p n κ h) (hacts : Acts p h.state (.execute tx x) r w') :
    (transactions.next .fresh (.execute tx x) r).Means cfg p n κ
      (h.push (.did p n (.execute tx x) r h.state w')) := by
  obtain ⟨hcalled, hclean, hnone⟩ := hA
  refine ⟨hcalled.push (fun _ he => by cases he), ?_⟩
  have hnone' : performedBy p n (h.push (.did p n (.execute tx x) r h.state w')).trace = [] := by
    rw [performedBy, Hist.push_trace, performed_of_ne_commit fun _ => Effect.noConfusion]
    exact hnone
  cases r with
  | error err => exact ⟨hacts.clean_of_execute_error hclean, hnone'⟩
  | ok a =>
    refine ⟨hnone', h.state, ?_, hacts.carried_of_execute hclean⟩
    rw [Hist.push_trace, List.findSome?_cons]
    simp only [statement, and_self, if_true]

section Commit

variable {tx : RegistryTx} {x : Write} {w₀ : World}

/-- The one commit of a call. The write that it performs is the statement it carried, done to the
    rows as they are now, and no earlier write is of the same call. -/
theorem Committed.commit (hI : Committed cfg h₀ h) (hcalled : EntryIs p n κ h)
    (hwrites : κ.Writes cfg x) (hnone : performedBy p n h.trace = [])
    (hs : h.trace.findSome? (statement p n) = some (x, w₀)) (hcarried : Carried p tx x w₀ h.state)
    (hacts : Acts p h.state (.commit tx) (.ok ()) w') :
    Committed cfg h₀ (h.push (.did p n (.commit tx) (.ok ()) h.state w')) := by
  have hperformed : performed (.did p n (.commit tx) (.ok ()) h.state w' :: h.trace) =
      ⟨p, n, x, w₀⟩ :: performed h.trace := performed_commit hs
  refine ⟨?_, ?_, ?_⟩
  · obtain ⟨newer, hnewer, hreplays⟩ := hI.replays
    refine ⟨⟨p, n, x, w₀⟩ :: newer, ?_, hreplays.cons (hcarried.applies hacts)⟩
    rw [Hist.push_trace, hperformed, hnewer]
    rfl
  · rw [Hist.push_trace, hperformed]
    intro y hy
    rcases List.mem_cons.mp hy with rfl | hy
    · obtain ⟨tx', a', w₁, hev⟩ := mem_of_statement hs
      exact ⟨⟨κ, List.mem_cons_of_mem _ hcalled.called, hwrites⟩, tx', a', w₁,
        List.mem_cons_of_mem _ hev⟩
    · exact (hI.permitted y hy).cons _
  · rw [Hist.push_trace, hperformed, List.map_cons, List.nodup_cons]
    refine ⟨fun hmem => ?_, hI.once⟩
    obtain ⟨y, hy, heq⟩ := List.mem_map.mp hmem
    -- A second write of this call would be among what the call has performed so far.
    have hmem : y ∈ performedBy p n h.trace :=
      List.mem_filter.mpr ⟨hy, decide_eq_true (Prod.mk.inj heq)⟩
    rw [hnone] at hmem
    cases hmem

theorem performedBy_commit (hs : h.trace.findSome? (statement p n) = some (x, w₀)) :
    performedBy p n (h.push (.did p n (.commit tx) (.ok ()) h.state w')).trace =
      ⟨p, n, x, w₀⟩ :: performedBy p n h.trace := by
  rw [performedBy, Hist.push_trace, performed_commit hs, List.filter_cons_of_pos (by simp)]
  rfl

/-- The commit of a call that has written: it keeps its write, or the commit has failed, the rows
    are as they were and the call is fresh. -/
theorem Stage.step_commit {r : (Effect.commit tx).Res} (hI : Committed cfg h₀ h)
    (hA : (Stage.wrote tx x).Means cfg p n κ h)
    (hobeys : ∃ y : Prog Effect Effect.Res ServerLocal,
      y.Obeys transactions (κ.Ends cfg) (transactions.next (.wrote tx x) (.commit tx) r))
    (hacts : Acts p h.state (.commit tx) r w') :
    Committed cfg h₀ (h.push (.did p n (.commit tx) r h.state w')) ∧
      (transactions.next (.wrote tx x) (.commit tx) r).Means cfg p n κ
        (h.push (.did p n (.commit tx) r h.state w')) := by
  obtain ⟨hcalled, hnone, w₀, hs, hcarried⟩ := hA
  have hpushed : EntryIs p n κ (h.push (.did p n (.commit tx) r h.state w')) :=
    hcalled.push (fun _ he => by cases he)
  have hclean : Clean p w' := hacts.clean_of_ended (.inl rfl) hcarried.within
  cases r with
  | error err => exact ⟨hI.quiet rfl hacts.rows_of_commit_error, hpushed, hclean, hnone⟩
  | ok a =>
    have hwrites : κ.Writes cfg x := Entry.writes_of_obeys hobeys
    refine ⟨hI.commit hcalled hwrites hnone hs hcarried hacts, hpushed, hclean, hwrites, w₀, ?_⟩
    rw [performedBy_commit hs, hnone]

end Commit

/-- A transaction that is dropped takes back what the call has pending. -/
theorem Stage.means_drop {s : Stage} {tx : RegistryTx} {r : (Effect.drop tx).Res}
    (hA : s.Means cfg p n κ h) (hallows : transactions.allows s (.drop tx))
    (hacts : Acts p h.state (.drop tx) r w') :
    (transactions.next s (.drop tx) r).Means cfg p n κ
      (h.push (.did p n (.drop tx) r h.state w')) := by
  obtain ⟨hcalled, hA⟩ := hA
  have hexecute : ∀ tx' x, Effect.drop tx ≠ .execute tx' x := fun _ _ => Effect.noConfusion
  refine ⟨hcalled.push (fun _ he => by cases he), ?_⟩
  cases s with
  | fresh => exact ⟨hacts.clean hexecute hA.1, hA.2⟩
  | kept x => exact ⟨hacts.clean hexecute hA.1, hA.2⟩
  | wrote tx' x =>
    obtain rfl : tx = tx' := hallows
    obtain ⟨hnone, w₀, -, hcarried⟩ := hA
    exact ⟨hacts.clean_of_ended (.inr rfl) hcarried.within, hnone⟩

theorem transactions_next_of_ne {s : Stage} (hexecute : ∀ tx x, e ≠ .execute tx x)
    (hcommit : ∀ tx, e ≠ .commit tx) (hdrop : ∀ tx, e ≠ .drop tx) :
    transactions.next s e r = s := by
  cases e with
  | execute tx x => exact absurd rfl (hexecute tx x)
  | commit tx => exact absurd rfl (hcommit tx)
  | drop tx => exact absurd rfl (hdrop tx)
  | _ => rfl

/-- **One effect** of an entry, allowed in its stage, leads to the next stage, and the tables are
    what the performed writes make of them. -/
theorem Stage.step {s : Stage} (hI : Committed cfg h₀ h) (hA : s.Means cfg p n κ h)
    (hallows : transactions.allows s e)
    (hobeys : ∃ y : Prog Effect Effect.Res ServerLocal,
      y.Obeys transactions (κ.Ends cfg) (transactions.next s e r))
    (hacts : Acts p h.state e r w') :
    Committed cfg h₀ (h.push (.did p n e r h.state w')) ∧
      (transactions.next s e r).Means cfg p n κ (h.push (.did p n e r h.state w')) := by
  by_cases hcommit : ∃ tx, e = .commit tx
  · obtain ⟨tx, rfl⟩ := hcommit
    cases s with
    | fresh => exact hallows.elim
    | kept => exact hallows.elim
    | wrote tx' x =>
      obtain rfl : tx = tx' := hallows
      exact Stage.step_commit hI hA hobeys hacts
  -- Every other effect performs nothing, and leaves the committed rows as they are.
  have hcommit : ∀ tx, e ≠ .commit tx := fun tx he => hcommit ⟨tx, he⟩
  have hperformed : performed (.did p n e r h.state w' :: h.trace) = performed h.trace :=
    performed_of_ne_commit hcommit
  refine ⟨hI.quiet (by rw [Hist.push_trace, hperformed]) (hacts.rows_of_ne_commit hcommit), ?_⟩
  by_cases hexecute : ∃ tx x, e = .execute tx x
  · obtain ⟨tx, x, rfl⟩ := hexecute
    cases s with
    | wrote => exact hallows.elim
    | kept => exact hallows.elim
    | fresh => exact Stage.means_execute hA hacts
  have hexecute : ∀ tx x, e ≠ .execute tx x := fun tx x he => hexecute ⟨tx, x, he⟩
  by_cases hdrop : ∃ tx, e = .drop tx
  · obtain ⟨tx, rfl⟩ := hdrop
    exact Stage.means_drop hA hallows hacts
  have hdrop : ∀ tx, e ≠ .drop tx := fun tx he => hdrop ⟨tx, he⟩
  rw [transactions_next_of_ne hexecute hcommit hdrop]
  exact Stage.means_quiet hA hacts hexecute hcommit hdrop

end Step

/-- A task is idle and has never been called, or it is in a call, in a stage that means what it
    should. -/
def Staged (cfg : ServerConfig) (c : Server) (p : Pid) : Prop :=
  Machine.Disciplined transactions (fun p h => Clean p h.state ∧ Uncalled p h)
    (fun p n κ s => s.Means cfg p n κ) (Entry.Ends cfg) c p

theorem atomic_of_staged {c₀ c : Server} (hrun : (server cfg).Run Cond c₀ c)
    (hnum : Machine.Numbered c₀) (h₀ : Committed cfg c₀.hist c₀.hist)
    (hstaged : ∀ p, Staged cfg c₀ p) :
    Committed cfg c₀.hist c.hist ∧ ∀ p, Staged cfg c p := by
  refine hrun.disciplined (Committed cfg c₀.hist) hnum h₀ hstaged
    (fun p => server_stable_clean.and stable_uncalled) (fun p n κ s => s.stable_means) ?_ ?_
  · intro p n κ l h hpast hI hstart _
    have hclean : Clean p h.state := by
      rcases hstart with hidle | ⟨κ', s, hA, hends⟩
      · exact hidle.1
      · exact hA.clean_of_ends hends
    exact ⟨hI.called p (n + 1) κ, .fresh, Stage.means_called hpast hclean κ, κ.obeys cfg l⟩
  · intro p n κ s h e env r w' hI hA hallows hobeys hact _
    exact Stage.step hI hA hallows hobeys (acts_of_act hact)

/-- **Every run.** The committed rows are what the performed writes have made of the first ones, one
    after the other. -/
theorem atomic_of_run {t : Tables} {timer : ReleaseTimer} {c : Server}
    (hrun : (server cfg).Run Cond (t.serverWith timer) c) :
    Committed cfg ⟨t.world, []⟩ c.hist ∧ ∀ p, Staged cfg c p := by
  refine atomic_of_staged hrun (fun _ hev => absurd hev List.not_mem_nil)
    ⟨⟨[], rfl, .nil⟩, fun _ hx => absurd hx List.not_mem_nil, List.nodup_nil⟩ fun p => .inl ?_
  refine ⟨?_, t.world_clean p, fun _ _ hev => absurd hev List.not_mem_nil⟩
  cases p with
  | timer => exact ⟨_, rfl⟩
  | task i => exact ⟨_, rfl⟩

/-- The same for a part of a run. -/
theorem atomic_since {t : Tables} {timer : ReleaseTimer} {c₁ c₂ : Server}
    (hrun₁ : (server cfg).Run Cond (t.serverWith timer) c₁) (hrun₂ : (server cfg).Run Cond c₁ c₂) :
    Committed cfg c₁.hist c₂.hist := by
  obtain ⟨hcommitted, hstaged⟩ := atomic_of_run hrun₁
  refine (atomic_of_staged hrun₂ (hrun₁.numbered _ fun _ hev => absurd hev List.not_mem_nil)
    ⟨⟨[], rfl, .nil⟩, hcommitted.permitted, hcommitted.once⟩ hstaged).1

end Soundness

end Tachikoma
