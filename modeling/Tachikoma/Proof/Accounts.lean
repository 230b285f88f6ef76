import Tachikoma.Proof.Calls

/-!
# One directory entry, one account

A first login looks for a row in one transaction and stores one in another, so two first logins of
one person can both find nothing. What keeps them apart is the `UNIQUE` constraint on `users.dn`:
the second insert waits for the first one's transaction and then fails. Here is what follows for all
interleavings, with any of the other calls in between: the rows differ in `dn` (pending ones
included), a login answers with the row of the entry it found, and **a row is there only because its
entry was bound with a password**.
-/

set_option autoImplicit false

namespace Tachikoma

open Interleaving Versioned Unordered

variable {Cond : History → Ev → Prop} {p : Pid} {n : Nat}

/-! ## The rows of `users` -/

/-- An insert that runs has found no version of a row with the `dn` of the new one. -/
theorem of_insertUser {x : TxId} {uuid dn : String} {tgHandle : Option String} {email : String}
    {db db' : Db} {id : UserId} (h : db.insertUser x uuid dn tgHandle email = some (.ok id, db')) :
    db.users.insert x id ⟨dn, tgHandle, email, uuid⟩ = some db'.users ∧
      (∀ k r, (db.users.cell k).locked x = true → (db.users.cell k).Version r → r.dn ≠ dn) ∧
      ∀ k r, (db.users.cell k).view x = some r → r.dn ≠ dn := by
  unfold Db.insertUser at h
  dsimp only at h
  split at h
  · cases h
  rename_i hwait
  split at h
  · cases h
  rename_i hthere
  split at h
  · cases h
  rename_i t ht
  obtain ⟨hid, rfl⟩ := Prod.mk.inj (Option.some.inj h)
  cases hid
  -- Neither branch before was taken: nothing to wait for, and nothing that clashes.
  refine ⟨ht, fun k r hl hr hdn => hwait ?_, fun k r hr hdn => hthere ?_⟩
  · rcases db.users.cell_cases k with hmem | ⟨-, hempty⟩
    · rw [List.any_eq_true]
      refine ⟨_, hmem, ?_⟩
      rcases hr with hr | ⟨y, hy⟩
      · simp [hl, Db.clashes, hr, hdn]
      · simp [hl, Db.clashes, hy, hdn]
    · rw [hempty] at hl
      cases hl
  · rcases db.users.cell_cases k with hmem | ⟨-, hempty⟩
    · rw [List.any_eq_true]
      exact ⟨_, hmem, by simp [hr, hdn]⟩
    · rw [hempty] at hr
      cases hr

theorem users_of_insertUser {x : TxId} {uuid dn : String} {tgHandle : Option String}
    {email : String} {db db' : Db} {err : SqlxError}
    (h : db.insertUser x uuid dn tgHandle email = some (.error err, db')) :
    db'.users = db.users := by
  unfold Db.insertUser at h
  dsimp only at h
  split at h
  · cases h
  split at h
  · obtain ⟨-, rfl⟩ := Prod.mk.inj (Option.some.inj h)
    rfl
  split at h
  · obtain ⟨-, rfl⟩ := Prod.mk.inj (Option.some.inj h)
    rfl
  · cases h

/-- `users.dn` is unique, whoever looks. -/
def World.UniqueDn (w : World) : Prop := w.db.users.Unique UserRow.dn

/-- A link keeps the column, and nothing else but an insert writes it. -/
theorem Acts.uniqueDn {w w' : World} {e : Effect} {r : e.Res} (h : Acts p w e r w')
    (he : ∀ tx dn tgHandle email, e ≠ .execute tx (.addUser dn tgHandle email))
    (hw : w.UniqueDn) : w'.UniqueDn := by
  cases h with
  | quiet _ _ _ _ _ _ _ husers => rw [World.UniqueDn, husers]; exact hw
  | executeFails => exact hw
  | updateHosts => exact hw
  | setUserTgHandle tx u tgHandle t hupdate => exact Table.Unique.update hw hupdate fun _ => rfl
  | addUser tx dn tgHandle email => exact absurd rfl (he tx dn tgHandle email)
  | commit tx => exact Table.Unique.commit hw _
  | commitFails tx => exact Table.Unique.rollback hw _
  | drop tx => exact Table.Unique.rollback hw _

/-- An insert waits or fails where it would break it. -/
theorem World.UniqueDn.act {e : Effect} {env : Env} {w w' : World} {r : e.Res}
    (h : w.UniqueDn) (ha : act p e env w = some (r, w')) : w'.UniqueDn := by
  by_cases he : ∃ tx dn tgHandle email, e = .execute tx (.addUser dn tgHandle email)
  · obtain ⟨tx, dn, tgHandle, email, rfl⟩ := he
    simp only [Tachikoma.act] at ha
    split at ha
    · obtain ⟨-, rfl⟩ := Prod.mk.inj (Option.some.inj ha)
      exact h
    obtain ⟨⟨answer, db⟩, hdb, hr⟩ := Option.map_eq_some_iff.mp ha
    obtain ⟨-, rfl⟩ := Prod.mk.inj hr
    cases answer with
    | ok id =>
      obtain ⟨hins, hlocked, hview⟩ := of_insertUser hdb
      exact Table.Unique.insert h hins (Table.Unique.free h _ hlocked hview)
    | error err => rw [World.UniqueDn, users_of_insertUser hdb]; exact h
  · refine (acts_of_act ha).uniqueDn (fun tx dn tgHandle email hx => he ?_) h
    exact ⟨tx, dn, tgHandle, email, hx⟩

/-! ## What is said of a call -/

/-- The row that an event adds under the id of a user. -/
def addedUser (id : UserId) : Ev → Option UserRow
  | .did _ _ _ _ w w' => if w.user id = none then w'.user id else none
  | .called _ _ _ => none

/-- The `n`-th call of `p` is a login with a password that is not empty, and the directory has
    accepted it for `dn`. -/
def Vouched (p : Pid) (n : Nat) (dn : String) (tr : Trace) : Prop :=
  ∃ username password, Event.called p n (.authenticate username password) ∈ tr ∧ password ≠ "" ∧
    ∃ w w', Event.did p n (.simpleBind dn password) (.ok ()) w w' ∈ tr

/-- The entry that the `n`-th call of `p`, a login, has found for its user name. -/
def Found (p : Pid) (n : Nat) (uInfo : AdUserInfo) (tr : Trace) : Prop :=
  ∃ username password, Event.called p n (.authenticate username password) ∈ tr ∧
    ∃ w w', Event.did p n (.findUserInfo username) (.ok (some uInfo)) w w' ∈ tr

/-- The `n`-th call of `p` has added no row. -/
def AddsNone (p : Pid) (n : Nat) (tr : Trace) : Prop :=
  ∀ ev ∈ tr, ev.pid = p → ev.calls = n → ∀ id, addedUser id ev = none

/-- Whoever added a row had the directory's word for its `dn` before. -/
def RowsVouched (tr : Trace) : Prop :=
  ∀ ev past, ev :: past <:+ tr → ∀ id, ∀ row ∈ addedUser id ev, Vouched ev.pid ev.calls row.dn past

/-- There is one row with this `dn`, and this is its id. -/
def World.IdOf (id : UserId) (dn : String) (w : World) : Prop :=
  ∃ row, w.user id = some row ∧ row.dn = dn ∧
    ∀ id' row', w.user id' = some row' → row'.dn = dn → id' = id

/-- What logins are to the table of users. -/
structure OneAccount (c : System) : Prop where
  unique : ∀ a b r s, c.hist.state.user a = some r → c.hist.state.user b = some s → r.dn = s.dn →
    a = b
  answers : ∀ p user, (c.threads p).prog = .ret (.authenticated (.ok (some user))) →
    ∃ uInfo, Found p (c.threads p).calls uInfo c.hist.trace ∧ c.hist.state.IdOf user.id uInfo.dn
  refuses : ∀ p r, (c.threads p).prog = .ret (.authenticated r) → (∀ user, r ≠ .ok (some user)) →
    AddsNone p (c.threads p).calls c.hist.trace
  vouched : RowsVouched c.hist.trace

/-! ### Every step -/

theorem Vouched.mono {dn : String} {tr tr' : Trace} (h : Vouched p n dn tr)
    (hsub : ∀ ev ∈ tr, ev ∈ tr') : Vouched p n dn tr' := by
  obtain ⟨username, password, hcall, hne, w, w', hbind⟩ := h
  exact ⟨username, password, hsub _ hcall, hne, w, w', hsub _ hbind⟩

theorem Found.mono {uInfo : AdUserInfo} {tr tr' : Trace} (h : Found p n uInfo tr)
    (hsub : ∀ ev ∈ tr, ev ∈ tr') : Found p n uInfo tr' := by
  obtain ⟨username, password, hcall, w, w', hfound⟩ := h
  exact ⟨username, password, hsub _ hcall, w, w', hsub _ hfound⟩

theorem mem_push {h : History} {ev : Ev} : ∀ ev' ∈ h.trace, ev' ∈ (h.push ev).trace :=
  fun ev' hev' => by rw [Hist.push_trace]; exact List.mem_cons_of_mem _ hev'

theorem Vouched.stable {Inv : History → Prop} {dn : String} :
    machine.Stable Cond Inv p fun h => Vouched p n dn h.trace :=
  .of_mono fun _ _ hv => hv.mono mem_push

theorem Found.stable {Inv : History → Prop} {uInfo : AdUserInfo} :
    machine.Stable Cond Inv p fun h => Found p n uInfo h.trace :=
  .of_mono fun _ _ hf => hf.mono mem_push

theorem AddsNone.stable {Inv : History → Prop} :
    machine.Stable Cond Inv p fun h => AddsNone p n h.trace := by
  intro h ev _ hA hne _ _ ev' hev' hpid hcalls
  rw [Hist.push_trace] at hev'
  rcases List.mem_cons.mp hev' with rfl | hev'
  · exact absurd hpid hne
  · exact hA ev' hev' hpid hcalls

theorem AddsNone.push {h : History} {ev : Ev} (hA : AddsNone p n h.trace)
    (hev : ∀ id, addedUser id ev = none) : AddsNone p n (h.push ev).trace := by
  intro ev' hev' hpid hcalls
  rw [Hist.push_trace] at hev'
  rcases List.mem_cons.mp hev' with rfl | hev'
  · exact hev
  · exact hA ev' hev' hpid hcalls

theorem RowsVouched.push {h : History} {ev : Ev} (hI : RowsVouched h.trace)
    (hev : ∀ id, ∀ row ∈ addedUser id ev, Vouched ev.pid ev.calls row.dn h.trace) :
    RowsVouched (h.push ev).trace := by
  intro ev' past hsuffix
  rw [Hist.push_trace, List.suffix_cons_iff] at hsuffix
  rcases hsuffix with heq | hsuffix
  · cases heq
    exact hev
  · exact hI ev' past hsuffix

/-- An effect that is no commit, or one that fails, adds nothing. -/
theorem Acts.addsNone {w w' : World} {e : Effect} {r : e.Res} (h : Acts p w e r w')
    (hcommit : ∀ id row, committedUser id (.did p n e r w w') ≠ some row) (id : UserId) :
    addedUser id (.did p n e r w w') = none := by
  rw [addedUser]
  split
  · rename_i hnone
    rcases h.user n id with ⟨heq, -⟩ | heq
    · rw [Option.eq_none_iff_forall_ne_some]
      exact fun row hrow => hcommit id row (heq.symm.trans hrow)
    · rw [heq, hnone]
  · rfl

/-- What a task has pending for a new user has been vouched for. -/
def Vouching (p : Pid) (n : Nat) (h : History) : Prop :=
  h.state.db.users.Holds fun x id v => x.pid = p → ∀ row, v = some row → h.state.user id = none →
    Vouched p n row.dn h.trace

theorem Clean.vouching {h : History} (hc : Clean p h.state) : Vouching p n h :=
  hc.users.mono fun _ _ _ hne hpid => absurd hpid hne

section Step

variable {h : History} {e : Effect} {r : e.Res} {w' : World}

/-- Users do not vanish, and keep their `dn`. -/
theorem World.UniqueDn.user_did {q : Pid} (hU : h.state.UniqueDn) (hacts : Acts q h.state e r w')
    {id : UserId} {row : UserRow} (hrow : h.state.user id = some row) :
    ∃ row', w'.user id = some row' ∧ row'.dn = row.dn := by
  rcases hacts.user 0 id with ⟨-, x, hp⟩ | heq
  · obtain ⟨row', hrow'⟩ := Option.ne_none_iff_exists'.mp (hU.written id x _ hp)
    refine ⟨row', hrow', hU.fixed id row' row (.inr ⟨x, hrow' ▸ hp⟩) (.inl hrow)⟩
  · exact ⟨row, heq.trans hrow, rfl⟩

theorem Vouching.did {q : Pid} {m : Nat} (hA : Vouching p n h) (hU : h.state.UniqueDn)
    (hacts : Acts q h.state e r w')
    (hadd : q = p → ∀ tx dn tgHandle email, e = .execute tx (.addUser dn tgHandle email) →
      Vouched p n dn h.trace) : Vouching p n (h.push (.did q m e r h.state w')) := by
  have hgone : ∀ {id : UserId}, w'.user id = none → h.state.user id = none := by
    intro id hid
    rw [Option.eq_none_iff_forall_ne_some]
    intro row hrow
    obtain ⟨row', hrow', -⟩ := hU.user_did hacts hrow
    rw [hid] at hrow'
    cases hrow'
  have hpending := hacts.users_holds hA (fun tx u tgHandle row he hview hpid row' hrow' hnone => ?_)
    fun tx id dn tgHandle email link he hpid row hrow _ => by
      cases hrow
      exact hadd hpid tx dn tgHandle email he
  · exact hpending.mono fun x id v hv hpid row hrow hnone =>
      (hv hpid row hrow (hgone hnone)).mono mem_push
  · -- The row that is linked is seen but not there, so it is pending already.
    cases hrow'
    by_cases hheld : ∃ v, (h.state.db.users.cell u).pending = some (⟨q, tx.no⟩, v)
    · obtain ⟨v, hv⟩ := hheld
      rw [Cell.view_of_held hv] at hview
      exact hA u _ v hv hpid row hview hnone
    · rw [Cell.view_of_not_held (not_exists.mp hheld)] at hview
      rw [World.user, hview] at hnone
      cases hnone

/-- So what it adds has been. -/
theorem RowsVouched.did (hI : RowsVouched h.trace) (hA : Vouching p n h)
    (hacts : Acts p h.state e r w') : RowsVouched (h.push (.did p n e r h.state w')).trace := by
  refine hI.push fun id row hrow => ?_
  rw [Option.mem_def, addedUser] at hrow
  split at hrow
  · rename_i hnone
    rcases hacts.user n id with ⟨heq, -⟩ | heq
    · obtain ⟨tx, -, hp⟩ := pending_of_committedUser (heq.symm.trans hrow)
      exact hA id _ _ hp rfl row rfl hnone
    · rw [heq, hnone] at hrow
      cases hrow
  · cases hrow

/-- What a transaction sees of a user it sees in the end, whatever the others do. -/
theorem World.UniqueDn.view_did {q : Pid} (hU : h.state.UniqueDn) (hacts : Acts q h.state e r w')
    (hq : q ≠ p) {tx : RegistryTx} {id : UserId} {row : UserRow}
    (hrow : (h.state.db.users.cell id).view ⟨p, tx.no⟩ = some row) :
    ∃ row', (w'.db.users.cell id).view ⟨p, tx.no⟩ = some row' ∧ row'.dn = row.dn := by
  by_cases hheld : ∃ v, (h.state.db.users.cell id).pending = some (⟨p, tx.no⟩, v)
  · obtain ⟨v, hv⟩ := hheld
    rw [Cell.view_of_held hv] at hrow
    exact ⟨row, by rw [Cell.view_of_held (hacts.pending_user_of_ne hq rfl hv), hrow], rfl⟩
  · have hother : w'.db.users.Holds fun x id' _ => id' = id → x ≠ ⟨p, tx.no⟩ := by
      refine hacts.users_holds ?_ ?_ ?_
      · intro id' x v hp hid hx
        subst hid hx
        exact hheld ⟨v, hp⟩
      · intro tx' u tgHandle row _ _ _ hx
        exact hq (congrArg TxId.pid hx)
      · intro tx' id' dn tgHandle email link _ _ hx
        exact hq (congrArg TxId.pid hx)
    rw [Cell.view_of_not_held (not_exists.mp hheld)] at hrow
    obtain ⟨row', hrow', hdn⟩ := hU.user_did hacts hrow
    refine ⟨row', ?_, hdn⟩
    rw [Cell.view_of_not_held fun v hv => hother id _ v hv rfl rfl]
    exact hrow'

end Step

/-! ## A login -/

/-- What every run keeps. -/
structure Accounted (h : History) : Prop where
  unique : h.state.UniqueDn
  vouched : RowsVouched h.trace

theorem Accounted.did {h : History} {e : Effect} {r : e.Res} {w' : World} (hI : Accounted h)
    (hA : Vouching p n h) (hacts : Acts p h.state e r w')
    (he : ∀ tx dn tgHandle email, e ≠ .execute tx (.addUser dn tgHandle email)) :
    Accounted (h.push (.did p n e r h.state w')) :=
  ⟨hacts.uniqueDn he hI.unique, hI.vouched.did hA hacts⟩

theorem Accounted.act {h : History} {e : Effect} {env : Env} {r : e.Res} {w' : World}
    (hI : Accounted h) (hA : Vouching p n h) (ha : act p e env h.state = some (r, w')) :
    Accounted (h.push (.did p n e r h.state w')) :=
  ⟨hI.unique.act ha, hI.vouched.did hA (acts_of_act ha)⟩

theorem Vouching.stable : machine.Stable Cond Accounted p (Vouching p n) := by
  intro h ev hI hA hne hl _
  cases ev with
  | called q m κ => exact Table.Holds.mono hA fun x id v hv hpid row hrow hnone =>
      (hv hpid row hrow hnone).mono mem_push
  | did q m e r w w' =>
    obtain ⟨rfl, hacts⟩ := acts_of_legal hl
    exact hA.did hI.unique hacts fun hq => absurd hq hne

/-- The row of the user, for everybody, has this `dn`. -/
def Knows (id : UserId) (dn : String) (h : History) : Prop :=
  ∃ row, h.state.user id = some row ∧ row.dn = dn

theorem Knows.stable {id : UserId} {dn : String} :
    machine.Stable Cond Accounted p (Knows id dn) := by
  intro h ev hI hA _ hl _
  cases ev with
  | called q m κ => exact hA
  | did q m e r w w' =>
    obtain ⟨rfl, hacts⟩ := acts_of_legal hl
    obtain ⟨row, hrow, hdn⟩ := hA
    obtain ⟨row', hrow', heq⟩ := hI.unique.user_did hacts hrow
    exact ⟨row', hrow', heq.trans hdn⟩

/-- The row of the user, for the transaction, has this `dn`. -/
def Sees (p : Pid) (tx : RegistryTx) (id : UserId) (dn : String) (h : History) : Prop :=
  ∃ row, (h.state.db.users.cell id).view ⟨p, tx.no⟩ = some row ∧ row.dn = dn

theorem Sees.stable {tx : RegistryTx} {id : UserId} {dn : String} :
    machine.Stable Cond Accounted p (Sees p tx id dn) := by
  intro h ev hI hA hne hl _
  cases ev with
  | called q m κ => exact hA
  | did q m e r w w' =>
    obtain ⟨rfl, hacts⟩ := acts_of_legal hl
    obtain ⟨row, hrow, hdn⟩ := hA
    obtain ⟨row', hrow', heq⟩ := hI.unique.view_did hacts hne hrow
    exact ⟨row', hrow', heq.trans hdn⟩

/-- A login that has written nothing yet. -/
structure LoggingIn (p : Pid) (n : Nat) (username password : String) (h : History) : Prop where
  called : Event.called p n (.authenticate username password) ∈ h.trace
  clean : Clean p h.state
  addsNone : AddsNone p n h.trace

theorem LoggingIn.stable {Inv : History → Prop} {username password : String} :
    machine.Stable Cond Inv p (LoggingIn p n username password) := fun h ev hI hA hne hl hc =>
  ⟨mem_push _ hA.called, stable_clean h ev hI hA.clean hne hl hc,
    AddsNone.stable h ev hI hA.addsNone hne hl hc⟩

/-- An effect that is no commit adds no row. -/
theorem AddsNone.did {h : History} {q : Pid} {m : Nat} {e : Effect} {r : e.Res} {w' : World}
    (hA : AddsNone p n h.trace) (hacts : Acts q h.state e r w') (he : ∀ tx, e ≠ .commit tx) :
    AddsNone p n (h.push (.did q m e r h.state w')).trace := by
  refine hA.push fun id => hacts.addsNone (fun id row hrow => ?_) id
  obtain ⟨tx, hx, -⟩ := pending_of_committedUser hrow
  exact he tx hx

theorem LoggingIn.did {h : History} {username password : String} {e : Effect} {r : e.Res}
    {w' : World} (hA : LoggingIn p n username password h) (hacts : Acts p h.state e r w')
    (hexecute : ∀ tx x, e ≠ .execute tx x) (hcommit : ∀ tx, e ≠ .commit tx) :
    LoggingIn p n username password (h.push (.did p n e r h.state w')) :=
  ⟨mem_push _ hA.called, hacts.clean hexecute hA.clean, hA.addsNone.did hacts hcommit⟩

/-- What a login promises, by its answer. -/
def Told (p : Pid) (n : Nat) : Option AuthUser → History → Prop
  | some user, h => ∃ uInfo, Found p n uInfo h.trace ∧ Knows user.id uInfo.dn h
  | none, h => AddsNone p n h.trace

theorem Told.stable (user : Option AuthUser) :
    machine.Stable Cond Accounted p (Told p n user) := by
  cases user with
  | none => exact AddsNone.stable
  | some user =>
    intro h ev hI hA hne hl hc
    obtain ⟨uInfo, hfound, hknows⟩ := hA
    exact ⟨uInfo, hfound.mono mem_push, Knows.stable h ev hI hknows hne hl hc⟩

section Login

variable {username password : String} {uInfo : AdUserInfo}

/-- The row of a statement by `dn` is one with this `dn`. -/
theorem of_getUserByDn {order : List Nat} {v : View} {dn : String} {user : User}
    (h : Select.run order v (.getUserByDn dn) = .ok (some user)) :
    user ∈ v.users ∧ user.dn = dn := by
  have hmem := mem_of_head?_arrange (Except.ok.inj h)
  rw [List.mem_filter] at hmem
  exact ⟨hmem.1, of_decide_eq_true hmem.2⟩

theorem Sees.fetched {tx : RegistryTx} {h : History} {order : List Nat} {dn : String} {user : User}
    (hrun : Select.run order (h.state.db.view ⟨p, tx.no⟩) (.getUserByDn dn) = .ok (some user)) :
    Sees p tx user.id dn h := by
  obtain ⟨hmem, hdn⟩ := of_getUserByDn hrun
  exact ⟨_, mem_view_users.mp hmem, hdn⟩

/-- And there is one, if the transaction sees one. -/
theorem Sees.ne_none {tx : RegistryTx} {h : History} {id : UserId} {order : List Nat} {dn : String}
    {found : Option User} (hA : Sees p tx id dn h)
    (hrun : Select.run order (h.state.db.view ⟨p, tx.no⟩) (.getUserByDn dn) = .ok found) :
    found ≠ none := by
  rintro rfl
  obtain ⟨row, hrow, hdn⟩ := hA
  have hnil := eq_nil_of_head?_arrange (Except.ok.inj hrun)
  rw [List.filter_eq_nil_iff] at hnil
  exact hnil { row with id := id } (mem_view_users.mpr hrow) (by simpa using hdn)

/-- An effect of a login that writes nothing. -/
theorem LoggingIn.keeps {h : History} {e : Effect} {r : e.Res} {w' : World}
    (hI : Accounted h) (hA : LoggingIn p n username password h) (hacts : Acts p h.state e r w')
    (hexecute : ∀ tx x, e ≠ .execute tx x) (hcommit : ∀ tx, e ≠ .commit tx) :
    Accounted (h.push (.did p n e r h.state w')) ∧
      LoggingIn p n username password (h.push (.did p n e r h.state w')) :=
  ⟨hI.did hA.clean.vouching hacts fun _ _ _ _ => hexecute _ _, hA.did hacts hexecute hcommit⟩

/-- The search for the entry of the user name. -/
theorem sketch_findUserInfo :
    machine.Sketch Cond Accounted p n
      (exits (fun found h => LoggingIn p n username password h ∧
          ∀ uInfo, found = some uInfo → Found p n uInfo h.trace)
        (fun h => AddsNone p n h.trace) fun _ => False)
      (UsersInfo.findUserInfo username) (LoggingIn p n username password) := by
  refine ⟨fun r h => LoggingIn p n username password h ∧
    ∀ uInfo, r = .ok (some uInfo) → Found p n uInfo h.trace,
    fun r => LoggingIn.stable.and (.forall fun _ => .imp_const Found.stable), ?_, fun r => ?_⟩
  · intro h env r w' hI hA ha _
    have hacts : Acts p h.state (.findUserInfo username) r w' := acts_of_act ha
    obtain ⟨hI', hA'⟩ := hA.keeps hI hacts (by simp) (by simp)
    refine ⟨hI', hA', fun uInfo hr => ?_⟩
    subst hr
    exact ⟨username, password, mem_push _ hA.called, _, _, by
      rw [Hist.push_trace]; exact List.mem_cons_self⟩
  · cases r with
    | ok found => exact fun h _ hA => ⟨hA.1, fun uInfo hu => hA.2 uInfo (congrArg Except.ok hu)⟩
    | error err => exact fun h _ hA => hA.1.addsNone

/-- The directory is asked only about a password that is not empty. -/
theorem sketch_checkAuthentication (username password dn : String) :
    machine.Sketch Cond Accounted p n
      (exits (fun _ h => LoggingIn p n username password h ∧ Vouched p n dn h.trace)
        (LoggingIn p n username password) fun _ => False)
      (UsersInfo.checkAuthentication dn password) (LoggingIn p n username password) := by
  unfold UsersInfo.checkAuthentication
  split
  · exact Task.sketch_throw fun h _ hA => hA
  rename_i hne
  refine ⟨fun r h => LoggingIn p n username password h ∧
    (r = .ok () → Vouched p n dn h.trace),
      fun r => LoggingIn.stable.and (.imp_const Vouched.stable),
    ?_, fun r => ?_⟩
  · intro h env r w' hI hA ha _
    have hacts : Acts p h.state (.simpleBind dn password) r w' := acts_of_act ha
    obtain ⟨hI', hA'⟩ := hA.keeps hI hacts (by simp) (by simp)
    refine ⟨hI', hA', fun hr => ?_⟩
    subst hr
    exact ⟨username, password, mem_push _ hA.called, hne, _, _, by
      rw [Hist.push_trace]; exact List.mem_cons_self⟩
  · cases r with
    | ok a => exact fun h _ hA => ⟨hA.1, hA.2 rfl⟩
    | error err => exact fun h _ hA => hA.1

/-- The transaction that looks for the row of an entry. -/
theorem sketch_getUserByDn (username password dn : String) :
    machine.Sketch Cond Accounted p n
      (exits (fun found h => LoggingIn p n username password h ∧
          ∀ user : User, found = some user → Knows user.id dn h)
        (fun h => AddsNone p n h.trace) fun _ => False)
      (withTx AuthError.dbError fun tx => (tx.getUserByDn dn).mapErr .dbError)
      (LoggingIn p n username password) := by
  have hstable : ∀ found : Option User, machine.Stable Cond Accounted p fun h =>
      LoggingIn p n username password h ∧ ∀ user : User, found = some user → Knows user.id dn h :=
    fun _ => LoggingIn.stable.and (.forall fun _ => .imp_const Knows.stable)
  refine Task.sketch_withTx (fun _ => LoggingIn p n username password)
    (fun _ => exits (fun found h => LoggingIn p n username password h ∧
      ∀ user : User, found = some user → Knows user.id dn h)
      (LoggingIn p n username password) fun _ => False)
    (fun _ => LoggingIn.stable) (stable_exits hstable AddsNone.stable .const) ?_ ?_ ?_ ?_
  · intro h tx w' hI hA hacts _
    exact hA.keeps hI hacts (by simp) (by simp)
  · intro h err w' hI hA hacts _
    obtain ⟨hI', hA'⟩ := hA.keeps hI hacts (by simp) (by simp)
    exact ⟨hI', hA'.addsNone⟩
  · intro tx
    refine Task.sketch_mapErr (Task.sketch_fetch hstable LoggingIn.stable ?_ ?_)
    · intro h order found hI hA hrun _
      obtain ⟨hI', hA'⟩ := hA.keeps hI (acts_fetch (.ok found)) (by simp) (by simp)
      refine ⟨hI', hA', fun user hu => ?_⟩
      -- The row that is found is a committed one, since this login has written nothing yet.
      subst hu
      obtain ⟨row, hrow, hdn⟩ := Sees.fetched hrun
      rw [hA.clean.view_user] at hrow
      exact ⟨row, hrow, hdn⟩
    · intro h err hI hA _
      exact hA.keeps hI (acts_fetch (.error err)) (by simp) (by simp)
  · intro tx r h w' hI hA hacts _
    cases r with
    | ok found =>
      obtain ⟨hI', hA'⟩ := hA.1.keeps hI hacts (by simp) (by simp)
      refine ⟨hI', hA', fun user hu => ?_⟩
      obtain ⟨row, hrow, hdn⟩ := hA.2 user hu
      obtain ⟨row', hrow', heq⟩ := hI.unique.user_did hacts hrow
      exact ⟨row', hrow', heq.trans hdn⟩
    | err e =>
      obtain ⟨hI', hA'⟩ := hA.keeps hI hacts (by simp) (by simp)
      exact ⟨hI', hA'.addsNone⟩
    | panic msg => exact hA.elim

/-- A login whose transaction may have written. -/
def Storing (p : Pid) (n : Nat) (h : History) : Prop := Vouching p n h ∧ AddsNone p n h.trace

theorem Storing.stable : machine.Stable Cond Accounted p (Storing p n) :=
  Vouching.stable.and AddsNone.stable

theorem Storing.did {h : History} {e : Effect} {r : e.Res} {w' : World} (hI : Accounted h)
    (hA : Storing p n h) (hacts : Acts p h.state e r w') (hexecute : ∀ tx x, e ≠ .execute tx x)
    (hcommit : ∀ tx, e ≠ .commit tx) :
    Accounted (h.push (.did p n e r h.state w')) ∧ Storing p n (h.push (.did p n e r h.state w')) :=
  ⟨hI.did hA.1 hacts fun _ _ _ _ => hexecute _ _,
    hA.1.did hI.unique hacts fun _ _ _ _ _ he => absurd he (hexecute _ _),
    hA.2.did hacts hcommit⟩

/-- The insert is what was vouched for, and the transaction sees it. -/
theorem LoggingIn.adds {h : History} {tx : RegistryTx} {dn email : String} {env : Env}
    {r : Except SqlxError UserId} {w' : World} (hI : Accounted h)
    (hA : LoggingIn p n username password h) (hV : Vouched p n dn h.trace)
    (ha : act p (.execute tx (.addUser dn none email)) env h.state = some (r, w')) :
    let h' := h.push (.did p n (.execute tx (.addUser dn none email)) r h.state w')
    Accounted h' ∧ Storing p n h' ∧ ∀ id, r = .ok id → Sees p tx id dn h' := by
  have hacts := acts_of_act ha
  refine ⟨hI.act hA.clean.vouching ha, ⟨?_, hA.addsNone.did hacts (by simp)⟩, fun id hid => ?_⟩
  · refine hA.clean.vouching.did hI.unique hacts fun _ tx' dn' tgHandle email' he => ?_
    cases he
    exact hV
  · subst hid
    cases hacts with
    | quiet _ _ _ _ hexecute => exact absurd rfl (hexecute _ _)
    | addUser _ _ _ _ link _ t k hinsert =>
      refine ⟨⟨dn, none, email, link⟩, ?_, rfl⟩
      change (t.cell id).view _ = _
      rw [Table.cell_insert hinsert, if_pos rfl]
      exact Cell.view_of_held rfl

/-- A commit shows everybody what the transaction saw. -/
theorem Sees.commit {h : History} {tx : RegistryTx} {id : UserId} {dn : String} {w' : World}
    (hA : Sees p tx id dn h) (hacts : Acts p h.state (.commit tx) (.ok ()) w') :
    Knows id dn (h.push (.did p n (.commit tx) (.ok ()) h.state w')) := by
  obtain ⟨row, hrow, hdn⟩ := hA
  cases hacts with
  | quiet _ _ _ hcommit => exact absurd rfl (hcommit tx)
  | commit =>
    refine ⟨row, ?_, hdn⟩
    show ((h.state.db.users.commit ⟨p, tx.no⟩).cell id).committed = some row
    rw [Table.cell_commit, Cell.commit_committed, hrow]

/-- The transaction that stores the row of an entry. -/
theorem sketch_addUser (username password dn email : String) :
    machine.Sketch Cond Accounted p n
      (exits (fun user h => Knows (user : User).id dn h)
        (fun h => AddsNone p n h.trace) fun _ => False)
      (withTx AuthError.dbError fun tx => do
        let _ ← (tx.addUser dn none email).mapErr .dbError
        let user ← (tx.getUserByDn dn).mapErr .dbError
        tx.commit.mapErr .dbError
        match user with
        | none => Task.panic "called `Option::unwrap()` on a `None` value"
        | some user => return user)
      (fun h => LoggingIn p n username password h ∧ Vouched p n dn h.trace) := by
  refine Task.sketch_withTx
    (fun _ h => LoggingIn p n username password h ∧ Vouched p n dn h.trace)
    (fun _ => exits (fun user h => Vouching p n h ∧ Knows (user : User).id dn h)
      (Storing p n) fun _ => False)
    (fun _ => LoggingIn.stable.and Vouched.stable)
    (stable_exits (fun _ => Knows.stable) AddsNone.stable .const) ?_ ?_ ?_ ?_
  · intro h tx w' hI hA hacts _
    obtain ⟨hI', hA'⟩ := hA.1.keeps hI hacts (by simp) (by simp)
    exact ⟨hI', hA', hA.2.mono mem_push⟩
  · intro h err w' hI hA hacts _
    obtain ⟨hI', hA'⟩ := hA.1.keeps hI hacts (by simp) (by simp)
    exact ⟨hI', hA'.addsNone⟩
  · intro tx
    -- The insert: from here on the row of `dn` is pending, or the insert was refused.
    refine Task.sketch_bind (B := fun id h => Storing p n h ∧ Sees p tx id dn h)
      (Task.sketch_mapErr ?_) fun id => ?_
    · refine Task.sketch_answer (e := .execute tx (.addUser dn none email))
        (fun _ => Storing.stable.and Sees.stable) Storing.stable ?_ ?_
      · intro h env r w' id hI hA ha hr _
        obtain ⟨hI', hS, hsees⟩ := hA.1.adds hI hA.2 ha
        exact ⟨hI', hS, hsees id hr⟩
      · intro h env r w' err hI hA ha hr _
        obtain ⟨hI', hS, -⟩ := hA.1.adds hI hA.2 ha
        exact ⟨hI', hS⟩
    -- The row is read back in the transaction that has added it, so it is there.
    refine Task.sketch_bind (B := fun found h => Storing p n h ∧
        ∃ user : User, found = some user ∧ Sees p tx user.id dn h) (Task.sketch_mapErr ?_)
        fun found => ?_
    · refine Task.sketch_fetch (fun found => Storing.stable.and ?_) Storing.stable ?_ ?_
      · cases found with
        | none => exact fun _ _ _ hA => by obtain ⟨_, hf, _⟩ := hA; cases hf
        | some user =>
          intro h ev hI hA hne hl hc
          obtain ⟨user', hu, hsees⟩ := hA
          exact ⟨user', hu, Sees.stable h ev hI hsees hne hl hc⟩
      · intro h order found hI hA hrun _
        obtain ⟨hI', hS⟩ := hA.1.did hI (acts_fetch (.ok found)) (by simp) (by simp)
        obtain ⟨user, hu⟩ := Option.ne_none_iff_exists'.mp (hA.2.ne_none hrun)
        have hu : found = some user := hu
        subst hu
        exact ⟨hI', hS, user, rfl, Sees.fetched hrun⟩
      · intro h err hI hA _
        exact hA.1.did hI (acts_fetch (.error err)) (by simp) (by simp)
    -- Once it is committed, others see it too.
    refine Task.sketch_bind (B := fun _ h => Vouching p n h ∧
        ∃ user : User, found = some user ∧ Knows user.id dn h) (Task.sketch_mapErr ?_) fun _ => ?_
    · refine Task.sketch_commit (fun _ => Vouching.stable.and ?_) Storing.stable ?_ ?_
      · intro h ev hI hA hne hl hc
        obtain ⟨user, hu, hknows⟩ := hA
        exact ⟨user, hu, Knows.stable h ev hI hknows hne hl hc⟩
      · intro h w' hI hA hacts _
        obtain ⟨user, hu, hsees⟩ := hA.2
        refine ⟨hI.did hA.1.1 hacts (by simp), ?_, user, hu, hsees.commit hacts⟩
        exact hA.1.1.did hI.unique hacts fun _ _ _ _ _ he => by cases he
      · intro h err w' hI hA hacts _
        refine ⟨hI.did hA.1.1 hacts (by simp), ?_, ?_⟩
        · exact hA.1.1.did hI.unique hacts fun _ _ _ _ _ he => by cases he
        · exact hA.1.2.push fun id => hacts.addsNone (fun _ _ => nofun) id
    split
    · exact Task.sketch_panic fun h _ hA => by obtain ⟨-, _, hf, -⟩ := hA; cases hf
    · rename_i user
      refine Task.sketch_pure fun h _ hA => ?_
      obtain ⟨hV, user', hu, hknows⟩ := hA
      cases hu
      exact ⟨hV, hknows⟩
  · intro tx r h w' hI hA hacts _
    cases r with
    | ok user =>
      obtain ⟨row, hrow, hdn⟩ := hA.2
      obtain ⟨row', hrow', heq⟩ := hI.unique.user_did hacts hrow
      exact ⟨hI.did hA.1 hacts (by simp), row', hrow', heq.trans hdn⟩
    | err e =>
      obtain ⟨hI', hS⟩ := hA.did hI hacts (by simp) (by simp)
      exact ⟨hI', hS.2⟩
    | panic msg => exact hA.elim

theorem sketch_authenticate :
    machine.Sketch Cond Accounted p n
      (exits (Told p n) (fun h => AddsNone p n h.trace) fun _ => False)
      (authenticate username password) (LoggingIn p n username password) := by
  refine Task.sketch_bind (Task.sketch_mapErr sketch_findUserInfo) fun found => ?_
  split
  · exact Task.sketch_pure fun h _ hA => hA.1.addsNone
  rename_i uInfo
  have hfound : ∀ (h : History) (ev : Ev), Found p n uInfo h.trace →
      Found p n uInfo (h.push ev).trace := fun _ _ hF => hF.mono mem_push
  have hvouched : ∀ (h : History) (ev : Ev), Vouched p n uInfo.dn h.trace →
      Vouched p n uInfo.dn (h.push ev).trace := fun _ _ hV => hV.mono mem_push
  refine Task.sketch_bind ((Task.sketch_frame (Task.sketch_attempt
    (sketch_checkAuthentication username password uInfo.dn)) hfound).pre ?_) fun bound => ?_
  · exact fun h _ hA => ⟨hA.1, hA.2 uInfo rfl⟩
  split
  · exact Task.sketch_pure fun h _ hA => hA.1.addsNone
  refine Task.sketch_bind ((Task.sketch_frame (Task.sketch_frame
    (sketch_getUserByDn username password uInfo.dn) hfound) hvouched).pre ?_) fun user => ?_
  · exact fun h _ hA => ⟨⟨hA.1.1, hA.2⟩, hA.1.2⟩
  split
  · rename_i user
    exact Task.sketch_pure fun h _ hA => ⟨uInfo, hA.1.2, hA.1.1.2 user rfl⟩
  · refine Task.sketch_bind ((Task.sketch_frame
      (sketch_addUser username password uInfo.dn uInfo.email) hfound).pre ?_) fun user => ?_
    · exact fun h _ hA => ⟨⟨hA.1.1.1, hA.2⟩, hA.1.2⟩
    · exact Task.sketch_pure fun h _ hA => ⟨uInfo, hA.2, hA.1⟩

end Login

/-! ## Every run -/

/-- What an idle task promises: its last call, if it was a login, has told the truth. -/
def Honest (p : Pid) (n : Nat) (l : Local) (h : History) : Prop :=
  ∀ r, l = .authenticated r → exits (Told p n) (fun h => AddsNone p n h.trace) (fun _ => False) r h

theorem Call.returns_no_login {κ : Call} (h : ∀ username password,
    κ ≠ .authenticate username password)
    (l : Local) : (κ.body l).Returns fun l' => ∀ r, l' ≠ .authenticated r := by
  rcases κ.body_cases l with hb | hb
  · rw [hb]; exact nofun
  · rw [hb]
    cases κ with
    | authenticate username password => exact absurd rfl (h username password)
    | release => exact .bind (Prog.returns_true _) fun r _ => by cases r <;> exact nofun
    | notifyReleasedHosts => exact .bind (Prog.returns_true _) fun r _ => by cases r <;> exact nofun
    | notifySoonRelease => exact .bind (Prog.returns_true _) fun r _ => by cases r <;> exact nofun
    | _ => exact .bind (Prog.returns_true _) fun r _ => nofun

theorem Call.writes_addUser {κ : Call} {dn : String} {tgHandle : Option String} {email : String}
    (h : κ.writes (.addUser dn tgHandle email)) :
    ∃ username password, κ = .authenticate username password := by
  cases κ with
  | authenticate username password => exact ⟨username, password, rfl⟩
  | lease => obtain ⟨_, hx⟩ := h; cases hx
  | leaseRandom => obtain ⟨_, _, hx⟩ := h; cases hx
  | extendUserHosts => obtain ⟨_, hx⟩ := h; cases hx
  | linkUser => obtain ⟨_, hx⟩ := h; cases hx
  | release => obtain ⟨_, hx⟩ := h; cases hx
  | _ => cases h

/-- A task that does not log in adds nobody. -/
theorem sketch_no_login {κ : Call} (hκ : ∀ username password, κ ≠ .authenticate username password)
    (l : Local) : machine.Sketch Cond Accounted p n (Honest p n) (κ.body l) (Vouching p n) := by
  have hkeep : machine.Sketch Cond Accounted p n (fun _ => Vouching p n) (κ.body l)
      (Vouching p n) := by
    refine Machine.Sketch.keep (κ.emits l) Vouching.stable fun h e env r w' he hI hA ha _ => ?_
    have hadd : ∀ tx dn tgHandle email, e ≠ .execute tx (.addUser dn tgHandle email) := by
      rintro tx dn tgHandle email rfl
      obtain ⟨username, password, hx⟩ := Call.writes_addUser (he tx _ rfl)
      exact hκ username password hx
    exact ⟨hI.did hA (acts_of_act ha) hadd,
      hA.did hI.unique (acts_of_act ha) fun _ _ _ _ _ hx => absurd hx (hadd _ _ _ _)⟩
  refine (((Machine.Sketch.of_returns (κ.returns_no_login hκ l)).and hkeep).pre
    fun h _ hA => ⟨trivial, hA⟩).post fun l' h _ hQ r hr => absurd hr (hQ.1 r)

theorem Honest.stable (l : Local) : machine.Stable Cond Accounted p (Honest p n l) :=
  .forall fun r => .imp_const (stable_exits Told.stable AddsNone.stable .const r)

namespace Tables

variable {t : Tables}

theorem world_uniqueDn (ht : (t.users.map (·.dn)).Nodup) : t.world.UniqueDn := by
  have hversion : ∀ k r, (t.db.users.cell k).Version r → t.world.user k = some r := by
    intro k r hr
    rcases hr with hr | ⟨x, hx⟩
    · exact hr
    · exact (t.users_holds (fun _ _ _ => False) k x _ hx).elim
  refine ⟨t.users_holds _, fun k r s hr hs => ?_, fun j k r s hr hs hdn => ?_⟩
  · have heq := (hversion k r hr).symm.trans (hversion k s hs)
    rw [Option.some.inj heq]
  · obtain ⟨a, ha, rfl, rfl⟩ := t.world_user.mp (hversion j r hr)
    obtain ⟨b, hb, rfl, rfl⟩ := t.world_user.mp (hversion k s hs)
    rw [List.inj_on_of_nodup_map ht ha hb hdn]

end Tables

theorem World.UniqueDn.idOf {w : World} (hU : w.UniqueDn) {id : UserId} {dn : String}
    (h : ∃ row, w.user id = some row ∧ row.dn = dn) : w.IdOf id dn := by
  obtain ⟨row, hrow, hdn⟩ := h
  refine ⟨row, hrow, hdn, fun id' row' hrow' hdn' => ?_⟩
  exact hU.differ id' id row' row (.inl hrow') (.inl hrow) (hdn'.trans hdn.symm)

/-- **One directory entry, one account**: in every run from a table that satisfies the constraint,
    however logins and all other calls interleave. -/
theorem oneAccount_of_run (t : Tables) (timer : ReleaseTimer) (ht : (t.users.map (·.dn)).Nodup)
    {c : System} (hrun : machine.Run (Machine.Calling proper) (t.systemWith timer) c) :
    OneAccount c := by
  have h₀ : Accounted ⟨t.world, []⟩ := by
    refine ⟨Tables.world_uniqueDn ht, fun ev past hsuffix => ?_⟩
    exact absurd (List.suffix_nil.mp hsuffix) (by simp)
  have hsound := run_sound Accounted Honest (fun _ _ hc => hc) h₀ ?_
    (fun p n l => Honest.stable l) ?_ ?_ hrun
  -- What the invariant and the answers at rest come to.
  · obtain ⟨hI, hidle⟩ := hsound
    refine ⟨fun a b r s hr hs hdn => ?_, fun p user hp => ?_, fun p r hp hne => ?_, hI.vouched⟩
    · exact hI.unique.differ a b r s (.inl hr) (.inl hs) hdn
    · obtain ⟨uInfo, hfound, hknows⟩ := hidle p _ hp _ rfl
      exact ⟨uInfo, hfound, hI.unique.idOf hknows⟩
    · have htold := hidle p _ hp r rfl
      cases r with
      | ok answer =>
        cases answer with
        | none => exact htold
        | some user => exact absurd rfl (hne user)
      | err e => exact htold
      | panic msg => exact htold.elim
  · intro p l hl r hr
    cases p with
    | timer => cases hl; cases hr
    | task i => cases hl; cases hr
  · intro h p n κ _ hI
    refine ⟨hI.unique, hI.vouched.push fun id row hrow => ?_⟩
    cases hrow
  -- Every call but a login leaves `users` its `dn`s.
  · intro p n κ l _
    by_cases hκ : ∃ username password, κ = .authenticate username password
    · obtain ⟨username, password, rfl⟩ := hκ
      refine ⟨LoggingIn p (n + 1) username password, LoggingIn.stable, ?_, ?_⟩
      · intro h hpast _ _ hclean
        refine ⟨by rw [Hist.push_trace]; exact List.mem_cons_self, hclean, ?_⟩
        intro ev hev hpid hcalls id
        rw [Hist.push_trace] at hev
        rcases List.mem_cons.mp hev with rfl | hev
        · rfl
        · have hle := hpast ev hev hpid
          omega
      · rcases Call.body_cases (.authenticate username password) l with hb | hb
        · rw [hb]
          exact fun _ _ _ => nofun
        · rw [hb]
          refine .bind sketch_authenticate fun r h _ hQ r' hr' => ?_
          cases hr'
          exact hQ
    · exact ⟨Vouching p (n + 1), Vouching.stable, fun h _ _ _ hclean =>
        Clean.vouching (h := h.push (.called p (n + 1) κ)) hclean,
        sketch_no_login (fun username password hx => hκ ⟨username, password, hx⟩) l⟩

/-- Two first logins of one person at the same time: both find no row, the second insert waits for
    the first one's commit and then fails. -/
theorem oneAccount_of_run_small : ∃ c,
    machine.Run (Machine.Calling proper) ((small none).systemWith .new) c ∧ OneAccount c := by
  let carol : AdUserInfo := ⟨"CN=carol", "carol@example.org", []⟩
  obtain ⟨c, hrun, -⟩ := machine.exists_run_of_exec (Machine.Calling proper)
    ((small none).systemWith .new)
    [.call (.task 0) (.authenticate "carol" "secret"),
      .call (.task 1) (.authenticate "carol@example.org" "secret"),
      .act (.task 0) { userInfo := some carol }, .act (.task 0) {},
      .act (.task 1) { userInfo := some carol }, .act (.task 1) {},
      .act (.task 0) {}, .act (.task 0) {}, .act (.task 0) {},
      .act (.task 1) {}, .act (.task 1) {}, .act (.task 1) {},
      .act (.task 0) {}, .act (.task 0) { uuid := "link-carol" }, .act (.task 1) {},
      .act (.task 0) {}, .act (.task 0) {}, .act (.task 1) { uuid := "link-2" }, .act (.task 0) {},
      .act (.task 1) {}]
    (fun c => c.hist.state.user ⟨3⟩ == some ⟨"CN=carol", none, "carol@example.org", "link-carol"⟩ &&
      (c.threads (.task 0)).prog.value?.isSome && (c.threads (.task 1)).prog.value?.isSome)
    (by decide +kernel)
  exact ⟨c, hrun, oneAccount_of_run _ _ (by decide) hrun⟩

end Tachikoma
