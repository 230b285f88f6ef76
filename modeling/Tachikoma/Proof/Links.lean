import Tachikoma.Proof.Credentials

/-!
# Whose button it is

A press of a button comes from a Telegram account and extends the leases of a user. It is the link
in the user's row that makes the account his, and a link is made by a message from the account that
has his **link code**, which a user is given once and keeps. `linkOrigin_of_run` follows a link back
to its message, and `extended_of_run` an extension back to the link: whoever extends leases by
pressing a button has at some time sent the link code of their holder, or was linked to him from the
beginning.
-/

set_option autoImplicit false

namespace Tachikoma

open Interleaving Versioned

/-- The write links the user to an account. -/
def Write.Links (u : UserId) (x : Write) : Prop := ∃ tgHandle, x = .setUserTgHandle u tgHandle

/-! ## The rows of the users -/

section Rows

variable {m m' : Rows} {x : Performed} {u : UserId} {r : UserRow}

/-- Accounts are permanent, in the rows too. -/
theorem Performed.Applies.sameAccount (hx : x.Applies m m') (hr : m.user u = some r) :
    ∃ r', m'.user u = some r' ∧ r.SameAccount r' := by
  obtain ⟨-, -, δ, hδ, hbase, huser⟩ := hx
  rw [huser]
  cases hchanged : δ u with
  | none => exact ⟨r, (Changes.onto_of_none hchanged _).trans hr, .refl r⟩
  | some r' =>
    refine ⟨r', Changes.onto_of_some hchanged _, ?_⟩
    have hseen : x.seen.user u = some r := (hbase u r' hchanged).symm.trans hr
    generalize x.write = y at hδ
    cases hδ with
    | hosts y => cases hchanged
    | setUserTgHandle v tgHandle =>
      obtain ⟨s, hs, -, rfl⟩ := Changes.update_eq_some.mp hchanged
      cases Option.some.inj (hseen.symm.trans hs)
      exact ⟨rfl, rfl, rfl⟩
    | addUser dn tgHandle email link id hid =>
      obtain ⟨rfl, -⟩ := Changes.single_eq_some.mp hchanged
      rw [hid] at hseen
      cases hseen

/-- **One write**: a user who is linked after it was linked by it, or is linked as before. What the
    write rests on says that somebody is there to be linked, and that nobody is added with a
    link. -/
theorem Performed.Applies.link {tr : ServerTrace} {tgHandle : String} (hx : x.Applies m m')
    (hrests : Rests x.pid x.calls x.seen tr x.write) (hr : m'.user u = some r)
    (hlinked : r.tgHandle = some tgHandle) :
    x.write = .setUserTgHandle u tgHandle ∧ (∃ s, x.seen.user u = some s ∧ s.SameAccount r) ∨
      ¬ x.write.Links u ∧ ∃ s, m.user u = some s ∧ s.tgHandle = some tgHandle ∧
        s.SameAccount r := by
  obtain ⟨-, -, δ, hδ, hbase, huser⟩ := hx
  rw [huser] at hr
  generalize x.write = y at hδ hrests
  -- By what the write has changed: no user, the link of one, or one user more.
  cases hδ with
  | hosts y =>
    rw [Changes.none_onto] at hr
    refine .inr ⟨fun h => ?_, r, hr, hlinked, .refl r⟩
    obtain ⟨_, h⟩ := h
    cases h
  | setUserTgHandle v tgHandle' =>
    by_cases hv : v = u
    · subst hv
      obtain ⟨account, text, -, -, s, hs, -⟩ := hrests
      have hchanged : Changes.update x.seen.user (fun id _ => decide (id = v))
          (fun r => { r with tgHandle := some tgHandle' }) v =
            some { s with tgHandle := some tgHandle' } :=
        Changes.update_eq_some.mpr ⟨s, hs, decide_eq_true rfl, rfl⟩
      cases Option.some.inj ((Changes.onto_of_some hchanged _).symm.trans hr)
      cases Option.some.inj hlinked
      exact .inl ⟨rfl, s, hs, rfl, rfl, rfl⟩
    · have hchanged : Changes.update x.seen.user (fun id _ => decide (id = v))
          (fun r => { r with tgHandle := some tgHandle' }) u = none :=
        Changes.update_eq_none.mpr fun _ _ => decide_eq_false (Ne.symm hv)
      rw [Changes.onto_of_none hchanged] at hr
      refine .inr ⟨fun h => ?_, r, hr, hlinked, .refl r⟩
      obtain ⟨_, h⟩ := h
      cases h
      exact hv rfl
  | addUser dn tgHandle' email link id hid =>
    obtain ⟨login, password, info, -, -, -, -, -, rfl, -⟩ := hrests
    by_cases hu : u = id
    · subst hu
      rw [Changes.onto_of_some (Changes.single_self _ _)] at hr
      cases Option.some.inj hr
      cases hlinked
    · rw [Changes.onto_of_none (Changes.single_of_ne hu _)] at hr
      refine .inr ⟨fun h => ?_, r, hr, hlinked, .refl r⟩
      obtain ⟨_, h⟩ := h
      cases h

/-- The message that has made a link: it came from the account, and it had the link code of the
    user. -/
def Performed.LinkedBy (x : Performed) (tr : ServerTrace) (u : UserId) (r : UserRow)
    (account : UInt64) : Prop :=
  x.write = .setUserTgHandle u (tgUserId account) ∧
    ∃ text, Event.called x.pid x.calls (.message (some account) text) ∈ tr ∧ linkCode text = r.link

/-- **Where a link comes from**: from a message, and since then there was no other, or from the
    beginning. -/
theorem Replays.link {m₀ : Rows} {xs : List Performed} {tr : ServerTrace} {tgHandle : String}
    (h : Replays m₀ xs m) (hrests : ∀ x ∈ xs, Rests x.pid x.calls x.seen tr x.write)
    (hr : m.user u = some r) (hlinked : r.tgHandle = some tgHandle) :
    (∃ newer x older account, xs = newer ++ x :: older ∧ tgHandle = tgUserId account ∧
      x.LinkedBy tr u r account ∧ ∀ y ∈ newer, ¬ y.write.Links u) ∨
    (∃ r₀, m₀.user u = some r₀ ∧ r₀.tgHandle = some tgHandle) ∧ ∀ y ∈ xs, ¬ y.write.Links u := by
  induction h generalizing r with
  | nil => exact .inr ⟨⟨r, hr, hlinked⟩, fun _ hy => absurd hy List.not_mem_nil⟩
  | @cons xs m m' x hreplays happlies ih =>
    have hx := hrests x List.mem_cons_self
    -- The newest write has made the link, or the link is older; then no newer write has made one.
    rcases happlies.link hx hr hlinked with ⟨hwrite, s, hs, hsame⟩ | ⟨hnot, s, hs, hlinked', hsame⟩
    · rw [hwrite] at hx
      obtain ⟨account, text, hcalled, rfl, s', hs', hlink⟩ := hx
      cases Option.some.inj (hs.symm.trans hs')
      refine .inl ⟨[], x, xs, account, rfl, rfl, ⟨hwrite, text, hcalled, ?_⟩,
        fun _ hy => absurd hy List.not_mem_nil⟩
      exact hlink.symm.trans hsame.link.symm
    · have hall : ∀ older : List Performed, (∀ y ∈ older, ¬ y.write.Links u) →
          ∀ y ∈ x :: older, ¬ y.write.Links u := by
        intro older holder y hy
        rcases List.mem_cons.mp hy with rfl | hy
        · exact hnot
        · exact holder y hy
      rcases ih (fun y hy => hrests y (List.mem_cons_of_mem _ hy)) hs hlinked' with
        ⟨newer, y, older, account, rfl, haccount, ⟨hwrite, text, hcalled, hlink⟩, hnewer⟩ |
        ⟨hfirst, hnone⟩
      · exact .inl ⟨x :: newer, y, older, account, rfl, haccount,
          ⟨hwrite, text, hcalled, hlink.trans hsame.link.symm⟩, hall newer hnewer⟩
      · exact .inr ⟨hfirst, hall xs hnone⟩

end Rows

/-! ## Runs -/

section Runs

variable {cfg : ServerConfig} {Cond : ServerHistory → ServerEvent → Prop} {t : Tables}
  {timer : ReleaseTimer} {c : Server}

theorem Rested.link {h : ServerHistory} (hrested : Rested cfg ⟨t.world, []⟩ h) {u : UserId}
    {r : UserRow} {tgHandle : String} (hr : h.state.user u = some r)
    (hlinked : r.tgHandle = some tgHandle) :
    (∃ newer x older account, performed h.trace = newer ++ x :: older ∧
      tgHandle = tgUserId account ∧ x.LinkedBy h.trace u r account ∧
      ∀ y ∈ newer, ¬ y.write.Links u) ∨
    (∃ user ∈ t.users, user.id = u ∧ user.tgHandle = some tgHandle) ∧
      ∀ y ∈ performed h.trace, ¬ y.write.Links u := by
  obtain ⟨newer, hnewer, hreplays⟩ := hrested.committed.replays
  rw [show performed ([] : ServerTrace) = [] from rfl, List.append_nil] at hnewer
  rw [← hnewer] at hreplays
  rcases hreplays.link (fun x hx => hrested.rests hx) hr hlinked with hlink | ⟨hfirst, hnone⟩
  · exact .inl hlink
  · obtain ⟨r₀, hr₀, hlinked₀⟩ := hfirst
    obtain ⟨user, huser, hid, rfl⟩ := t.world_user.mp hr₀
    exact .inr ⟨⟨user, huser, hid, hlinked₀⟩, hnone⟩

/-- **Where a link comes from**, in every run: the account has sent the link code of the user in the
    last message that has linked him, or it was his from the beginning and there was no such
    message. -/
theorem linkOrigin_of_run (hrun : (server cfg).Run Cond (t.serverWith timer) c) {u : UserId}
    {r : UserRow} {tgHandle : String} (hr : c.hist.state.user u = some r)
    (hlinked : r.tgHandle = some tgHandle) :
    (∃ newer x older account, performed c.hist.trace = newer ++ x :: older ∧
      tgHandle = tgUserId account ∧ x.LinkedBy c.hist.trace u r account ∧
      ∀ y ∈ newer, ¬ y.write.Links u) ∨
    (∃ user ∈ t.users, user.id = u ∧ user.tgHandle = some tgHandle) ∧
      ∀ y ∈ performed c.hist.trace, ¬ y.write.Links u :=
  (rested_of_server hrun).1.link hr hlinked

/-- `bob` sends his link code from the account 8, and presses a button there. -/
def linkAndPress : List (Label Pid Env Entry) := List.flatten
  [[.call (.task 1) (.message (some 8) (some "link-bob"))], acting (.task 1) 6,
    [.call (.task 2) (.request bobUser (.extendCallback 8 (some "extend:24")))], acting (.task 2) 9]

theorem linkOrigin_of_run_small : ∃ c, (server smallConfig).Run (Machine.Calling Entry.proper)
      ((small (some (false, 5))).serverWith .new) c ∧
    ((∃ newer x older account, performed c.hist.trace = newer ++ x :: older ∧
      "8" = tgUserId account ∧
      x.LinkedBy c.hist.trace bob.id { bob.toUserRow with tgHandle := some "8" } account ∧
      ∀ y ∈ newer, ¬ y.write.Links bob.id) ∨
    (∃ user ∈ (small (some (false, 5))).users, user.id = bob.id ∧ user.tgHandle = some "8") ∧
      ∀ y ∈ performed c.hist.trace, ¬ y.write.Links bob.id) := by
  obtain ⟨c, hrun, hc⟩ := (server smallConfig).exists_run_of_exec (Machine.Calling Entry.proper)
    ((small (some (false, 5))).serverWith .new) linkAndPress
    (fun c => c.hist.state.user bob.id == some { bob.toUserRow with tgHandle := some "8" })
    (by decide +kernel)
  exact ⟨c, hrun, linkOrigin_of_run hrun (eq_of_beq hc) rfl⟩

theorem tgUserId_injective : Function.Injective tgUserId := by
  intro a b h
  have hnat : a.toNat = b.toNat := by
    have h' : toString a.toNat = toString b.toNat := h
    simpa using h'
  exact UInt64.toNat.inj hnat

/-- A statement ran at some moment of the run. -/
theorem Performed.RanAfter.exists_run {x : Performed} {older : ServerTrace}
    (h : x.RanAfter older c.hist.trace) (hrun : (server cfg).Run Cond (t.serverWith timer) c) :
    ∃ c', (server cfg).Run Cond (t.serverWith timer) c' ∧ (server cfg).Run Cond c' c ∧
      c'.hist.trace = older := by
  obtain ⟨newer, tx, w, w', between, tx', a, w₁, htrace⟩ := h
  have hsplit : c.hist.trace = (newer ++ .did x.pid x.calls (.commit tx) (.ok ()) w w' ::
      (between ++ [.did x.pid x.calls (.execute tx' x.write) (.ok a) x.seen w₁])) ++ older := by
    rw [htrace]
    simp
  exact hrun.exists_at _ hsplit List.nil_suffix

/-- What a call was told, it was told at some moment of the run. -/
theorem Asked.exists_run (hrun : (server cfg).Run Cond (t.serverWith timer) c) {p : Pid} {n : Nat}
    {e : Effect} {r : e.Res} {w : World} (h : Asked p n e r w c.hist.trace) :
    ∃ c₁, (server cfg).Run Cond (t.serverWith timer) c₁ ∧ (server cfg).Run Cond c₁ c ∧
      c₁.hist.state = w := by
  obtain ⟨w', hev⟩ := h
  obtain ⟨c₁, hrun₁, hrun₂, hlegal⟩ := hrun.exists_before _ hev List.not_mem_nil
  exact ⟨c₁, hrun₁, hrun₂, (acts_of_server hlegal).1.symm⟩

/-- **Where an extension comes from**: before the statement that extends, somebody has pressed a
    button in a Telegram account; that account was linked to a user at some moment until then, by a
    message that it had sent before with the link code of the user, or from the beginning; and the
    hosts are those that this user had at some moment until then. -/
theorem extended_of_run (hrun : (server cfg).Run Cond (t.serverWith timer) c) {x : Performed}
    (hx : x ∈ performed c.hist.trace) {ids : List HostId} {hours : Int32}
    (hwrite : x.write = .hosts (.extendHostsLease ids hours)) :
    ∃ c', (server cfg).Run Cond (t.serverWith timer) c' ∧ (server cfg).Run Cond c' c ∧
      x.RanAfter c'.hist.trace c.hist.trace ∧ ∃ user account data u,
      Event.called x.pid x.calls (.request user (.extendCallback account data)) ∈ c'.hist.trace ∧
      callbackHours data = some hours ∧ 0 < hours ∧
      (∃ c₁, (server cfg).Run Cond (t.serverWith timer) c₁ ∧ (server cfg).Run Cond c₁ c' ∧
        ∃ r, c₁.hist.state.user u = some r ∧ r.tgHandle = some (tgUserId account) ∧
        ((∃ y ∈ performed c₁.hist.trace, y.LinkedBy c₁.hist.trace u r account) ∨
          ∃ v ∈ t.users, v.id = u ∧ v.tgHandle = some (tgUserId account))) ∧
      ∃ c₂, (server cfg).Run Cond (t.serverWith timer) c₂ ∧ (server cfg).Run Cond c₂ c' ∧
        ∀ id ∈ ids, ∃ row, c₂.hist.state.host id = some row ∧ row.userId = some u := by
  obtain ⟨older, hran, hrests⟩ := (rested_of_server hrun).1.rests_before hx
  obtain ⟨c', hrun', hrunc, rfl⟩ := hran.exists_run hrun
  rw [hwrite] at hrests
  obtain ⟨user, account, data, hcalled, hhours, hpos, u, now, w₁, tx, w₂, tx', hosts, w₃, -, hasked,
    ⟨r, hr, hlinked⟩, hread, hrows⟩ := hrests
  obtain ⟨c₁, hrun₁, hrun₁', rfl⟩ := hasked.exists_run hrun'
  obtain ⟨c₂, hrun₂, hrun₂', rfl⟩ := hread.exists_run hrun'
  refine ⟨c', hrun', hrunc, hran, user, account, data, u.id, hcalled, hhours, hpos,
    ⟨c₁, hrun₁, hrun₁', r, hr, hlinked, ?_⟩, c₂, hrun₂, hrun₂', fun id hid => ?_⟩
  -- The account was linked when it was looked up, so its link has an origin before that.
  · rcases (rested_of_server hrun₁).1.link hr hlinked with
      ⟨newer, y, older, account', hxs, haccount, hlink, -⟩ | ⟨hfirst, -⟩
    · cases tgUserId_injective haccount
      refine .inl ⟨y, ?_, hlink⟩
      rw [hxs]
      exact List.mem_append_right _ List.mem_cons_self
    · exact .inr hfirst
  · obtain ⟨row, hrow, hheld, -⟩ := hrows id hid
    exact ⟨row, hrow, hheld⟩

/-- The write of `linkAndPress` that extends. -/
def extendsFirst (x : Performed) : Bool := decide (x.write = .hosts (.extendHostsLease [⟨1⟩] 24))

theorem extended_of_run_small : ∃ c, (server smallConfig).Run (Machine.Calling Entry.proper)
      ((small (some (false, 5))).serverWith .new) c ∧
    ∃ x ∈ performed c.hist.trace, ∃ c', (server smallConfig).Run (Machine.Calling Entry.proper)
        ((small (some (false, 5))).serverWith .new) c' ∧
      (server smallConfig).Run (Machine.Calling Entry.proper) c' c ∧
      x.RanAfter c'.hist.trace c.hist.trace ∧ ∃ user account data u,
      Event.called x.pid x.calls (.request user (.extendCallback account data)) ∈ c'.hist.trace ∧
      callbackHours data = some 24 ∧ (0 : Int32) < 24 ∧
      (∃ c₁, (server smallConfig).Run (Machine.Calling Entry.proper)
          ((small (some (false, 5))).serverWith .new) c₁ ∧
        (server smallConfig).Run (Machine.Calling Entry.proper) c₁ c' ∧
        ∃ r, c₁.hist.state.user u = some r ∧ r.tgHandle = some (tgUserId account) ∧
        ((∃ y ∈ performed c₁.hist.trace, y.LinkedBy c₁.hist.trace u r account) ∨
          ∃ v ∈ (small (some (false, 5))).users, v.id = u ∧ v.tgHandle = some (tgUserId account))) ∧
      ∃ c₂, (server smallConfig).Run (Machine.Calling Entry.proper)
          ((small (some (false, 5))).serverWith .new) c₂ ∧
        (server smallConfig).Run (Machine.Calling Entry.proper) c₂ c' ∧
        ∀ id ∈ [(⟨1⟩ : HostId)], ∃ row, c₂.hist.state.host id = some row ∧ row.userId = some u := by
  obtain ⟨c, hrun, hc⟩ := (server smallConfig).exists_run_of_exec (Machine.Calling Entry.proper)
    ((small (some (false, 5))).serverWith .new) linkAndPress
    (fun c => (performed c.hist.trace).any extendsFirst) (by decide +kernel)
  obtain ⟨x, hx, hwrite⟩ := List.any_eq_true.mp hc
  exact ⟨c, hrun, x, hx, extended_of_run hrun hx (of_decide_eq_true hwrite)⟩

end Runs

end Tachikoma
