import Tachikoma.Proof.Gap

/-!
# One expiration notice

`Notifier::notify` for `ExpirationSoon`, once and for all: what it may ask for, in which order, and
what can be said when it has ended. Who uses the rule says what holds before the notice, while it is
under way and after it was sent; whether the unwrap of a deadline can fail is asked where the rows
are read.
-/

set_option autoImplicit false

namespace Tachikoma

open Interleaving Unordered

/-- What a notice asks for in its transaction before the message is sent. -/
inductive Preparing : Effect → Prop where
  | getUserById (tx : RegistryTx) (u : UserId) : Preparing (.fetch tx (.getUserById u))
  | getHosts (tx : RegistryTx) (ids : List HostId) : Preparing (.fetch tx (.getHosts ids))
  | now : Preparing .now

theorem Preparing.not_execute {e : Effect} (h : Preparing e) (tx : RegistryTx) (x : Write) :
    e ≠ .execute tx x := by
  cases h <;> simp

theorem id_of_getUserById {order : List Nat} {v : View} {u : UserId} {user : User}
    (h : Select.run order v (.getUserById u) = .ok (some user)) : user.id = u := by
  have hmem := mem_of_head?_arrange (Except.ok.inj h)
  exact of_decide_eq_true (List.mem_filter.mp hmem).2

theorem mem_usersHosts {hosts : List LeasedHost} {u : UserId} {id : HostId} :
    (∃ ids, (u, ids) ∈ ReleaseTimer.usersHosts hosts ∧ id ∈ ids) ↔
      ∃ l ∈ hosts, l.user.id = u ∧ l.id = id := by
  unfold ReleaseTimer.usersHosts
  rw [collect_mem (fun id (ids : List HostId) => id ∈ ids) (by simp) (by simp)]
  simp only [List.mem_map, Prod.mk.injEq]

section Notice

variable {Cond : History → Ev → Prop} {Inv : History → Prop} {p : Pid} {n : Nat}
  {E F : History → Prop}

/-- The lines of the message. -/
theorem sketch_expiringLines {A : History → Prop} (hA : machine.Stable Cond Inv p A)
    (hkeep : ∀ h t, Inv h → A h → Cond h (.did p n .now t h.state h.state) →
      Inv (h.push (.did p n .now t h.state h.state)) ∧ A (h.push (.did p n .now t h.state h.state)))
    {hosts : List Host} (idx : Nat)
    (hrows : (∀ host ∈ hosts, host.leasedUntil ≠ none) ∨ ∀ h, Inv h → A h → F h) :
    machine.Sketch Cond Inv p n (exits (fun _ => A) E F) (Notifier.expiringLines idx hosts) A := by
  induction hosts generalizing idx with
  | nil => exact Task.sketch_pure fun _ _ h => h
  | cons host hosts ih =>
    have hrest := ih (idx + 1) (hrows.imp_left fun h host hh => h host (List.mem_cons_of_mem _ hh))
    rw [Notifier.expiringLines]
    split
    · rename_i hnone
      refine Task.sketch_panic fun h hI hAh => ?_
      rcases hrows with hrows | hF
      · exact absurd hnone (hrows host List.mem_cons_self)
      · exact hF h hI hAh
    · exact Task.sketch_bind (Task.sketch_utcNow (fun _ => hA) hkeep) fun _ =>
        Task.sketch_bind hrest fun _ => Task.sketch_pure fun _ _ h => h

/-- The notice: `A₀` before it and `B` from the call on; in its transaction `A none`, `A (some
    user)` once the user is read and `T` once the message is sent; `S` when it is over. Where it
    fails `B` holds; it panics only if a host that it has read has no deadline. -/
theorem sketch_expirationSoon (self : Notifier) {u : UserId} {ids : List HostId} (hids : ids ≠ [])
    {A₀ B T S : History → Prop} {A : Option User → History → Prop}
    (hA : ∀ o, machine.Stable Cond Inv p (A o)) (hB : machine.Stable Cond Inv p B)
    (hT : machine.Stable Cond Inv p T) (hS : machine.Stable Cond Inv p S)
    (hF : machine.Stable Cond Inv p F)
    (hnotify : ∀ h, Inv h → A₀ h →
      Cond h (.did p n (.notify u (.expirationSoon ids)) () h.state h.state) →
      Inv (h.push (.did p n (.notify u (.expirationSoon ids)) () h.state h.state)) ∧
        B (h.push (.did p n (.notify u (.expirationSoon ids)) () h.state h.state)))
    (hbegin : ∀ h (r : Except SqlxError RegistryTx) w', Inv h → B h → Acts p h.state .begin r w' →
      Cond h (.did p n .begin r h.state w') → Inv (h.push (.did p n .begin r h.state w')) ∧
        ((∃ tx, r = .ok tx) → A none (h.push (.did p n .begin r h.state w'))) ∧
        ((∃ err, r = .error err) → B (h.push (.did p n .begin r h.state w'))))
    (hkeep : ∀ h o e r, Preparing e → Inv h → A o h → Acts p h.state e r h.state →
      Cond h (.did p n e r h.state h.state) →
      Inv (h.push (.did p n e r h.state h.state)) ∧ A o (h.push (.did p n e r h.state h.state)))
    (hread : ∀ h tx order (user : User), Inv h → A none h →
      Select.run order (h.state.db.view ⟨p, tx.no⟩) (.getUserById u) = .ok (some user) →
      A none (h.push (.did p n (.fetch tx (.getUserById u)) (.ok (some user)) h.state h.state)) →
      A (some user) (h.push
        (.did p n (.fetch tx (.getUserById u)) (.ok (some user)) h.state h.state)))
    (hrows : ∀ h user tx order (hs : List Host), Inv h → A (some user) h →
      Select.run order (h.state.db.view ⟨p, tx.no⟩) (.getHosts ids) = .ok hs →
      Cond h (.did p n (.fetch tx (.getHosts ids)) (.ok hs) h.state h.state) →
      (∀ host ∈ hs, host.leasedUntil ≠ none) ∨ ∀ h, Inv h → A (some user) h → F h)
    (hsend : ∀ h (sender : MsgSender) (msg : Message) (r : Except Unit Unit), sender.user.id = u →
      msg.notification = .expirationSoon ids → Inv h → A (some sender.user) h →
      Cond h (.did p n (.send sender msg) r h.state h.state) →
      Inv (h.push (.did p n (.send sender msg) r h.state h.state)) ∧
        (r = .ok () → T (h.push (.did p n (.send sender msg) r h.state h.state))) ∧
        (r = .error () →
          A (some sender.user) (h.push (.did p n (.send sender msg) r h.state h.state))))
    (hdrop : ∀ h tx w', Inv h → Acts p h.state (.drop tx) () w' →
      Cond h (.did p n (.drop tx) () h.state w') → ((∃ o, A o h) ∨ T h ∨ F h) →
      Inv (h.push (.did p n (.drop tx) () h.state w')) ∧
        (∀ o, A o h → B (h.push (.did p n (.drop tx) () h.state w'))) ∧
        (T h → S (h.push (.did p n (.drop tx) () h.state w'))) ∧
        (F h → F (h.push (.did p n (.drop tx) () h.state w')))) :
    machine.Sketch Cond Inv p n (exits (fun _ => S) B F)
      (self.notify u (.expirationSoon ids)) A₀ := by
  have hE : machine.Stable Cond Inv p fun h => ∃ o, A o h :=
    fun h ev hI ⟨o, hAh⟩ hne hl hc => ⟨o, hA o h ev hI hAh hne hl hc⟩
  refine ⟨fun _ => B, fun _ => hB, ?_, fun _ => ?_⟩
  · intro h env r w' hI hA₀ ha hc
    obtain ⟨rfl, rfl⟩ := Prod.mk.inj (Option.some.inj ha)
    exact hnotify h hI hA₀ hc
  refine Task.sketch_withTx (fun _ => A none) (fun _ => exits (fun _ => T) (fun h => ∃ o, A o h) F)
    (fun _ => hA none) (fun r => stable_exits (fun _ => hS) hB hF r) ?_ ?_ ?_ ?_
  · intro h tx w' hI hBh ha hc
    have hbegun := hbegin h _ w' hI hBh ha hc
    exact ⟨hbegun.1, hbegun.2.1 ⟨tx, rfl⟩⟩
  · intro h err w' hI hBh ha hc
    have hbegun := hbegin h _ w' hI hBh ha hc
    exact ⟨hbegun.1, hbegun.2.2 ⟨err, rfl⟩⟩
  · intro tx
    refine Task.sketch_bind (B := fun user h => A user h ∧ ∀ x : User, user = some x → x.id = u)
      (Task.sketch_mapErr ?_) fun user => Machine.Sketch.of_fact fun huser => ?_
    · refine Task.sketch_fetch (fun o => (hA o).and .const) hE ?_ ?_
      · intro h order user hI hAh hrun hc
        have hkept := hkeep h none _ _ (.getUserById tx u) hI hAh (acts_fetch _) hc
        refine ⟨hkept.1, ?_, fun x hx => id_of_getUserById (hx ▸ hrun)⟩
        cases user with
        | none => exact hkept.2
        | some user => exact hread h tx order user hI hAh hrun hkept.2
      · intro h err hI hAh hc
        have hkept := hkeep h none _ _ (.getUserById tx u) hI hAh (acts_fetch _) hc
        exact ⟨hkept.1, none, hkept.2⟩
    split
    · exact Task.sketch_throw fun _ _ h => ⟨none, h⟩
    rename_i user
    split
    · exact Task.sketch_throw fun _ _ h => ⟨_, h⟩
    rename_i chatId _
    dsimp only
    split
    · rename_i hempty
      exact absurd hempty hids
    refine Task.sketch_bind (B := fun hosts h => A (some user) h ∧
        ((∀ host ∈ (hosts : List Host), host.leasedUntil ≠ none) ∨
          ∀ h, Inv h → A (some user) h → F h))
      (Task.sketch_mapErr ?_) fun hosts => Machine.Sketch.of_fact fun hdeadlines => ?_
    · refine Task.sketch_fetch (fun _ => (hA _).and .const) hE ?_ ?_
      · intro h order hosts hI hAh hrun hc
        have hkept := hkeep h _ _ _ (.getHosts tx ids) hI hAh (acts_fetch _) hc
        exact ⟨hkept.1, hkept.2, hrows h user tx order hosts hI hAh hrun hc⟩
      · intro h err hI hAh hc
        have hkept := hkeep h _ _ _ (.getHosts tx ids) hI hAh (acts_fetch _) hc
        exact ⟨hkept.1, _, hkept.2⟩
    refine Task.sketch_bind (sketch_expiringLines (hA (some user)) ?_ 1 hdeadlines) fun lines => ?_
    · intro h t hI hAh hc
      exact hkeep h _ _ _ .now hI hAh (acts_now _) hc
    refine ⟨fun r => match r with | .ok _ => T | .error _ => A (some user), fun r => ?_, ?_,
      fun r => ?_⟩
    · cases r with
      | ok _ => exact hT
      | error _ => exact hA _
    · intro h env r w' hI hAh ha hc
      obtain ⟨-, rfl⟩ := Prod.mk.inj (Option.some.inj ha)
      have hsent := hsend h ⟨user, chatId⟩ _ r (huser user rfl) rfl hI hAh hc
      cases r with
      | ok _ => exact ⟨hsent.1, hsent.2.1 rfl⟩
      | error _ => exact ⟨hsent.1, hsent.2.2 rfl⟩
    · cases r with
      | ok _ => exact fun _ _ h => h
      | error _ => exact fun _ _ h => ⟨_, h⟩
  · intro tx r h w' hI hQ ha hc
    cases r with
    | ok a =>
      have hdropped := hdrop h tx w' hI ha hc (.inr (.inl hQ))
      exact ⟨hdropped.1, hdropped.2.2.1 hQ⟩
    | err e =>
      have hdropped := hdrop h tx w' hI ha hc (.inl hQ)
      obtain ⟨o, hAh⟩ := hQ
      exact ⟨hdropped.1, hdropped.2.1 o hAh⟩
    | panic msg =>
      have hdropped := hdrop h tx w' hI ha hc (.inr (.inr hQ))
      exact ⟨hdropped.1, hdropped.2.2.2 hQ⟩

/-- The loop over the users of a pass: `I` says what holds when `sent` is remembered and the users
    of a list are still to come. -/
theorem sketch_notifySoon (notifier : Notifier)
    {I : (UserId → List HostId) → List (UserId × List HostId) → History → Prop}
    (hI : ∀ sent rest, machine.Stable Cond Inv p (I sent rest))
    (horder : ∀ h o sent rest, Inv h → I sent rest h →
      Cond h (.did p n .hashOrder o h.state h.state) →
      Inv (h.push (.did p n .hashOrder o h.state h.state)) ∧
        I sent rest (h.push (.did p n .hashOrder o h.state h.state)))
    (hskip : ∀ h u ids rest sent, Inv h → I sent ((u, ids) :: rest) h →
      (∀ id ∈ ids, id ∈ sent u) → I sent rest h)
    (hnotice : ∀ u ids rest sent ids', ids' ≠ [] → (∀ id, id ∈ ids' ↔ id ∈ ids ∧ id ∉ sent u) →
      machine.Sketch Cond Inv p n
        (exits (fun _ => I (Function.update sent u (sent u ++ ids')) rest) (I sent rest) F)
        (notifier.notify u (.expirationSoon ids')) (I sent ((u, ids) :: rest)))
    (sent : UserId → Option (List HostId)) (expiring : List (UserId × List HostId)) :
    machine.Sketch Cond Inv p n
      (exits (fun sent => I (ReleaseTimer.sentHostIds sent) []) E F)
      (ReleaseTimer.notifySoon notifier sent expiring)
      (I (ReleaseTimer.sentHostIds sent) expiring) := by
  induction expiring generalizing sent with
  | nil => exact Task.sketch_pure fun _ _ h => h
  | cons x rest ih =>
    obtain ⟨u, ids⟩ := x
    -- Touching the entry of `u` does not change what is remembered.
    have hseen : ReleaseTimer.sentHostIds
        (Function.update sent u (some (ReleaseTimer.sentHostIds sent u))) =
          ReleaseTimer.sentHostIds sent := by
      funext v
      by_cases hv : v = u
      · subst hv; simp [ReleaseTimer.sentHostIds]
      · simp [ReleaseTimer.sentHostIds, hv]
    rw [ReleaseTimer.notifySoon]
    refine Task.sketch_bind (B := fun _ => I (ReleaseTimer.sentHostIds sent) ((u, ids) :: rest))
      (Task.sketch_hashOrder (fun _ => hI _ _) fun h o hInv hIh hc => horder h o _ _ hInv hIh hc)
      fun order => ?_
    dsimp only
    rw [hseen]
    split
    · rename_i hempty
      refine (ih _).pre fun h hInv hIh => ?_
      rw [hseen]
      refine hskip h u ids rest _ hInv hIh fun id hid => ?_
      by_contra hno
      have hmem : id ∈ arrange order
          (ids.filter (· ∉ ReleaseTimer.sentHostIds sent u)) := by
        simpa using ⟨hid, hno⟩
      rw [hempty] at hmem
      cases hmem
    · rename_i hids
      refine Task.sketch_bind (Task.sketch_attempt
        (hnotice u ids rest _ _ hids fun id => by simp)) fun r => ?_
      cases r with
      | error e =>
        have hrest := ih (Function.update sent u (some (ReleaseTimer.sentHostIds sent u)))
        rw [hseen] at hrest
        exact hrest
      | ok a =>
        refine (ih _).pre fun h _ hIh => ?_
        have hsent : ∀ ids', ReleaseTimer.sentHostIds (Function.update
            (Function.update sent u (some (ReleaseTimer.sentHostIds sent u))) u
              (some (ReleaseTimer.sentHostIds sent u ++ ids'))) =
            Function.update (ReleaseTimer.sentHostIds sent) u
              (ReleaseTimer.sentHostIds sent u ++ ids') := by
          intro ids'
          funext v
          by_cases hv : v = u
          · subst hv; simp [ReleaseTimer.sentHostIds]
          · simp [ReleaseTimer.sentHostIds, hv]
        rw [hsent]
        exact hIh

end Notice

/-! ## Effects that are no notices -/

/-- The effect is no notice of a lease that ends soon. -/
def NoNotice (e : Effect) : Prop :=
  ∀ sender msg ids, e = .send sender msg → msg.notification ≠ .expirationSoon ids

theorem noNotice_of_ne {e : Effect} (h : ∀ sender msg, e ≠ .send sender msg) : NoNotice e :=
  fun sender msg _ he => absurd he (h sender msg)

theorem ReleaseTimer.emits_release_noNotice (self : ReleaseTimer) :
    Prog.Emits NoNotice self.release := by
  refine Task.emits_withTx (noNotice_of_ne (by simp)) (fun _ => noNotice_of_ne (by simp))
    fun tx => ?_
  refine Task.emits_bind (Task.emits_utcNow (noNotice_of_ne (by simp))) fun now => ?_
  refine Task.emits_bind (Task.emits_mapErr (Task.emits_fetch (noNotice_of_ne (by simp))))
    fun expired => ?_
  split
  · exact Task.emits_pure _
  · refine Task.emits_bind (Task.emits_mapErr (Task.emits_execute (noNotice_of_ne (by simp))))
      fun _ => ?_
    refine Task.emits_bind (Task.emits_mapErr (Task.emits_commit (noNotice_of_ne (by simp))))
      fun _ => ?_
    exact Task.emits_bind (Task.emits_hashOrder (noNotice_of_ne (by simp))) fun _ =>
      Task.emits_pure _

theorem Notifier.emits_hostsReleased_noNotice (self : Notifier) (u : UserId) (ids : List HostId) :
    Prog.Emits NoNotice (self.notify u (.hostsReleased ids)) := by
  refine ⟨noNotice_of_ne (by simp), fun _ => ?_⟩
  refine Task.emits_withTx (noNotice_of_ne (by simp)) (fun _ => noNotice_of_ne (by simp))
    fun tx => ?_
  refine Task.emits_bind (Task.emits_mapErr (Task.emits_fetch (noNotice_of_ne (by simp))))
    fun user => ?_
  split
  · exact Task.emits_throw _
  · split
    · exact Task.emits_throw _
    · dsimp only
      split
      · exact Task.emits_pure _
      · refine Task.emits_bind (Task.emits_mapErr (Task.emits_fetch (noNotice_of_ne (by simp))))
          fun hosts => ?_
        refine ⟨fun sender msg ids he => ?_, fun r => by cases r <;> trivial⟩
        cases he
        exact nofun

theorem ReleaseTimer.emits_notifyReleasedHosts_noNotice (notifier : Notifier)
    (released : List LeasedHost) :
    Prog.Emits NoNotice (notifyReleasedHosts notifier released) := by
  refine Task.emits_bind (Task.emits_hashOrder (noNotice_of_ne (by simp))) fun order => ?_
  generalize arrange order _ = users
  induction users with
  | nil => exact Task.emits_pure _
  | cons x rest ih =>
    exact Task.emits_bind (Task.emits_attempt (notifier.emits_hostsReleased_noNotice _ _))
      fun _ => ih

end Tachikoma
