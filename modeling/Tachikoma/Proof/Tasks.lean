import Tachikoma.Proof.Steps

/-!
# Rules for tasks

The rules of `Tachikoma/Lib/Threads.lean` again, for programs that end in an `Exit`: what a task
promises is three assertions, one for each way it may end (`exits`), and an error or a panic of a
part is one of the whole. A proof about a function of the source follows its text, one rule a line.

Below them is the one fact that holds of all transactions: **a task that is not in one has nothing
pending**, because a scope that is left drops its transaction (`Transaction.sketch_clean`).
-/

set_option autoImplicit false

namespace Tachikoma

open Interleaving

variable {ε ε' α β : Type} {Cond : History → Ev → Prop} {Inv : History → Prop} {p : Pid} {n : Nat}

/-- What holds after a task, by the way it ended. -/
def exits (A : α → History → Prop) (E F : History → Prop) : Exit ε α → History → Prop
  | .ok a => A a
  | .err _ => E
  | .panic _ => F

/-- Only how it ends well matters. -/
def onOk (A : α → History → Prop) : Exit ε α → History → Prop :=
  exits A (fun _ => True) fun _ => True

namespace Task

/-! ## What a task asks for -/

section Emits

variable {Φ : Effect → Prop}

theorem emits_pure (a : α) : Prog.Emits Φ (pure a : Task ε α) := trivial

theorem emits_throw (e : ε) : Prog.Emits Φ (Task.throw e : Task ε α) := trivial

theorem emits_panic (msg : String) : Prog.Emits Φ (Task.panic msg : Task ε α) := trivial

theorem emits_bind {x : Task ε α} {f : α → Task ε β} (hx : Prog.Emits Φ x)
    (hf : ∀ a, Prog.Emits Φ (f a)) : Prog.Emits Φ (x >>= f : Task ε β) := by
  refine Prog.Emits.bind hx fun r => ?_
  cases r with
  | ok a => exact hf a
  | err e => trivial
  | panic msg => trivial

theorem emits_mapErr {f : ε → ε'} {x : Task ε α} (hx : Prog.Emits Φ x) :
    Prog.Emits Φ (x.mapErr f) :=
  Prog.Emits.bind hx fun r => by cases r <;> trivial

theorem emits_attempt {x : Task ε α} (hx : Prog.Emits Φ x) :
    Prog.Emits Φ (x.attempt : Task ε' (Except ε α)) :=
  Prog.Emits.bind hx fun r => by cases r <;> trivial

theorem emits_utcNow (h : Φ .now) : Prog.Emits Φ (utcNow : Task ε Time) := ⟨h, fun _ => trivial⟩

theorem emits_addTimeDelta (t : Time) (d : TimeDelta) :
    Prog.Emits Φ (addTimeDelta t d : Task ε Time) := by
  unfold addTimeDelta
  split
  · exact emits_pure _
  · exact emits_panic _

theorem emits_hashOrder (h : Φ .hashOrder) : Prog.Emits Φ (hashOrder : Task ε (List Nat)) :=
  ⟨h, fun _ => trivial⟩

theorem emits_fetch {tx : RegistryTx} {q : Select} (h : Φ (.fetch tx q)) :
    Prog.Emits Φ (tx.fetch q) := ⟨h, fun _ => trivial⟩

theorem emits_execute {tx : RegistryTx} {x : Write} (h : Φ (.execute tx x)) :
    Prog.Emits Φ (tx.execute x) := ⟨h, fun _ => trivial⟩

theorem emits_commit {tx : RegistryTx} (h : Φ (.commit tx)) : Prog.Emits Φ tx.commit :=
  ⟨h, fun _ => trivial⟩

theorem emits_withTx {f : SqlxError → ε} {scope : RegistryTx → Task ε α} (hbegin : Φ .begin)
    (hdrop : ∀ tx, Φ (.drop tx)) (hscope : ∀ tx, Prog.Emits Φ (scope tx)) :
    Prog.Emits Φ (withTx f scope) := by
  refine ⟨hbegin, fun r => ?_⟩
  cases r with
  | error e => trivial
  | ok tx => exact Prog.Emits.bind (hscope tx) fun _ => ⟨hdrop tx, fun _ => trivial⟩

end Emits

/-! ## Tasks that do not panic -/

/-- The task ends with a value or an error, whatever it is answered. -/
def Calm (x : Task ε α) : Prop := Prog.Returns (fun r : Exit ε α => ∀ msg, r ≠ .panic msg) x

theorem calm_pure (a : α) : Calm (pure a : Task ε α) := nofun

theorem calm_throw (e : ε) : Calm (Task.throw e : Task ε α) := nofun

theorem calm_bind {x : Task ε α} {f : α → Task ε β} (hx : Calm x) (hf : ∀ a, Calm (f a)) :
    Calm (x >>= f) := by
  refine Prog.Returns.bind hx fun r hr => ?_
  cases r with
  | ok a => exact hf a
  | err e => exact nofun
  | panic msg => exact absurd rfl (hr msg)

theorem calm_mapErr {f : ε → ε'} {x : Task ε α} (hx : Calm x) : Calm (x.mapErr f) := by
  refine Prog.Returns.bind hx fun r hr => ?_
  cases r with
  | ok a => exact nofun
  | err e => exact nofun
  | panic msg => exact absurd rfl (hr msg)

theorem calm_attempt {x : Task ε α} (hx : Calm x) : Calm (x.attempt : Task ε' (Except ε α)) := by
  refine Prog.Returns.bind hx fun r hr => ?_
  cases r with
  | ok a => exact nofun
  | err e => exact nofun
  | panic msg => exact absurd rfl (hr msg)

theorem calm_answer {e : Effect} {γ : Type} (g : e.Res → Except ε γ) :
    Calm (.op e fun r => .ret (Exit.ofExcept (g r)) : Task ε γ) := by
  intro r
  show ∀ msg, Exit.ofExcept (g r) ≠ .panic msg
  cases g r <;> exact nofun

theorem calm_fetch (tx : RegistryTx) (q : Select) : Calm (tx.fetch q) :=
  calm_answer (e := .fetch tx q) fun r => r

theorem calm_execute (tx : RegistryTx) (x : Write) : Calm (tx.execute x) :=
  calm_answer (e := .execute tx x) fun r => r

theorem calm_commit (tx : RegistryTx) : Calm tx.commit := calm_answer (e := .commit tx) fun r => r

theorem calm_utcNow : Calm (utcNow : Task ε Time) := fun _ => nofun

theorem calm_hashOrder : Calm (hashOrder : Task ε (List Nat)) := fun _ => nofun

theorem calm_withTx {f : SqlxError → ε} {scope : RegistryTx → Task ε α}
    (hscope : ∀ tx, Calm (scope tx)) : Calm (withTx f scope) := by
  intro r
  cases r with
  | error e => exact nofun
  | ok tx => exact Prog.Returns.bind (hscope tx) fun r hr _ => hr

/-! ## What a task promises -/

section Sketch

variable {E F : History → Prop} {A : History → Prop}

theorem sketch_pure {Q : α → History → Prop} {a : α} (h : ∀ h, Inv h → A h → Q a h) :
    machine.Sketch Cond Inv p n (exits Q E F) (pure a : Task ε α) A := h

theorem sketch_throw {Q : α → History → Prop} {e : ε} (h : ∀ h, Inv h → A h → E h) :
    machine.Sketch Cond Inv p n (exits Q E F) (Task.throw e : Task ε α) A := h

theorem sketch_panic {Q : α → History → Prop} {msg : String} (h : ∀ h, Inv h → A h → F h) :
    machine.Sketch Cond Inv p n (exits Q E F) (Task.panic msg : Task ε α) A := h

theorem sketch_bind {Q : β → History → Prop} {B : α → History → Prop} {x : Task ε α}
    {f : α → Task ε β} (hx : machine.Sketch Cond Inv p n (exits B E F) x A)
    (hf : ∀ a, machine.Sketch Cond Inv p n (exits Q E F) (f a) (B a)) :
    machine.Sketch Cond Inv p n (exits Q E F) (x >>= f : Task ε β) A := by
  refine Machine.Sketch.bind hx fun r => ?_
  cases r with
  | ok a => exact hf a
  | err e => exact fun _ _ h => h
  | panic msg => exact fun _ _ h => h

theorem sketch_mapErr {Q : α → History → Prop} {f : ε → ε'} {x : Task ε α}
    (hx : machine.Sketch Cond Inv p n (exits Q E F) x A) :
    machine.Sketch Cond Inv p n (exits Q E F) (x.mapErr f) A := by
  refine Machine.Sketch.bind hx fun r => ?_
  cases r <;> exact fun _ _ h => h

/-- What no event can undo holds, however a task ends. -/
theorem sketch_frame {Q : α → History → Prop} {G : History → Prop} {x : Task ε α}
    (hx : machine.Sketch Cond Inv p n (exits Q E F) x A) (hG : ∀ h ev, G h → G (h.push ev)) :
    machine.Sketch Cond Inv p n (exits (fun a h => Q a h ∧ G h) E F) x fun h => A h ∧ G h :=
  (Machine.Sketch.frame hx hG).post fun r _ _ hQ => by
    cases r with
    | ok a => exact hQ
    | err e => exact hQ.1
    | panic msg => exact hQ.1

theorem sketch_attempt {Q : α → History → Prop} {E' : History → Prop} {x : Task ε α}
    (hx : machine.Sketch Cond Inv p n (exits Q E F) x A) :
    machine.Sketch Cond Inv p n
      (exits (fun r h => match r with | .ok a => Q a h | .error _ => E h) E' F)
      (x.attempt : Task ε' (Except ε α)) A := by
  refine Machine.Sketch.bind hx fun r => ?_
  cases r <;> exact fun _ _ h => h

/-- An exchange whose answer is a value or an error. -/
theorem sketch_answer {e : Effect} {γ : Type} {g : e.Res → Except ε γ} {Q : γ → History → Prop}
    (hQ : ∀ a, machine.Stable Cond Inv p (Q a)) (hE : machine.Stable Cond Inv p E)
    (hok : ∀ h env r w' a, Inv h → A h → act p e env h.state = some (r, w') → g r = .ok a →
      Cond h (.did p n e r h.state w') →
      Inv (h.push (.did p n e r h.state w')) ∧ Q a (h.push (.did p n e r h.state w')))
    (herr : ∀ h env r w' err, Inv h → A h → act p e env h.state = some (r, w') → g r = .error err →
      Cond h (.did p n e r h.state w') →
      Inv (h.push (.did p n e r h.state w')) ∧ E (h.push (.did p n e r h.state w'))) :
    machine.Sketch Cond Inv p n (exits Q E F) (.op e fun r => .ret (Exit.ofExcept (g r))) A := by
  refine Machine.Sketch.effect (g := fun r => Exit.ofExcept (g r)) (fun r => ?_) ?_
  · cases hr : g r with
    | ok a => exact hQ a
    | error err => exact hE
  · intro h env r w' hI hA ha hc
    cases hr : g r with
    | ok a => exact hok h env r w' a hI hA ha hr hc
    | error err => exact herr h env r w' err hI hA ha hr hc

theorem sketch_fetch {tx : RegistryTx} {q : Select} {Q : q.Rows → History → Prop}
    (hQ : ∀ rows, machine.Stable Cond Inv p (Q rows)) (hE : machine.Stable Cond Inv p E)
    (hok : ∀ h order rows, Inv h → A h →
      q.run order (h.state.db.view ⟨p, tx.no⟩) = .ok rows →
      Cond h (.did p n (.fetch tx q) (.ok rows) h.state h.state) →
      Inv (h.push (.did p n (.fetch tx q) (.ok rows) h.state h.state)) ∧
        Q rows (h.push (.did p n (.fetch tx q) (.ok rows) h.state h.state)))
    (herr : ∀ h err, Inv h → A h → Cond h (.did p n (.fetch tx q) (.error err) h.state h.state) →
      Inv (h.push (.did p n (.fetch tx q) (.error err) h.state h.state)) ∧
        E (h.push (.did p n (.fetch tx q) (.error err) h.state h.state))) :
    machine.Sketch Cond Inv p n (exits Q E F) (tx.fetch q) A := by
  refine sketch_answer (e := .fetch tx q) hQ hE ?_ ?_
  · intro h env r w' rows hI hA ha hr hc
    change r = .ok rows at hr
    subst hr
    obtain ⟨rfl, hrun | hrun⟩ := act_fetch ha
    · cases hrun
    · exact hok h env.order rows hI hA hrun.symm hc
  · intro h env r w' err hI hA ha hr hc
    change r = .error err at hr
    subst hr
    obtain ⟨rfl, -⟩ := act_fetch ha
    exact herr h err hI hA hc

theorem sketch_execute {tx : RegistryTx} {x : Write} {Q : x.Res → History → Prop}
    (hQ : ∀ a, machine.Stable Cond Inv p (Q a)) (hE : machine.Stable Cond Inv p E)
    (hok : ∀ h a w', Inv h → A h → Acts p h.state (.execute tx x) (.ok a) w' →
      Cond h (.did p n (.execute tx x) (.ok a) h.state w') →
      Inv (h.push (.did p n (.execute tx x) (.ok a) h.state w')) ∧
        Q a (h.push (.did p n (.execute tx x) (.ok a) h.state w')))
    (herr : ∀ h err w', Inv h → A h → Acts p h.state (.execute tx x) (.error err) w' →
      Cond h (.did p n (.execute tx x) (.error err) h.state w') →
      Inv (h.push (.did p n (.execute tx x) (.error err) h.state w')) ∧
        E (h.push (.did p n (.execute tx x) (.error err) h.state w'))) :
    machine.Sketch Cond Inv p n (exits Q E F) (tx.execute x) A := by
  refine sketch_answer (e := .execute tx x) hQ hE ?_ ?_
  · intro h env r w' a hI hA ha hr hc
    change r = .ok a at hr
    subst hr
    exact hok h a w' hI hA (acts_of_act ha) hc
  · intro h env r w' err hI hA ha hr hc
    change r = .error err at hr
    subst hr
    exact herr h err w' hI hA (acts_of_act ha) hc

theorem sketch_commit {tx : RegistryTx} {Q : Unit → History → Prop}
    (hQ : ∀ a, machine.Stable Cond Inv p (Q a)) (hE : machine.Stable Cond Inv p E)
    (hok : ∀ h w', Inv h → A h → Acts p h.state (.commit tx) (.ok ()) w' →
      Cond h (.did p n (.commit tx) (.ok ()) h.state w') →
      Inv (h.push (.did p n (.commit tx) (.ok ()) h.state w')) ∧
        Q () (h.push (.did p n (.commit tx) (.ok ()) h.state w')))
    (herr : ∀ h err w', Inv h → A h → Acts p h.state (.commit tx) (.error err) w' →
      Cond h (.did p n (.commit tx) (.error err) h.state w') →
      Inv (h.push (.did p n (.commit tx) (.error err) h.state w')) ∧
        E (h.push (.did p n (.commit tx) (.error err) h.state w'))) :
    machine.Sketch Cond Inv p n (exits Q E F) tx.commit A := by
  refine sketch_answer (e := .commit tx) hQ hE ?_ ?_
  · intro h env r w' a hI hA ha hr hc
    change r = .ok a at hr
    subst hr
    exact hok h w' hI hA (acts_of_act ha) hc
  · intro h env r w' err hI hA ha hr hc
    change r = .error err at hr
    subst hr
    exact herr h err w' hI hA (acts_of_act ha) hc

theorem sketch_utcNow {Q : Time → History → Prop} (hQ : ∀ t, machine.Stable Cond Inv p (Q t))
    (hok : ∀ h t, Inv h → A h → Cond h (.did p n .now t h.state h.state) →
      Inv (h.push (.did p n .now t h.state h.state)) ∧
        Q t (h.push (.did p n .now t h.state h.state))) :
    machine.Sketch Cond Inv p n (exits Q E F) (utcNow : Task ε Time) A := by
  refine Machine.Sketch.effect (e := Effect.now) (g := Exit.ok) hQ ?_
  intro h env r w' hI hA ha hc
  obtain ⟨rfl, rfl⟩ := Prod.mk.inj (Option.some.inj ha)
  exact hok h _ hI hA hc

/-- A sum takes no time: what held before it holds after it, if it is in the calendar. -/
theorem sketch_addTimeDelta {Q : Time → History → Prop} {t : Time} {d : TimeDelta}
    (hok : InCalendar (t + d) → ∀ h, Inv h → A h → Q (t + d) h) (hF : ∀ h, Inv h → A h → F h) :
    machine.Sketch Cond Inv p n (exits Q E F) (addTimeDelta t d : Task ε Time) A := by
  unfold addTimeDelta
  split
  · rename_i hin
    exact sketch_pure (hok hin)
  · exact sketch_panic hF

theorem sketch_hashOrder {Q : List Nat → History → Prop}
    (hQ : ∀ o, machine.Stable Cond Inv p (Q o))
    (hok : ∀ h o, Inv h → A h → Cond h (.did p n .hashOrder o h.state h.state) →
      Inv (h.push (.did p n .hashOrder o h.state h.state)) ∧
        Q o (h.push (.did p n .hashOrder o h.state h.state))) :
    machine.Sketch Cond Inv p n (exits Q E F) (hashOrder : Task ε (List Nat)) A := by
  refine Machine.Sketch.effect (e := Effect.hashOrder) (g := Exit.ok) hQ ?_
  intro h env r w' hI hA ha hc
  obtain ⟨rfl, rfl⟩ := Prod.mk.inj (Option.some.inj ha)
  exact hok h _ hI hA hc

/-- A transaction: what holds when its scope is left must survive the drop that follows. -/
theorem sketch_withTx {f : SqlxError → ε} {scope : RegistryTx → Task ε α}
    {Q : Exit ε α → History → Prop} (B : RegistryTx → History → Prop)
    (Q' : RegistryTx → Exit ε α → History → Prop)
    (hB : ∀ tx, machine.Stable Cond Inv p (B tx)) (hQ : ∀ r, machine.Stable Cond Inv p (Q r))
    (hbegin : ∀ h tx w', Inv h → A h → Acts p h.state .begin (.ok tx) w' →
      Cond h (.did p n .begin (.ok tx) h.state w') →
      Inv (h.push (.did p n .begin (.ok tx) h.state w')) ∧
        B tx (h.push (.did p n .begin (.ok tx) h.state w')))
    (herr : ∀ h err w', Inv h → A h → Acts p h.state .begin (.error err) w' →
      Cond h (.did p n .begin (.error err) h.state w') →
      Inv (h.push (.did p n .begin (.error err) h.state w')) ∧
        Q (.err (f err)) (h.push (.did p n .begin (.error err) h.state w')))
    (hscope : ∀ tx, machine.Sketch Cond Inv p n (Q' tx) (scope tx) (B tx))
    (hdrop : ∀ tx r h w', Inv h → Q' tx r h → Acts p h.state (.drop tx) () w' →
      Cond h (.did p n (.drop tx) () h.state w') →
      Inv (h.push (.did p n (.drop tx) () h.state w')) ∧
        Q r (h.push (.did p n (.drop tx) () h.state w'))) :
    machine.Sketch Cond Inv p n Q (withTx f scope) A := by
  -- After `begin` there is an error, which is answered, or a transaction, in which the scope runs.
  refine ⟨fun r => Except.rec (fun err => Q (.err (f err))) B r, ?_, ?_, ?_⟩
  · intro r
    cases r with
    | error err => exact hQ _
    | ok tx => exact hB tx
  · intro h env r w' hI hA ha hc
    cases r with
    | error err => exact herr h err w' hI hA (acts_of_act ha) hc
    | ok tx => exact hbegin h tx w' hI hA (acts_of_act ha) hc
  · intro r
    cases r with
    | error err => exact fun _ _ h => h
    | ok tx =>
      refine Machine.Sketch.bind (hscope tx) fun r => ?_
      refine Machine.Sketch.effect (e := .drop tx) (g := fun _ => r) (fun _ => hQ r) ?_
      intro h env u w' hI hQ' ha hc
      cases u
      have ha : act p (.drop tx) env h.state = some ((), w') := ha
      exact hdrop tx r h w' hI hQ' (acts_of_act ha) hc

end Sketch

end Task

/-! ## Transactions -/

/-- The effect, if it writes, writes something in `W`, as `tx`. -/
def WritesIn (tx : RegistryTx) (W : Write → Prop) (e : Effect) : Prop :=
  ∀ tx' x, e = .execute tx' x → tx' = tx ∧ W x

/-- The effect, if it writes, writes something in `W`. -/
def Writes (W : Write → Prop) (e : Effect) : Prop := ∀ tx x, e = .execute tx x → W x

/-- The task is one transaction, and what it writes is in `W`. -/
def Transaction (W : Write → Prop) (x : Task ε α) : Prop :=
  ∃ (f : SqlxError → ε) (scope : RegistryTx → Task ε α), x = withTx f scope ∧
    ∀ tx, Prog.Emits (WritesIn tx W) (scope tx)

theorem Transaction.emits {W : Write → Prop} {x : Task ε α} (h : Transaction W x) :
    Prog.Emits (Writes W) x := by
  obtain ⟨f, scope, rfl, hscope⟩ := h
  refine Task.emits_withTx (by simp [Writes]) (by simp [Writes]) fun tx => ?_
  exact (hscope tx).mono fun e he tx' x hx => (he tx' x hx).2

/-- A task that does not write keeps a clean slate. -/
theorem sketch_clean_of_silent {x : Prog Effect Effect.Res α}
    (h : x.Emits (Writes fun _ => False)) :
    machine.Sketch Cond (fun _ => True) p n (fun _ h => Clean p h.state) x
      fun h => Clean p h.state :=
  Machine.Sketch.keep h stable_clean fun _ _ _ _ _ he _ hc ha _ =>
    ⟨trivial, (acts_of_act ha).clean (fun tx x hx => he tx x hx) hc⟩

theorem stable_exits {A : α → History → Prop} {E F : History → Prop}
    (hA : ∀ a, machine.Stable Cond Inv p (A a)) (hE : machine.Stable Cond Inv p E)
    (hF : machine.Stable Cond Inv p F) (r : Exit ε α) :
    machine.Stable Cond Inv p (exits A E F r) := by
  cases r with
  | ok a => exact hA a
  | err e => exact hE
  | panic msg => exact hF

/-- A transaction that is over has left nothing pending. -/
theorem Transaction.sketch_clean {W : Write → Prop} {x : Task ε α} (h : Transaction W x) :
    machine.Sketch Cond (fun _ => True) p n (fun _ h => Clean p h.state) x
      fun h => Clean p h.state := by
  obtain ⟨f, scope, rfl, hscope⟩ := h
  refine Task.sketch_withTx (fun tx h => Within p tx h.state)
    (fun tx _ h => Within p tx h.state) (fun _ => stable_within) (fun _ => stable_clean) ?_ ?_ ?_ ?_
  · intro h tx w' _ hc ha _
    exact ⟨trivial, (ha.clean (by simp) hc).within tx⟩
  · intro h err w' _ hc ha _
    exact ⟨trivial, ha.clean (by simp) hc⟩
  · exact fun tx => Machine.Sketch.keep (hscope tx) stable_within fun _ _ _ _ _ he _ hc ha _ =>
      ⟨trivial, (acts_of_act ha).within (fun tx' x hx => (he tx' x hx).1) hc⟩
  · intro tx r h w' _ hc ha _
    exact ⟨trivial, ha.clean_of_ended (.inr rfl) hc⟩

end Tachikoma
