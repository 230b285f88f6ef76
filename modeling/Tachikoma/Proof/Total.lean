import Tachikoma.Proof.Steps

/-!
# What a call achieves

With nobody else running, a function of the source is a relation between the world before, what it
returns and the world after (`Task.Ends`). Of such calls this file has total correctness
(`Prog.Achieves`), one rule for each way a task is put together. The surroundings are kept within a
**setting**: whether exchanges may fail, and what the clock reads, if that is fixed. One proof about
a function then serves three kinds of statements: what it does at one time when nothing fails, that
it comes to an end then, and what may become of it when anything can fail.
-/

set_option autoImplicit false

namespace Tachikoma

open Interleaving

variable {ε ε' α β : Type} {p : Pid} {w w' : World}

structure Setting where
  /-- An exchange may fail. -/
  faults : Bool
  /-- What the clock reads. -/
  clock : Option Time

/-- Nothing is ruled out. -/
def Setting.any : Setting := ⟨true, none⟩

/-- Anything may fail, and the clock reads `now`. -/
def Setting.at (now : Time) : Setting := ⟨true, some now⟩

/-- Nothing fails, and the clock reads `now`. -/
def Setting.calm (now : Time) : Setting := ⟨false, some now⟩

def Setting.Allows (s : Setting) (env : Env) : Prop :=
  (s.faults = false → env.fails = false) ∧ ∀ now ∈ s.clock, env.time = now

instance (s : Setting) (env : Env) : Decidable (s.Allows env) := by
  unfold Setting.Allows
  infer_instance

/-- One effect within the setting. -/
def actIn (s : Setting) (p : Pid) (e : Effect) (env : Env) (w : World) : Option (e.Res × World) :=
  if s.Allows env then act p e env w else none

theorem actIn_eq_some {s : Setting} {e : Effect} {env : Env} {r : e.Res} :
    actIn s p e env w = some (r, w') ↔ s.Allows env ∧ act p e env w = some (r, w') := by
  simp [actIn]

/-- What fails is allowed to. -/
theorem Setting.Allows.faults {s : Setting} {env : Env} (h : s.Allows env)
    (hf : env.fails = true) : s.faults = true := by
  cases hs : s.faults with
  | true => rfl
  | false =>
    rw [h.1 hs] at hf
    cases hf

/-- An environment in which nothing fails, with the right time. -/
def Setting.env (s : Setting) : Env := { time := s.clock.getD 0 }

theorem Setting.allows_env (s : Setting) : s.Allows s.env := by
  refine ⟨fun _ => rfl, fun now hnow => ?_⟩
  show s.clock.getD 0 = now
  rw [Option.mem_def.mp hnow]
  rfl

/-! ## What one effect does within a setting -/

section Answers

variable {s : Setting} {env : Env}

theorem actIn_fetch {tx : RegistryTx} {q : Select} {r : Except SqlxError q.Rows}
    (h : actIn s p (.fetch tx q) env w = some (r, w')) :
    w' = w ∧ (s.faults = true ∧ r = .error .io ∨
      ∃ order, r = q.run order (w.db.view ⟨p, tx.no⟩)) := by
  obtain ⟨hallows, ha⟩ := actIn_eq_some.mp h
  obtain ⟨hr, rfl⟩ := Prod.mk.inj (Option.some.inj ha)
  refine ⟨rfl, ?_⟩
  by_cases hf : env.fails = true
  · exact .inl ⟨hallows.faults hf, hr.symm.trans (if_pos hf)⟩
  · exact .inr ⟨env.order, hr.symm.trans (if_neg hf)⟩

theorem actIn_execute {tx : RegistryTx} {x : Write} {r : Except SqlxError x.Res}
    (h : actIn s p (.execute tx x) env w = some (r, w')) :
    s.faults = true ∧ r = .error .io ∧ w' = w ∨
      ∃ uuid db, w.db.execute ⟨p, tx.no⟩ uuid x = some (r, db) ∧ w' = { w with db := db } := by
  obtain ⟨hallows, ha⟩ := actIn_eq_some.mp h
  simp only [act] at ha
  split at ha
  · rename_i hf
    obtain ⟨rfl, rfl⟩ := Prod.mk.inj (Option.some.inj ha)
    exact .inl ⟨hallows.faults hf, rfl, rfl⟩
  · obtain ⟨⟨a, db⟩, hx, he⟩ := Option.map_eq_some_iff.mp ha
    obtain ⟨rfl, rfl⟩ := Prod.mk.inj he
    exact .inr ⟨env.uuid, db, hx, rfl⟩

theorem actIn_commit {tx : RegistryTx} {r : Except SqlxError Unit}
    (h : actIn s p (.commit tx) env w = some (r, w')) :
    s.faults = true ∧ r = .error .io ∧ w' = { w with db := w.db.rollback ⟨p, tx.no⟩ } ∨
      r = .ok () ∧ w' = { w with db := w.db.commit ⟨p, tx.no⟩ } := by
  obtain ⟨hallows, ha⟩ := actIn_eq_some.mp h
  have ha := Option.some.inj ha
  split at ha
  · rename_i hf
    obtain ⟨rfl, rfl⟩ := Prod.mk.inj ha
    exact .inl ⟨hallows.faults hf, rfl, rfl⟩
  · obtain ⟨rfl, rfl⟩ := Prod.mk.inj ha
    exact .inr ⟨rfl, rfl⟩

theorem actIn_begin {r : Except SqlxError RegistryTx}
    (h : actIn s p .begin env w = some (r, w')) :
    s.faults = true ∧ r = .error .io ∧ w' = w ∨
      r = .ok ⟨w.nextTx⟩ ∧ w' = { w with nextTx := w.nextTx + 1 } := by
  obtain ⟨hallows, ha⟩ := actIn_eq_some.mp h
  have ha := Option.some.inj ha
  split at ha
  · rename_i hf
    obtain ⟨rfl, rfl⟩ := Prod.mk.inj ha
    exact .inl ⟨hallows.faults hf, rfl, rfl⟩
  · obtain ⟨rfl, rfl⟩ := Prod.mk.inj ha
    exact .inr ⟨rfl, rfl⟩

theorem actIn_drop {tx : RegistryTx} {u : Unit} (h : actIn s p (.drop tx) env w = some (u, w')) :
    w' = { w with db := w.db.rollback ⟨p, tx.no⟩ } := by
  obtain ⟨-, ha⟩ := actIn_eq_some.mp h
  exact (Prod.mk.inj (Option.some.inj ha)).2.symm

theorem actIn_now {now : Time} (h : actIn s p .now env w = some (now, w')) :
    (∀ c ∈ s.clock, now = c) ∧ w' = w := by
  obtain ⟨hallows, ha⟩ := actIn_eq_some.mp h
  obtain ⟨rfl, rfl⟩ := Prod.mk.inj (Option.some.inj ha)
  exact ⟨hallows.2, rfl⟩

theorem actIn_hashOrder {order : List Nat} (h : actIn s p .hashOrder env w = some (order, w')) :
    w' = w := by
  obtain ⟨-, ha⟩ := actIn_eq_some.mp h
  exact (Prod.mk.inj (Option.some.inj ha)).2.symm

end Answers

namespace Task

/-- The task of `p`, run alone in the world `w`, can end with `r` in the world `w'`. -/
def Ends (x : Task ε α) (p : Pid) (w : World) (r : Exit ε α) (w' : World) : Prop :=
  Prog.Ends act p x w r w'

/-- The task, run alone in the world `w`, ends, and every way it can end within the setting
    satisfies `A`. -/
def Achieves (s : Setting) (x : Task ε α) (p : Pid) (w : World) (A : Exit ε α → World → Prop) :
    Prop := Prog.Achieves (actIn s) p A x w

theorem Achieves.exists_ends {s : Setting} {x : Task ε α} {A : Exit ε α → World → Prop}
    (h : x.Achieves s p w A) : ∃ r w', x.Ends p w r w' ∧ A r w' := by
  obtain ⟨r, w', hends⟩ := Prog.Achieves.exists_ends (actIn s) p h
  refine ⟨r, w', ?_, Prog.Achieves.of_ends (actIn s) p h hends⟩
  -- A run within the setting is a run.
  clear h
  unfold Task at x
  induction x generalizing w with
  | ret a => exact hends
  | op e k ih =>
    obtain ⟨env, r₁, w₁, ha, hends⟩ := hends
    exact ⟨env, r₁, w₁, (actIn_eq_some.mp ha).2, ih r₁ hends⟩

/-- What is achieved when nothing is ruled out holds however the task ends. -/
theorem Achieves.of_ends {x : Task ε α} {A : Exit ε α → World → Prop} {r : Exit ε α}
    (h : x.Achieves .any p w A) (hends : x.Ends p w r w') : A r w' := by
  refine Prog.Achieves.of_ends (actIn .any) p h ?_
  clear h
  unfold Task at x
  induction x generalizing w with
  | ret a => exact hends
  | op e k ih =>
    obtain ⟨env, r₁, w₁, ha, hends⟩ := hends
    exact ⟨env, r₁, w₁, actIn_eq_some.mpr ⟨⟨nofun, nofun⟩, ha⟩, ih r₁ hends⟩

/-- A run within a setting is a run within any other that allows as much. -/
theorem ends_of_allows {s s' : Setting} (hle : ∀ env, s.Allows env → s'.Allows env) {x : Task ε α}
    {r : Exit ε α} (h : Prog.Ends (actIn s) p x w r w') : Prog.Ends (actIn s') p x w r w' := by
  unfold Task at x
  induction x generalizing w with
  | ret a => exact h
  | op e k ih =>
    obtain ⟨env, r₁, w₁, ha, hends⟩ := h
    obtain ⟨hallows, ha⟩ := actIn_eq_some.mp ha
    exact ⟨env, r₁, w₁, actIn_eq_some.mpr ⟨hle env hallows, ha⟩, ih r₁ hends⟩

/-- What is achieved when nothing fails is what becomes of some run among those in which anything
    can. -/
theorem Achieves.exists_ends_at {now : Time} {x : Task ε α} {A : Exit ε α → World → Prop}
    (h : x.Achieves (.calm now) p w A) :
    ∃ r w', Prog.Ends (actIn (.at now)) p x w r w' ∧ A r w' := by
  obtain ⟨r, w', hends⟩ := Prog.Achieves.exists_ends (actIn (.calm now)) p h
  have hle : ∀ env, (Setting.calm now).Allows env → (Setting.at now).Allows env := by
    intro env hallows
    refine ⟨fun hf => ?_, hallows.2⟩
    cases hf
  exact ⟨r, w', ends_of_allows hle hends,
    Prog.Achieves.of_ends (actIn (.calm now)) p h hends⟩

section Rules

variable {s : Setting} {A : Exit ε α → World → Prop}

theorem Achieves.mono {A' : Exit ε α → World → Prop} {x : Task ε α} (h : x.Achieves s p w A)
    (hA : ∀ r w', A r w' → A' r w') : x.Achieves s p w A' :=
  Prog.Achieves.mono (actIn s) p hA h

theorem achieves_pure {a : α} (h : A (.ok a) w) : (pure a : Task ε α).Achieves s p w A := h

theorem achieves_throw {e : ε} (h : A (.err e) w) : (Task.throw e : Task ε α).Achieves s p w A := h

theorem achieves_panic {msg : String} (h : A (.panic msg) w) :
    (Task.panic msg : Task ε α).Achieves s p w A := h

theorem achieves_bind {x : Task ε β} {f : β → Task ε α}
    (h : x.Achieves s p w fun r w₁ => match r with
      | .ok b => (f b).Achieves s p w₁ A
      | .err e => A (.err e) w₁
      | .panic msg => A (.panic msg) w₁) : (x >>= f).Achieves s p w A := by
  refine Prog.Achieves.bind (actIn s) p h fun r w₁ hr => ?_
  cases r with
  | ok b => exact hr
  | err e => exact hr
  | panic msg => exact hr

theorem achieves_mapErr {f : ε' → ε} {x : Task ε' α}
    (h : x.Achieves s p w fun r w₁ => match r with
      | .ok a => A (.ok a) w₁
      | .err e => A (.err (f e)) w₁
      | .panic msg => A (.panic msg) w₁) : (x.mapErr f).Achieves s p w A := by
  refine Prog.Achieves.bind (actIn s) p h fun r w₁ hr => ?_
  cases r with
  | ok b => exact hr
  | err e => exact hr
  | panic msg => exact hr

theorem achieves_fetch {tx : RegistryTx} {q : Select} {A : Exit SqlxError q.Rows → World → Prop}
    (hok : ∀ order, A (.ofExcept (q.run order (w.db.view ⟨p, tx.no⟩))) w)
    (hio : s.faults = true → A (.err .io) w) : (tx.fetch q).Achieves s p w A := by
  refine ⟨⟨s.env, _, if_pos s.allows_env⟩, fun env r w₁ ha => ?_⟩
  obtain ⟨rfl, ⟨hfaults, rfl⟩ | ⟨order, rfl⟩⟩ := actIn_fetch ha
  · exact hio hfaults
  · exact hok order

theorem achieves_execute {tx : RegistryTx} {x : Write} {A : Exit SqlxError x.Res → World → Prop}
    (hok : ∀ uuid, ∃ a db, w.db.execute ⟨p, tx.no⟩ uuid x = some (a, db) ∧
      A (.ofExcept a) { w with db := db })
    (hio : s.faults = true → A (.err .io) w) : (tx.execute x).Achieves s p w A := by
  constructor
  · obtain ⟨a, db, hx, -⟩ := hok s.env.uuid
    refine ⟨s.env, (a, { w with db := db }), ?_⟩
    rw [actIn, if_pos s.allows_env]
    show (w.db.execute ⟨p, tx.no⟩ s.env.uuid x).map _ = _
    rw [hx]
    rfl
  · intro env r w₁ ha
    obtain ⟨hfaults, rfl, rfl⟩ | ⟨uuid, db, hx, rfl⟩ := actIn_execute ha
    · exact hio hfaults
    · obtain ⟨a, db', hx', hA⟩ := hok uuid
      rw [hx] at hx'
      obtain ⟨rfl, rfl⟩ := Prod.mk.inj (Option.some.inj hx')
      exact hA

theorem achieves_commit {tx : RegistryTx} {A : Exit SqlxError Unit → World → Prop}
    (hok : A (.ok ()) { w with db := w.db.commit ⟨p, tx.no⟩ })
    (hio : s.faults = true → A (.err .io) { w with db := w.db.rollback ⟨p, tx.no⟩ }) :
    tx.commit.Achieves s p w A := by
  refine ⟨⟨s.env, _, if_pos s.allows_env⟩, fun env r w₁ ha => ?_⟩
  obtain ⟨hfaults, rfl, rfl⟩ | ⟨rfl, rfl⟩ := actIn_commit ha
  · exact hio hfaults
  · exact hok

theorem achieves_utcNow {A : Exit ε Time → World → Prop}
    (h : ∀ now, (∀ c ∈ s.clock, now = c) → A (.ok now) w) :
    (utcNow : Task ε Time).Achieves s p w A := by
  refine ⟨⟨s.env, _, if_pos s.allows_env⟩, fun env r w₁ ha => ?_⟩
  obtain ⟨hclock, rfl⟩ := actIn_now ha
  exact h r hclock

theorem achieves_addTimeDelta {t : Time} {d : TimeDelta} {A : Exit ε Time → World → Prop}
    (hin : InCalendar (t + d) → A (.ok (t + d)) w)
    (hout : ¬ InCalendar (t + d) → A (.panic "`DateTime + TimeDelta` overflowed") w) :
    (addTimeDelta t d : Task ε Time).Achieves s p w A := by
  unfold addTimeDelta
  split
  · rename_i h
    exact achieves_pure (hin h)
  · rename_i h
    exact achieves_panic (hout h)

theorem achieves_hashOrder {A : Exit ε (List Nat) → World → Prop} (h : ∀ order, A (.ok order) w) :
    (hashOrder : Task ε (List Nat)).Achieves s p w A := by
  refine ⟨⟨s.env, _, if_pos s.allows_env⟩, fun env r w₁ ha => ?_⟩
  obtain rfl := actIn_hashOrder ha
  exact h r

theorem achieves_withTx {f : SqlxError → ε} {scope : RegistryTx → Task ε α}
    (hscope : (scope ⟨w.nextTx⟩).Achieves s p { w with nextTx := w.nextTx + 1 }
      fun r w₁ => A r { w₁ with db := w₁.db.rollback ⟨p, w.nextTx⟩ })
    (hio : s.faults = true → A (.err (f .io)) w) : (withTx f scope).Achieves s p w A := by
  refine ⟨⟨s.env, _, if_pos s.allows_env⟩, fun env r w₁ ha => ?_⟩
  obtain ⟨hfaults, rfl, rfl⟩ | ⟨rfl, rfl⟩ := actIn_begin ha
  · exact hio hfaults
  · refine Prog.Achieves.bind (actIn s) p hscope fun r w₂ hr => ?_
    refine ⟨⟨s.env, _, if_pos s.allows_env⟩, fun env u w₃ hd => ?_⟩
    obtain rfl := actIn_drop hd
    exact hr

end Rules

end Task

end Tachikoma
