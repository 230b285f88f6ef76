import Tachikoma.Lib.Logs
import Tachikoma.Proof.LeaseExact

/-!
# What a call has in its log

The rules of `Tachikoma/Lib/Logs.lean` for tasks, and what is read off a log here: the notifications
that were attempted, the messages that were delivered, and whether an exchange with the database
failed.
-/

set_option autoImplicit false

namespace Tachikoma

open Interleaving

variable {ε ε' α β : Type} {p : Pid} {w : World} {s : Setting}

abbrev Log : Type := List (Exchange Effect Effect.Res)

/-- The notification that an exchange attempts. -/
def noticeOf : Exchange Effect Effect.Res → Option (UserId × Notification)
  | ⟨.notify userId notification, _⟩ => some (userId, notification)
  | _ => none

/-- The user whom an exchange delivers a message to. -/
def deliveryOf : Exchange Effect Effect.Res → Option UserId
  | ⟨.send sender _, .ok ()⟩ => some sender.user.id
  | _ => none

/-- The database did not answer, or refused. -/
def failed : Exchange Effect Effect.Res → Bool
  | ⟨.begin, .error _⟩ => true
  | ⟨.fetch _ _, .error _⟩ => true
  | ⟨.execute _ _, .error _⟩ => true
  | ⟨.commit _, .error _⟩ => true
  | _ => false

/-- The notifications attempted, in their order. -/
def notices (log : Log) : List (UserId × Notification) := log.filterMap noticeOf

/-- The users a message was delivered to, in their order. -/
def deliveries (log : Log) : List UserId := log.filterMap deliveryOf

@[simp] theorem notices_nil : notices [] = [] := rfl

@[simp] theorem notices_cons (ex : Exchange Effect Effect.Res) (log : Log) :
    notices (ex :: log) = (noticeOf ex).toList ++ notices log := by
  rw [notices, List.filterMap_cons]
  cases noticeOf ex <;> rfl

@[simp] theorem notices_append (log log' : Log) :
    notices (log ++ log') = notices log ++ notices log' := List.filterMap_append

@[simp] theorem deliveries_nil : deliveries [] = [] := rfl

@[simp] theorem deliveries_cons (ex : Exchange Effect Effect.Res) (log : Log) :
    deliveries (ex :: log) = (deliveryOf ex).toList ++ deliveries log := by
  rw [deliveries, List.filterMap_cons]
  cases deliveryOf ex <;> rfl

@[simp] theorem deliveries_append (log log' : Log) :
    deliveries (log ++ log') = deliveries log ++ deliveries log' := List.filterMap_append

namespace Task

/-- Every run of the task in the world `w`, within the setting, satisfies `A`. -/
def Records (s : Setting) (x : Task ε α) (p : Pid) (w : World) (A : Log → Exit ε α → World → Prop) :
    Prop := Prog.Records (actIn s) p A x w

section Rules

variable {A : Log → Exit ε α → World → Prop}

theorem records_pure {a : α} (h : A [] (.ok a) w) : (pure a : Task ε α).Records s p w A :=
  Prog.records_ret (actIn s) p h

theorem records_throw {e : ε} (h : A [] (.err e) w) : (Task.throw e : Task ε α).Records s p w A :=
  Prog.records_ret (actIn s) p h

theorem records_ite {c : Prop} [hc : Decidable c] {x y : Task ε α} (hx : c → x.Records s p w A)
    (hy : ¬ c → y.Records s p w A) : (if c then x else y).Records s p w A := by
  cases hc with
  | isTrue h => exact hx h
  | isFalse h => exact hy h

theorem records_bind {x : Task ε β} {f : β → Task ε α}
    (h : x.Records s p w fun log r w₁ => match r with
      | .ok b => (f b).Records s p w₁ fun rest => A (log ++ rest)
      | .err e => A log (.err e) w₁
      | .panic msg => A log (.panic msg) w₁) : (x >>= f).Records s p w A := by
  refine Prog.Records.bind (actIn s) p h fun log r w₁ hr => ?_
  cases r with
  | ok b => exact hr
  | err e => exact Prog.records_ret (actIn s) p (by rwa [List.append_nil])
  | panic msg => exact Prog.records_ret (actIn s) p (by rwa [List.append_nil])

theorem records_mapErr {f : ε' → ε} {x : Task ε' α}
    (h : x.Records s p w fun log r w₁ => match r with
      | .ok a => A log (.ok a) w₁
      | .err e => A log (.err (f e)) w₁
      | .panic msg => A log (.panic msg) w₁) : (x.mapErr f).Records s p w A := by
  refine Prog.Records.bind (actIn s) p h fun log r w₁ hr => ?_
  cases r <;> exact Prog.records_ret (actIn s) p (by rwa [List.append_nil])

theorem records_attempt {A : Log → Exit ε' (Except ε α) → World → Prop} {x : Task ε α}
    (h : x.Records s p w fun log r w₁ => match r with
      | .ok a => A log (.ok (.ok a)) w₁
      | .err e => A log (.ok (.error e)) w₁
      | .panic msg => A log (.panic msg) w₁) : (x.attempt : Task ε' _).Records s p w A := by
  refine Prog.Records.bind (actIn s) p h fun log r w₁ hr => ?_
  cases r <;> exact Prog.records_ret (actIn s) p (by rwa [List.append_nil])

theorem records_fetch {tx : RegistryTx} {q : Select}
    {A : Log → Exit SqlxError q.Rows → World → Prop}
    (hok : ∀ order, A [⟨.fetch tx q, q.run order (w.db.view ⟨p, tx.no⟩)⟩]
      (.ofExcept (q.run order (w.db.view ⟨p, tx.no⟩))) w)
    (hio : s.faults = true → A [⟨.fetch tx q, .error .io⟩] (.err .io) w) :
    (tx.fetch q).Records s p w A := by
  refine Prog.records_op (actIn s) p fun env r w₁ ha => Prog.records_ret (actIn s) p ?_
  obtain ⟨rfl, ⟨hfaults, rfl⟩ | ⟨order, rfl⟩⟩ := actIn_fetch ha
  · exact hio hfaults
  · exact hok order

theorem records_execute {tx : RegistryTx} {x : Write}
    {A : Log → Exit SqlxError x.Res → World → Prop}
    (hok : ∀ uuid a db, w.db.execute ⟨p, tx.no⟩ uuid x = some (a, db) →
      A [⟨.execute tx x, a⟩] (.ofExcept a) { w with db := db })
    (hio : s.faults = true → A [⟨.execute tx x, .error .io⟩] (.err .io) w) :
    (tx.execute x).Records s p w A := by
  refine Prog.records_op (actIn s) p fun env r w₁ ha => Prog.records_ret (actIn s) p ?_
  obtain ⟨hfaults, rfl, rfl⟩ | ⟨uuid, db, hx, rfl⟩ := actIn_execute ha
  · exact hio hfaults
  · exact hok uuid r db hx

theorem records_commit {tx : RegistryTx} {A : Log → Exit SqlxError Unit → World → Prop}
    (hok : A [⟨.commit tx, .ok ()⟩] (.ok ()) { w with db := w.db.commit ⟨p, tx.no⟩ })
    (hio : s.faults = true →
      A [⟨.commit tx, .error .io⟩] (.err .io) { w with db := w.db.rollback ⟨p, tx.no⟩ }) :
    tx.commit.Records s p w A := by
  refine Prog.records_op (actIn s) p fun env r w₁ ha => Prog.records_ret (actIn s) p ?_
  obtain ⟨hfaults, rfl, rfl⟩ | ⟨rfl, rfl⟩ := actIn_commit ha
  · exact hio hfaults
  · exact hok

theorem records_utcNow {A : Log → Exit ε Time → World → Prop}
    (h : ∀ now, (∀ c ∈ s.clock, now = c) → A [⟨.now, now⟩] (.ok now) w) :
    (utcNow : Task ε Time).Records s p w A := by
  refine Prog.records_op (actIn s) p fun env r w₁ ha => Prog.records_ret (actIn s) p ?_
  obtain ⟨hclock, rfl⟩ := actIn_now ha
  exact h r hclock

theorem records_hashOrder {A : Log → Exit ε (List Nat) → World → Prop}
    (h : ∀ order, A [⟨.hashOrder, order⟩] (.ok order) w) :
    (hashOrder : Task ε (List Nat)).Records s p w A := by
  refine Prog.records_op (actIn s) p fun env r w₁ ha => Prog.records_ret (actIn s) p ?_
  obtain rfl := actIn_hashOrder ha
  exact h r

theorem records_withTx {f : SqlxError → ε} {scope : RegistryTx → Task ε α}
    (hscope : (scope ⟨w.nextTx⟩).Records s p { w with nextTx := w.nextTx + 1 }
      fun log r w₁ => A (⟨.begin, .ok ⟨w.nextTx⟩⟩ :: (log ++ [⟨.drop ⟨w.nextTx⟩, ()⟩])) r
        { w₁ with db := w₁.db.rollback ⟨p, w.nextTx⟩ })
    (hio : s.faults = true → A [⟨.begin, .error .io⟩] (.err (f .io)) w) :
    (withTx f scope).Records s p w A := by
  refine Prog.records_op (actIn s) p fun env r w₁ ha => ?_
  obtain ⟨hfaults, rfl, rfl⟩ | ⟨rfl, rfl⟩ := actIn_begin ha
  · exact Prog.records_ret (actIn s) p (hio hfaults)
  · refine Prog.Records.bind (actIn s) p hscope fun log r w₂ hr => ?_
    refine Prog.records_op (actIn s) p fun env u w₃ hd => Prog.records_ret (actIn s) p ?_
    obtain rfl := actIn_drop hd
    exact hr

theorem Records.mono {A' : Log → Exit ε α → World → Prop} {x : Task ε α} (h : x.Records s p w A)
    (hA : ∀ log r w', A log r w' → A' log r w') : x.Records s p w A' :=
  Prog.Records.mono (actIn s) p hA h

end Rules

end Task

end Tachikoma
