import Tachikoma.Proof.Calls

/-!
# The gap between a read and a write

Three functions of the source read the ids of some hosts in one statement and use them in a later
one: the timer frees what it read as expired, the notifier unwraps the deadlines of what was read as
expiring, an extension moves the deadlines of what it read as the user's. In between, other tasks
may commit, and the later statement finds rows that the earlier one did not see.

`committedSince` is what the gap did to one host, read off the trace: the row committed last since
the read. It is all there is to know, and `Tracked` says so: **a host is now as it was committed
last since the read, or nothing was and it is as the read saw it.** Each of the three functions is
then right in a run exactly as far as the rows that the gap left behind are.
-/

set_option autoImplicit false

namespace Tachikoma

open Interleaving

/-- The row committed last under the id of a host, since the newest event that `mark` picks. -/
def committedSince (mark : Ev → Bool) (id : HostId) : Trace → Option HostRow
  | [] => none
  | ev :: tr => if mark ev then none else (committedRow id ev).or (committedSince mark id tr)

/-- The committed row of the host is the one committed last since the read that `mark` picks, or
    nothing was committed and it satisfies `P`. -/
def Tracked (mark : Ev → Bool) (P : HostRow → Prop) (id : HostId) (h : History) : Prop :=
  ∀ r, h.state.host id = some r → committedSince mark id h.trace = some r ∨
    (committedSince mark id h.trace = none ∧ P r)

section Tracked

variable {mark : Ev → Bool} {P : HostRow → Prop} {id : HostId} {h : History}

/-- The read itself. -/
theorem tracked_of_mark {p : Pid} {n : Nat} {e : Effect} {r : e.Res} {w w' : World}
    (hm : mark (.did p n e r w w') = true) (hP : ∀ row, w'.host id = some row → P row) :
    Tracked mark P id (h.push (.did p n e r w w')) := by
  intro row hrow
  refine .inr ⟨?_, hP row hrow⟩
  rw [Hist.push_trace, committedSince, if_pos hm]

theorem committedSince_push {ev : Ev} (hm : mark ev = false) :
    committedSince mark id (h.push ev).trace =
      (committedRow id ev).or (committedSince mark id h.trace) := by
  rw [Hist.push_trace, committedSince, if_neg (by simp [hm])]

/-- Anything after it. -/
theorem Tracked.did (ht : Tracked mark P id h) {p : Pid} {n : Nat} {e : Effect} {r : e.Res}
    {w' : World} (hacts : Acts p h.state e r w') (hm : mark (.did p n e r h.state w') = false) :
    Tracked mark P id (h.push (.did p n e r h.state w')) := by
  intro row hrow
  rw [committedSince_push hm]
  rcases hacts.host n id with heq | ⟨hnone, heq⟩
  · have hrow : w'.host id = some row := hrow
    rw [← heq, hrow]
    exact .inl rfl
  · rw [hnone, Option.none_or]
    exact ht row (heq.symm.trans hrow)

theorem Tracked.push (ht : Tracked mark P id h) {ev : Ev} (hl : machine.Legal h ev)
    (hm : mark ev = false) : Tracked mark P id (h.push ev) := by
  cases ev with
  | called p n κ =>
    intro row hrow
    rw [committedSince_push hm]
    exact ht row hrow
  | did p n e r w w' =>
    obtain ⟨rfl, hacts⟩ := acts_of_legal hl
    exact ht.did hacts hm

/-- A thread's own read is not undone by the others. -/
theorem Tracked.stable {Cond : History → Ev → Prop} {Inv : History → Prop} {p : Pid}
    (hm : ∀ ev, mark ev = true → ev.pid = p) :
    machine.Stable Cond Inv p (Tracked mark P id) := by
  intro h ev _ ht hne hl _
  refine ht.push hl ?_
  cases hmark : mark ev with
  | false => rfl
  | true => exact absurd (hm ev hmark) hne

end Tracked

/-! ## The timer's reads -/

/-- The time up to which the timer asks for leases, if that is what the event does. -/
def timerQuery : Ev → Option Time
  | .did .timer _ (.fetch _ (.getLeasedUntilHosts until_)) _ _ _ => some until_
  | _ => none

/-- The timer's newest question for leases that end. -/
def isTimerQuery (ev : Ev) : Bool := (timerQuery ev).isSome

theorem pid_of_isTimerQuery {ev : Ev} (h : isTimerQuery ev = true) : ev.pid = .timer := by
  unfold isTimerQuery timerQuery at h
  split at h
  · rfl
  · cases h

theorem timerQuery_of_ne {ev : Ev} (h : ev.pid ≠ .timer) : timerQuery ev = none := by
  cases hq : timerQuery ev with
  | none => rfl
  | some now => exact absurd (pid_of_isTimerQuery (by simp [isTimerQuery, hq])) h

/-! ## What a trace says -/

theorem mem_filterMap_push_iff {β : Type} {f : Ev → Option β} {h : History} {ev : Ev} {b : β} :
    b ∈ (h.push ev).trace.filterMap f ↔ f ev = some b ∨ b ∈ h.trace.filterMap f := by
  rw [Hist.push_trace, List.mem_filterMap, List.mem_filterMap]
  constructor
  · rintro ⟨ev', hmem, heq⟩
    rcases List.mem_cons.mp hmem with rfl | hmem
    · exact .inl heq
    · exact .inr ⟨ev', hmem, heq⟩
  · rintro (heq | ⟨ev', hmem, heq⟩)
    · exact ⟨ev, List.mem_cons_self, heq⟩
    · exact ⟨ev', List.mem_cons_of_mem _ hmem, heq⟩

/-- A trace says of what happened earlier what it said before. -/
theorem mem_filterMap_push {β : Type} {f : Ev → Option β} {h : History} {ev : Ev} {b : β}
    (hb : b ∈ h.trace.filterMap f) : b ∈ (h.push ev).trace.filterMap f :=
  mem_filterMap_push_iff.mpr (.inr hb)

theorem stable_mem_filterMap {β : Type} {f : Ev → Option β} {b : β} {Cond : History → Ev → Prop}
    {Inv : History → Prop} {p : Pid} :
    machine.Stable Cond Inv p fun h => b ∈ h.trace.filterMap f :=
  .of_mono fun _ _ hb => mem_filterMap_push hb

/-! ## Sketches that only have to keep an invariant -/

section Keep

variable {α : Type} {Cond : History → Ev → Prop} {Inv : History → Prop} {p : Pid} {n : Nat}

theorem emits_true (x : Prog Effect Effect.Res α) : x.Emits fun _ => True := by
  induction x with
  | ret a => trivial
  | op e k ih => exact ⟨trivial, ih⟩

/-- The rest of a program of which nothing more is asked. -/
theorem sketch_rest {Φ : Effect → Prop} {x : Prog Effect Effect.Res α} {A : History → Prop}
    (hx : x.Emits Φ)
    (hΦ : ∀ h e env r w', Φ e → Inv h → act p e env h.state = some (r, w') →
      Cond h (.did p n e r h.state w') → Inv (h.push (.did p n e r h.state w'))) :
    machine.Sketch Cond Inv p n (fun _ _ => True) x A :=
  (Machine.Sketch.keep hx .true fun h e env r w' he hI _ ha hc =>
    ⟨hΦ h e env r w' he hI ha hc, trivial⟩).pre fun _ _ _ => trivial

theorem sketch_silent {x : Prog Effect Effect.Res α} {A : History → Prop}
    (hx : x.Emits (Writes fun _ => False))
    (hI : ∀ h e env r w', (∀ tx x, e ≠ .execute tx x) → Inv h →
      act p e env h.state = some (r, w') → Cond h (.did p n e r h.state w') →
      Inv (h.push (.did p n e r h.state w'))) :
    machine.Sketch Cond Inv p n (fun _ _ => True) x A :=
  sketch_rest hx fun h e env r w' he => hI h e env r w' he

/-- A part of a function that keeps an assertion. -/
theorem sketch_kept {ε : Type} {Φ : Effect → Prop} {x : Task ε α} {A : History → Prop}
    (hx : Prog.Emits Φ x) (hA : machine.Stable Cond Inv p A)
    (hΦ : ∀ h e env r w', Φ e → Inv h → A h → act p e env h.state = some (r, w') →
      Cond h (.did p n e r h.state w') →
      Inv (h.push (.did p n e r h.state w')) ∧ A (h.push (.did p n e r h.state w'))) :
    machine.Sketch Cond Inv p n (onOk fun _ => A) x A :=
  (Machine.Sketch.keep hx hA hΦ).post fun r _ _ hA => by
    cases r with
    | ok a => exact hA
    | _ => trivial

theorem sketch_onOk {ε : Type} {x : Task ε α} {A : History → Prop}
    (h : machine.Sketch Cond Inv p n (fun _ _ => True) x A) :
    machine.Sketch Cond Inv p n (onOk fun _ _ => True) x A :=
  h.post fun r _ _ _ => by cases r <;> trivial

theorem sketch_of_onOk {ε : Type} {x : Task ε α} {Q : α → History → Prop} {A : History → Prop}
    (h : machine.Sketch Cond Inv p n (onOk Q) x A) :
    machine.Sketch Cond Inv p n (fun _ _ => True) x A :=
  h.post fun _ _ _ _ => trivial

end Keep

end Tachikoma
