import Tachikoma.Lib.Program

/-!
# Threads that call programs, and what holds in every interleaving

A thread is idle with a local value, or in the middle of a program; an idle thread may call a new
one. All threads share one state, and one step is one *effect* of one thread: nothing else is
atomic. The configuration keeps the **trace** of everything that happened, newest first, each
effect with the states around it, so that a property of a whole run is a property of a
configuration and an assertion may speak about the past.

## The logic

Owicki and Gries' method, over the tree of the program instead of over its text. A *sketch* of a
program (`Machine.Sketch`) gives every point of it an assertion. Three things are asked:

* the thread's own step leads from assertion to assertion and keeps the global invariant;
* no step of another thread breaks an assertion (`Machine.Stable`);
* the assertion at the end implies what the thread promises.

`Machine.Run.sound` is the theorem that pays for this: in a system all of whose calls have
sketches, the invariant holds in every configuration a run reaches, and an idle thread keeps its
promise. Runs are taken **under a condition** on the steps (`Cond`), so the same theorem serves a
property that holds always and one that holds of the runs in which some step is never taken.
-/

set_option autoImplicit false

namespace Interleaving

/-! ## Configurations -/

/-- One thing that happened: a call, or an effect with its answer and the states around it. `n`
    counts the calls of the thread. -/
inductive Event (P E : Type) (R : E → Type) (S K : Type) : Type where
  | called (p : P) (n : Nat) (κ : K)
  | did (p : P) (n : Nat) (e : E) (r : R e) (before after : S)

/-- What the threads share, and what happened so far, newest first. -/
structure Hist (P E : Type) (R : E → Type) (S K : Type) : Type where
  state : S
  trace : List (Event P E R S K)

/-- The call a thread is in (or was in last) and what is left of it. -/
structure Thread (E : Type) (R : E → Type) (L : Type) : Type where
  calls : Nat
  prog : Prog E R L

structure Config (P E : Type) (R : E → Type) (S K L : Type) : Type where
  hist : Hist P E R S K
  threads : P → Thread E R L

/-- Who moves: an idle thread calls, or a thread performs its next effect. -/
inductive Label (P C K : Type) : Type where
  | call (p : P) (κ : K)
  | act (p : P) (c : C)
  deriving DecidableEq

/-- What effects do and what calls run. -/
structure Machine (P E : Type) (R : E → Type) (C S K L : Type) : Type where
  act : P → (e : E) → C → S → Option (R e × S)
  body : K → L → Prog E R L

variable {P E C S K L α β : Type} {R : E → Type}

namespace Event

def pid : Event P E R S K → P
  | .called p _ _ => p
  | .did p _ _ _ _ _ => p

def calls : Event P E R S K → Nat
  | .called _ n _ => n
  | .did _ n _ _ _ _ => n

end Event

/-- The history after one more event. -/
def Hist.push (h : Hist P E R S K) : Event P E R S K → Hist P E R S K
  | .called p n κ => ⟨h.state, .called p n κ :: h.trace⟩
  | .did p n e r b a => ⟨a, .did p n e r b a :: h.trace⟩

@[simp] theorem Hist.push_trace (h : Hist P E R S K) (ev : Event P E R S K) :
    (h.push ev).trace = ev :: h.trace := by
  cases ev <;> rfl

@[simp] theorem Hist.push_called_state (h : Hist P E R S K) (p : P) (n : Nat) (κ : K) :
    (h.push (.called p n κ)).state = h.state := rfl

@[simp] theorem Hist.push_did_state (h : Hist P E R S K) (p : P) (n : Nat) (e : E) (r : R e)
    (b a : S) : (h.push (.did p n e r b a)).state = a := rfl

/-- The event in a system whose calls have other names. -/
def Event.mapCall {K' : Type} (f : K → K') : Event P E R S K → Event P E R S K'
  | .called p n κ => .called p n (f κ)
  | .did p n e r before after => .did p n e r before after

@[simp] theorem Event.mapCall_pid {K' : Type} (f : K → K') (ev : Event P E R S K) :
    (ev.mapCall f).pid = ev.pid := by
  cases ev <;> rfl

def Hist.mapCall {K' : Type} (f : K → K') (h : Hist P E R S K) : Hist P E R S K' :=
  ⟨h.state, h.trace.map (Event.mapCall f)⟩

theorem Hist.mapCall_push {K' : Type} (f : K → K') (h : Hist P E R S K) (ev : Event P E R S K) :
    (h.push ev).mapCall f = (h.mapCall f).push (ev.mapCall f) := by
  cases ev <;> rfl

/-- What one event does not record is as it was recorded before. -/
theorem filterMap_push {f : Event P E R S K → Option β} {h : Hist P E R S K} {ev : Event P E R S K}
    (hev : f ev = none) : (h.push ev).trace.filterMap f = h.trace.filterMap f := by
  rw [Hist.push_trace, List.filterMap_cons_none hev]

/-- What was recorded first stays so. -/
theorem getLast?_filterMap_push {f : Event P E R S K → Option β} {h : Hist P E R S K} {b : β}
    (hb : (h.trace.filterMap f).getLast? = some b) (ev : Event P E R S K) :
    ((h.push ev).trace.filterMap f).getLast? = some b := by
  cases hev : f ev with
  | none => rw [filterMap_push hev, hb]
  | some b' =>
    rw [Hist.push_trace, List.filterMap_cons_some hev]
    cases hl : h.trace.filterMap f with
    | nil => rw [hl] at hb; cases hb
    | cons x xs => rw [List.getLast?_cons_cons, ← hl, hb]

/-- The events of one thread. -/
def own [DecidableEq P] (p : P) (tr : List (Event P E R S K)) : List (Event P E R S K) :=
  tr.filter fun ev => ev.pid = p

@[simp] theorem own_cons_self [DecidableEq P] {p : P} {ev : Event P E R S K} (h : ev.pid = p)
    (tr : List (Event P E R S K)) : own p (ev :: tr) = ev :: own p tr := by
  simp [own, h]

@[simp] theorem own_cons_of_ne [DecidableEq P] {p : P} {ev : Event P E R S K} (h : ev.pid ≠ p)
    (tr : List (Event P E R S K)) : own p (ev :: tr) = own p tr := by
  simp [own, h]

namespace Machine

variable (M : Machine P E R C S K L)

/-- The event is one that can happen after the history `h`. -/
def Legal (h : Hist P E R S K) : Event P E R S K → Prop
  | .called _ _ _ => True
  | .did p _ e r b a => b = h.state ∧ ∃ env, M.act p e env b = some (r, a)

section Runs

variable [DecidableEq P]

/-- One step of a configuration; `none` when the thread is not idle, has nothing left to do, or
    has to wait. -/
def step (c : Config P E R S K L) : Label P C K → Option (Config P E R S K L)
  | .call p κ =>
    match (c.threads p).prog with
    | .ret l =>
      let n := (c.threads p).calls + 1
      some ⟨c.hist.push (.called p n κ), Function.update c.threads p ⟨n, M.body κ l⟩⟩
    | .op _ _ => none
  | .act p env =>
    match (c.threads p).prog with
    | .ret _ => none
    | .op e k =>
      let n := (c.threads p).calls
      (M.act p e env c.hist.state).map fun x =>
        ⟨c.hist.push (.did p n e x.1 c.hist.state x.2),
          Function.update c.threads p ⟨n, k x.1⟩⟩

/-- The configurations reached from `c₀` by steps that all meet `Cond`, a condition on the history
    before the step and the event it adds. -/
inductive Run (Cond : Hist P E R S K → Event P E R S K → Prop) (c₀ : Config P E R S K L) :
    Config P E R S K L → Prop where
  | refl : Run Cond c₀ c₀
  | step {c c' : Config P E R S K L} {l : Label P C K} {ev : Event P E R S K} :
      Run Cond c₀ c → M.step c l = some c' → c'.hist = c.hist.push ev → Cond c.hist ev →
      Run Cond c₀ c'

/-- What one step does: a call by an idle thread, or an effect performed by `act`. -/
theorem step_cases {c c' : Config P E R S K L} {l : Label P C K} (h : M.step c l = some c') :
    (∃ p κ a, l = .call p κ ∧ (c.threads p).prog = .ret a ∧
      c' = ⟨c.hist.push (.called p ((c.threads p).calls + 1) κ),
        Function.update c.threads p ⟨(c.threads p).calls + 1, M.body κ a⟩⟩) ∨
    (∃ p env e k r s', l = .act p env ∧ (c.threads p).prog = .op e k ∧
      M.act p e env c.hist.state = some (r, s') ∧
      c' = ⟨c.hist.push (.did p (c.threads p).calls e r c.hist.state s'),
        Function.update c.threads p ⟨(c.threads p).calls, k r⟩⟩) := by
  cases l with
  | call p κ =>
    simp only [step] at h
    cases hp : (c.threads p).prog with
    | ret a =>
      rw [hp] at h
      exact .inl ⟨p, κ, a, rfl, hp, (Option.some.inj h).symm⟩
    | op e k => rw [hp] at h; cases h
  | act p env =>
    simp only [step] at h
    cases hp : (c.threads p).prog with
    | ret a => rw [hp] at h; cases h
    | op e k =>
      rw [hp] at h
      simp only [Option.map_eq_some_iff] at h
      obtain ⟨⟨r, s'⟩, ha, hc⟩ := h
      exact .inr ⟨p, env, e, k, r, s', rfl, hp, ha, hc.symm⟩

theorem Run.mono {Cond Cond' : Hist P E R S K → Event P E R S K → Prop}
    (hc : ∀ h ev, Cond h ev → Cond' h ev) {c₀ c : Config P E R S K L} (h : M.Run Cond c₀ c) :
    M.Run Cond' c₀ c := by
  induction h with
  | refl => exact .refl
  | step _ hs he hcond ih => exact .step ih hs he (hc _ _ hcond)

/-- Nothing that has happened is forgotten. -/
theorem Run.mem_trace {Cond : Hist P E R S K → Event P E R S K → Prop}
    {c₀ c : Config P E R S K L} (h : M.Run Cond c₀ c) {ev : Event P E R S K}
    (hev : ev ∈ c₀.hist.trace) : ev ∈ c.hist.trace := by
  induction h with
  | refl => exact hev
  | step _ _ hpush _ ih =>
    rw [hpush, Hist.push_trace]
    exact List.mem_cons_of_mem _ ih

/-- A thread has numbered its events by its calls so far. -/
def Numbered (c : Config P E R S K L) : Prop :=
  ∀ ev ∈ c.hist.trace, ev.calls ≤ (c.threads ev.pid).calls

theorem Run.numbered {Cond : Hist P E R S K → Event P E R S K → Prop}
    {c₀ c : Config P E R S K L} (h : M.Run Cond c₀ c) (h₀ : Numbered c₀) : Numbered c := by
  induction h with
  | refl => exact h₀
  | @step c c' l ev _ hs _ _ ih =>
    obtain ⟨p, κ, a, rfl, hp, rfl⟩ | ⟨p, env, e, k, r, s', rfl, hp, ha, rfl⟩ := M.step_cases hs
    · intro ev hev
      rw [Hist.push_trace] at hev
      rcases List.mem_cons.mp hev with rfl | hev
      · simp [Event.calls, Event.pid]
      · have hle := ih ev hev
        by_cases hq : ev.pid = p
        · rw [hq] at hle ⊢
          simp only [Function.update_self]
          omega
        · simpa only [Function.update_of_ne hq] using hle
    · intro ev hev
      rw [Hist.push_trace] at hev
      rcases List.mem_cons.mp hev with rfl | hev
      · simp [Event.calls, Event.pid]
      · have hle := ih ev hev
        by_cases hq : ev.pid = p
        · rw [hq] at hle ⊢
          simpa only [Function.update_self] using hle
        · simpa only [Function.update_of_ne hq] using hle

theorem Run.trans {Cond : Hist P E R S K → Event P E R S K → Prop}
    {c₀ c₁ c₂ : Config P E R S K L} (h₁ : M.Run Cond c₀ c₁) (h₂ : M.Run Cond c₁ c₂) :
    M.Run Cond c₀ c₂ := by
  induction h₂ with
  | refl => exact h₁
  | step _ hs he hcond ih => exact .step ih hs he hcond

/-- A thread that is idle can call. -/
theorem Run.of_call {Cond : Hist P E R S K → Event P E R S K → Prop} {c : Config P E R S K L}
    {p : P} {l : L} {κ : K} (hp : (c.threads p).prog = .ret l)
    (hcond : Cond c.hist (.called p ((c.threads p).calls + 1) κ)) :
    M.Run Cond c ⟨c.hist.push (.called p ((c.threads p).calls + 1) κ),
      Function.update c.threads p ⟨(c.threads p).calls + 1, M.body κ l⟩⟩ := by
  have hstep : M.step c (.call p κ) = some ⟨c.hist.push (.called p ((c.threads p).calls + 1) κ),
      Function.update c.threads p ⟨(c.threads p).calls + 1, M.body κ l⟩⟩ := by
    simp only [Machine.step, hp]
  exact Run.step .refl hstep rfl hcond

/-- One that has an effect to perform can perform it, if it does not have to wait. -/
theorem Run.of_act {Cond : Hist P E R S K → Event P E R S K → Prop} {c : Config P E R S K L} {p : P}
    {e : E} {k : R e → Prog E R L} {env : C} {r : R e} {s' : S} (hp : (c.threads p).prog = .op e k)
    (ha : M.act p e env c.hist.state = some (r, s'))
    (hcond : Cond c.hist (.did p (c.threads p).calls e r c.hist.state s')) :
    M.Run Cond c ⟨c.hist.push (.did p (c.threads p).calls e r c.hist.state s'),
      Function.update c.threads p ⟨(c.threads p).calls, k r⟩⟩ := by
  have hstep : M.step c (.act p env) =
      some ⟨c.hist.push (.did p (c.threads p).calls e r c.hist.state s'),
        Function.update c.threads p ⟨(c.threads p).calls, k r⟩⟩ := by
    simp only [Machine.step, hp, ha, Option.map_some]
  exact Run.step .refl hstep rfl hcond

/-- The steps that call only what `ok` allows. -/
def Calling (ok : P → K → Prop) (_ : Hist P E R S K) : Event P E R S K → Prop
  | .called p _ κ => ok p κ
  | .did .. => True

instance (ok : P → K → Prop) [∀ p κ, Decidable (ok p κ)] (h : Hist P E R S K)
    (ev : Event P E R S K) : Decidable (Calling ok h ev) := by
  cases ev with
  | called p n κ => exact inferInstanceAs (Decidable (ok p κ))
  | did => exact inferInstanceAs (Decidable True)

/-- The steps of a list of labels, in order, if all of them meet the condition. -/
def exec (Cond : Hist P E R S K → Event P E R S K → Prop) [∀ h ev, Decidable (Cond h ev)] :
    List (Label P C K) → Config P E R S K L → Option (Config P E R S K L)
  | [], c => some c
  | l :: ls, c =>
    match M.step c l with
    | none => none
    | some c' =>
      match c'.hist.trace with
      | [] => none
      | ev :: _ => if Cond c.hist ev then exec Cond ls c' else none

/-- What one step adds to the history is one event. -/
theorem exists_push_of_step {c c' : Config P E R S K L} {l : Label P C K}
    (h : M.step c l = some c') : ∃ ev, c'.hist = c.hist.push ev := by
  obtain ⟨p, κ, a, -, -, rfl⟩ | ⟨p, env, e, k, r, s', -, -, -, rfl⟩ := M.step_cases h
  · exact ⟨.called p ((c.threads p).calls + 1) κ, rfl⟩
  · exact ⟨.did p (c.threads p).calls e r c.hist.state s', rfl⟩

/-- And it is one that could happen. -/
theorem legal_of_step {c c' : Config P E R S K L} {l : Label P C K} {ev : Event P E R S K}
    (h : M.step c l = some c') (he : c'.hist = c.hist.push ev) : M.Legal c.hist ev := by
  have heq : ∀ ev', c'.hist = c.hist.push ev' → ev' = ev := by
    intro ev' he'
    have htrace := congrArg Hist.trace (he'.symm.trans he)
    rw [Hist.push_trace, Hist.push_trace] at htrace
    exact (List.cons.inj htrace).1
  obtain ⟨p, κ, a, -, -, rfl⟩ | ⟨p, env, e, k, r, s', -, -, ha, rfl⟩ := M.step_cases h
  · rw [← heq (.called p ((c.threads p).calls + 1) κ) rfl]
    trivial
  · rw [← heq (.did p (c.threads p).calls e r c.hist.state s') rfl]
    exact ⟨rfl, env, ha⟩

/-- An event of a run could happen at some moment of it. -/
theorem Run.exists_before {Cond : Hist P E R S K → Event P E R S K → Prop}
    {c₀ c : Config P E R S K L} (h : M.Run Cond c₀ c) {ev : Event P E R S K}
    (hev : ev ∈ c.hist.trace) (h₀ : ev ∉ c₀.hist.trace) :
    ∃ c₁, M.Run Cond c₀ c₁ ∧ M.Run Cond c₁ c ∧ M.Legal c₁.hist ev := by
  induction h with
  | refl => exact absurd hev h₀
  | @step c c' l ev' hrun hs he hcond ih =>
    rw [he, Hist.push_trace] at hev
    rcases List.mem_cons.mp hev with rfl | hev
    · exact ⟨c, hrun, .step .refl hs he hcond, M.legal_of_step hs he⟩
    · obtain ⟨c₁, hrun₁, hrun₂, hlegal⟩ := ih hev
      exact ⟨c₁, hrun₁, .step hrun₂ hs he hcond, hlegal⟩

/-- What a thread can still end with, from what its calls can end with; `can` says which answers
    there are. -/
theorem Run.returnsIf {Cond : Hist P E R S K → Event P E R S K → Prop} {c₀ c : Config P E R S K L}
    (h : M.Run Cond c₀ c) {can : (e : E) → R e → Prop} {Q : L → Prop}
    (h₀ : ∀ p, (c₀.threads p).prog.ReturnsIf can Q)
    (hcan : ∀ p e env s r s', M.act p e env s = some (r, s') → can e r)
    (hbody : ∀ κ l, Q l → (M.body κ l).ReturnsIf can Q) (p : P) :
    (c.threads p).prog.ReturnsIf can Q := by
  induction h with
  | refl => exact h₀ p
  | @step c c' l ev _ hs _ _ ih =>
    obtain ⟨q, κ, a, rfl, hq, rfl⟩ | ⟨q, env, e, k, r, s', rfl, hq, ha, rfl⟩ := M.step_cases hs
    · by_cases hp : p = q
      · subst hp
        rw [hq] at ih
        simpa only [Function.update_self] using hbody κ a ih
      · simpa only [Function.update_of_ne hp] using ih
    · by_cases hp : p = q
      · subst hp
        rw [hq] at ih
        simpa only [Function.update_self] using ih r (hcan p e env _ r s' ha)
      · simpa only [Function.update_of_ne hp] using ih

/-- A run has been wherever its trace has been. -/
theorem Run.exists_at {Cond : Hist P E R S K → Event P E R S K → Prop}
    {c₀ c : Config P E R S K L} (h : M.Run Cond c₀ c) {newer older : List (Event P E R S K)}
    (htrace : c.hist.trace = newer ++ older) (h₀ : c₀.hist.trace <:+ older) :
    ∃ c₁, M.Run Cond c₀ c₁ ∧ M.Run Cond c₁ c ∧ c₁.hist.trace = older := by
  induction h generalizing newer with
  | refl =>
    have hsuffix : older <:+ c₀.hist.trace := ⟨newer, htrace.symm⟩
    exact ⟨c₀, .refl, .refl, h₀.eq_of_length_le hsuffix.length_le⟩
  | @step c c' l ev hrun hs he hcond ih =>
    cases newer with
    | nil => exact ⟨c', .step hrun hs he hcond, .refl, htrace⟩
    | cons ev' newer =>
      rw [he, Hist.push_trace] at htrace
      obtain ⟨c₁, hrun₁, hrun₂, htrace₁⟩ := ih (List.cons.inj htrace).2
      exact ⟨c₁, hrun₁, .step hrun₂ hs he hcond, htrace₁⟩

/-- The executable run is a run. -/
theorem run_of_exec {Cond : Hist P E R S K → Event P E R S K → Prop}
    [∀ h ev, Decidable (Cond h ev)] {ls : List (Label P C K)} {c c' : Config P E R S K L}
    (h : M.exec Cond ls c = some c') : M.Run Cond c c' := by
  induction ls generalizing c with
  | nil =>
    cases Option.some.inj h
    exact .refl
  | cons l ls ih =>
    rw [exec] at h
    split at h
    · cases h
    · rename_i c₁ hs
      obtain ⟨ev, hev⟩ := M.exists_push_of_step hs
      split at h
      · cases h
      · rename_i ev' tr htr
        split at h
        · rename_i hcond
          have hhead : ev' = ev := by
            rw [hev, Hist.push_trace] at htr
            exact (List.cons.inj htr).1.symm
          subst hhead
          exact (Run.step .refl hs hev hcond).trans M (ih h)
        · cases h

/-- A configuration with the property `p` at the end of an executable run. -/
theorem exists_run_of_exec (Cond : Hist P E R S K → Event P E R S K → Prop)
    [∀ h ev, Decidable (Cond h ev)] (c : Config P E R S K L) (ls : List (Label P C K))
    (p : Config P E R S K L → Bool) (h : (M.exec Cond ls c).map p = some true) :
    ∃ c', M.Run Cond c c' ∧ p c' = true := by
  obtain ⟨c', hr, hp⟩ := Option.map_eq_some_iff.mp h
  exact ⟨c', M.run_of_exec hr, hp⟩

end Runs

/-! ## Assertions and sketches -/

section Sketch

variable (Cond : Hist P E R S K → Event P E R S K → Prop) (Inv : Hist P E R S K → Prop)

/-- No step of a thread other than `p` breaks the assertion. -/
def Stable (p : P) (A : Hist P E R S K → Prop) : Prop :=
  ∀ h ev, Inv h → A h → ev.pid ≠ p → M.Legal h ev → Cond h ev → A (h.push ev)

/-- The program of `p`, in its `n`-th call, started under the assertion `A`, keeps the invariant at
    every step of its own and ends under `Q`; the assertions in between are stable. -/
def Sketch (p : P) (n : Nat) (Q : α → Hist P E R S K → Prop) :
    Prog E R α → (Hist P E R S K → Prop) → Prop
  | .ret a, A => ∀ h, Inv h → A h → Q a h
  | .op e k, A => ∃ B : R e → Hist P E R S K → Prop, (∀ r, M.Stable Cond Inv p (B r)) ∧
      (∀ h env r s', Inv h → A h → M.act p e env h.state = some (r, s') →
        Cond h (.did p n e r h.state s') →
        Inv (h.push (.did p n e r h.state s')) ∧ B r (h.push (.did p n e r h.state s'))) ∧
      ∀ r, Sketch p n Q (k r) (B r)

variable {M Cond Inv} {p : P} {n : Nat}

theorem Stable.and {A B : Hist P E R S K → Prop} (hA : M.Stable Cond Inv p A)
    (hB : M.Stable Cond Inv p B) : M.Stable Cond Inv p fun h => A h ∧ B h :=
  fun h ev hI hAB hne hl hc => ⟨hA h ev hI hAB.1 hne hl hc, hB h ev hI hAB.2 hne hl hc⟩

theorem Stable.true : M.Stable Cond Inv p fun _ => True := fun _ _ _ _ _ _ _ => trivial

theorem Stable.const {A : Prop} : M.Stable Cond Inv p fun _ => A := fun _ _ _ hA _ _ _ => hA

theorem Stable.forall {ι : Sort*} {A : ι → Hist P E R S K → Prop}
    (hA : ∀ i, M.Stable Cond Inv p (A i)) : M.Stable Cond Inv p fun h => ∀ i, A i h :=
  fun h ev hI hAll hne hl hc i => hA i h ev hI (hAll i) hne hl hc

theorem Stable.imp_const {A : Prop} {B : Hist P E R S K → Prop} (hB : M.Stable Cond Inv p B) :
    M.Stable Cond Inv p fun h => A → B h :=
  fun h ev hI hAB hne hl hc hA => hB h ev hI (hAB hA) hne hl hc

/-- What no further event can undo is stable. -/
theorem Stable.of_mono {A : Hist P E R S K → Prop} (h : ∀ h ev, A h → A (h.push ev)) :
    M.Stable Cond Inv p A := fun g ev _ hA _ _ _ => h g ev hA

theorem Stable.mem {ev : Event P E R S K} : M.Stable Cond Inv p fun h => ev ∈ h.trace :=
  .of_mono fun h ev' hev => by rw [Hist.push_trace]; exact List.mem_cons_of_mem ev' hev

/-- What is said of a thread's own events only is stable. -/
theorem Stable.own [DecidableEq P] {A : List (Event P E R S K) → Prop} :
    M.Stable Cond Inv p fun h => A (own p h.trace) := by
  intro h ev _ hA hne _ _
  simpa only [Hist.push_trace, own_cons_of_ne hne] using hA

theorem Sketch.pre {Q : α → Hist P E R S K → Prop} {x : Prog E R α}
    {A A' : Hist P E R S K → Prop} (hx : M.Sketch Cond Inv p n Q x A)
    (hA : ∀ h, Inv h → A' h → A h) : M.Sketch Cond Inv p n Q x A' := by
  cases x with
  | ret a => exact fun h hI hA' => hx h hI (hA h hI hA')
  | op e k =>
    obtain ⟨B, hst, hstep, hk⟩ := hx
    exact ⟨B, hst, fun h env r s' hI hA' => hstep h env r s' hI (hA h hI hA'), hk⟩

theorem Sketch.post {Q Q' : α → Hist P E R S K → Prop} {x : Prog E R α}
    {A : Hist P E R S K → Prop} (hx : M.Sketch Cond Inv p n Q x A)
    (hQ : ∀ a h, Inv h → Q a h → Q' a h) : M.Sketch Cond Inv p n Q' x A := by
  induction x generalizing A with
  | ret a => exact fun h hI hA => hQ a h hI (hx h hI hA)
  | op e k ih =>
    obtain ⟨B, hst, hstep, hk⟩ := hx
    exact ⟨B, hst, hstep, fun r => ih r (hk r)⟩

/-- Sequencing: the second program starts under what the first ended with. -/
theorem Sketch.bind {Q : α → Hist P E R S K → Prop} {Q' : β → Hist P E R S K → Prop}
    {x : Prog E R α} {f : α → Prog E R β} {A : Hist P E R S K → Prop}
    (hx : M.Sketch Cond Inv p n Q x A) (hf : ∀ a, M.Sketch Cond Inv p n Q' (f a) (Q a)) :
    M.Sketch Cond Inv p n Q' (x.bind f) A := by
  induction x generalizing A with
  | ret a => exact (hf a).pre hx
  | op e k ih =>
    obtain ⟨B, hst, hstep, hk⟩ := hx
    exact ⟨B, hst, hstep, fun r => ih r (hk r)⟩

/-- A program whose every effect keeps the invariant and a stable assertion needs no other. -/
theorem Sketch.keep {Φ : E → Prop} {x : Prog E R α} {A : Hist P E R S K → Prop} (hx : x.Emits Φ)
    (hA : M.Stable Cond Inv p A)
    (hΦ : ∀ h e env r s', Φ e → Inv h → A h → M.act p e env h.state = some (r, s') →
      Cond h (.did p n e r h.state s') →
      Inv (h.push (.did p n e r h.state s')) ∧ A (h.push (.did p n e r h.state s'))) :
    M.Sketch Cond Inv p n (fun _ => A) x A := by
  induction x with
  | ret a => exact fun _ _ h => h
  | op e k ih =>
    exact ⟨fun _ => A, fun _ => hA, fun h env r s' hI hA ha hc => hΦ h e env r s' hx.1 hI hA ha hc,
      fun r => ih r (hx.2 r)⟩

/-- What a program can end with needs no assertions either. -/
theorem Sketch.of_returns {Q : α → Prop} {x : Prog E R α} (hx : x.Returns Q) :
    M.Sketch Cond (fun _ => True) p n (fun a _ => Q a) x fun _ => True := by
  induction x with
  | ret a => exact fun _ _ _ => hx
  | op e k ih =>
    exact ⟨fun _ _ => True, fun _ => .true, fun _ _ _ _ _ _ _ _ => ⟨trivial, trivial⟩,
      fun r => ih r (hx r)⟩

theorem Sketch.of_false {Q : α → Hist P E R S K → Prop} {x : Prog E R α} :
    M.Sketch Cond Inv p n Q x fun _ => False := by
  induction x with
  | ret a => exact fun _ _ h => h.elim
  | op e k ih =>
    exact ⟨fun _ _ => False, fun _ => .const, fun _ _ _ _ _ h => h.elim, ih⟩

/-- What an assertion says that is no matter of the history may be assumed. -/
theorem Sketch.of_fact {F : Prop} {Q : α → Hist P E R S K → Prop} {x : Prog E R α}
    {A : Hist P E R S K → Prop} (hx : F → M.Sketch Cond Inv p n Q x A) :
    M.Sketch Cond Inv p n Q x fun h => A h ∧ F := by
  by_cases hF : F
  · exact (hx hF).pre fun _ _ h => h.1
  · exact Sketch.of_false.pre fun _ _ h => hF h.2

/-- One effect; its answer is all that is left of it. -/
theorem Sketch.effect {e : E} {g : R e → α} {Q : α → Hist P E R S K → Prop}
    {A : Hist P E R S K → Prop} (hQ : ∀ r, M.Stable Cond Inv p (Q (g r)))
    (hstep : ∀ h env r s', Inv h → A h → M.act p e env h.state = some (r, s') →
      Cond h (.did p n e r h.state s') →
      Inv (h.push (.did p n e r h.state s')) ∧ Q (g r) (h.push (.did p n e r h.state s'))) :
    M.Sketch Cond Inv p n Q (.op e fun r => .ret (g r)) A :=
  ⟨fun r => Q (g r), hQ, hstep, fun _ _ _ h => h⟩

/-- What no event can undo is kept by every program. -/
theorem Sketch.frame {Q : α → Hist P E R S K → Prop} {x : Prog E R α}
    {A F : Hist P E R S K → Prop} (hx : M.Sketch Cond Inv p n Q x A)
    (hF : ∀ h ev, F h → F (h.push ev)) :
    M.Sketch Cond Inv p n (fun a h => Q a h ∧ F h) x fun h => A h ∧ F h := by
  induction x generalizing A with
  | ret a => exact fun h hI hA => ⟨hx h hI hA.1, hA.2⟩
  | op e k ih =>
    obtain ⟨B, hst, hstep, hk⟩ := hx
    refine ⟨fun r h => B r h ∧ F h, fun r => (hst r).and (.of_mono hF), ?_, fun r => ih r (hk r)⟩
    intro h env r s' hI hA ha hc
    obtain ⟨hI', hB⟩ := hstep h env r s' hI hA.1 ha hc
    exact ⟨hI', hB, hF _ _ hA.2⟩

/-- Two sketches of one program, one of them without an invariant, are one sketch. -/
theorem Sketch.and {Q₁ Q₂ : α → Hist P E R S K → Prop} {x : Prog E R α}
    {A₁ A₂ : Hist P E R S K → Prop} (h₁ : M.Sketch Cond (fun _ => True) p n Q₁ x A₁)
    (h₂ : M.Sketch Cond Inv p n Q₂ x A₂) :
    M.Sketch Cond Inv p n (fun a h => Q₁ a h ∧ Q₂ a h) x fun h => A₁ h ∧ A₂ h := by
  induction x generalizing A₁ A₂ with
  | ret a => exact fun h hI hA => ⟨h₁ h trivial hA.1, h₂ h hI hA.2⟩
  | op e k ih =>
    obtain ⟨B₁, hst₁, hstep₁, hk₁⟩ := h₁
    obtain ⟨B₂, hst₂, hstep₂, hk₂⟩ := h₂
    refine ⟨fun r h => B₁ r h ∧ B₂ r h, fun r => ?_, fun h env r s' hI hA ha hc => ?_,
      fun r => ih r (hk₁ r) (hk₂ r)⟩
    · intro h ev hI hB hne hl hc
      exact ⟨hst₁ r h ev trivial hB.1 hne hl hc, hst₂ r h ev hI hB.2 hne hl hc⟩
    · have hs₁ := hstep₁ h env r s' trivial hA.1 ha hc
      have hs₂ := hstep₂ h env r s' hI hA.2 ha hc
      exact ⟨hs₂.1, hs₁.2, hs₂.2⟩

/-! ## Systems with other calls

A sketch says what the effects of one program do among any others, so it holds in every system with
the same effects. Only the events of the calls have other names there. -/

section MapCall

variable {K' L' : Type} {M' : Machine P E R C S K' L'} {f : K' → K}

theorem Legal.mapCall (hact : M'.act = M.act) {h : Hist P E R S K'} {ev : Event P E R S K'}
    (hl : M'.Legal h ev) : M.Legal (h.mapCall f) (ev.mapCall f) := by
  cases ev with
  | called p n κ => exact hl
  | did p n e r b a =>
    obtain ⟨hb, env, ha⟩ := hl
    exact ⟨hb, env, by rw [← hact]; exact ha⟩

theorem Stable.mapCall (hact : M'.act = M.act) {A : Hist P E R S K → Prop}
    (hA : M.Stable Cond Inv p A) :
    M'.Stable (fun h ev => Cond (h.mapCall f) (ev.mapCall f)) (fun h => Inv (h.mapCall f)) p
      fun h => A (h.mapCall f) := by
  intro h ev hI hAh hne hl hc
  show A ((h.push ev).mapCall f)
  rw [Hist.mapCall_push]
  apply hA (h.mapCall f) (ev.mapCall f) hI hAh _ (hl.mapCall hact) hc
  rw [Event.mapCall_pid]
  exact hne

/-- A sketch in one system is a sketch in every system with the same effects. -/
theorem Sketch.mapCall (hact : M'.act = M.act) {Q : α → Hist P E R S K → Prop} {x : Prog E R α}
    {A : Hist P E R S K → Prop} (hx : M.Sketch Cond Inv p n Q x A) :
    M'.Sketch (fun h ev => Cond (h.mapCall f) (ev.mapCall f)) (fun h => Inv (h.mapCall f)) p n
      (fun a h => Q a (h.mapCall f)) x fun h => A (h.mapCall f) := by
  induction x generalizing A with
  | ret a => exact fun h hI hA => hx (h.mapCall f) hI hA
  | op e k ih =>
    obtain ⟨B, hst, hstep, hk⟩ := hx
    refine ⟨fun r h => B r (h.mapCall f), fun r => (hst r).mapCall hact, ?_, fun r => ih r (hk r)⟩
    intro h env r s' hI hA ha hc
    rw [hact] at ha
    exact hstep (h.mapCall f) env r s' hI hA ha hc

end MapCall

/-! ## Soundness -/

variable (M Cond Inv) in
/-- Every thread is at a point of a sketch whose assertion holds. -/
def Sketched (Post : P → Nat → L → Hist P E R S K → Prop) (c : Config P E R S K L) : Prop :=
  ∀ p, ∃ A, M.Stable Cond Inv p A ∧ A c.hist ∧
    M.Sketch Cond Inv p (c.threads p).calls (Post p (c.threads p).calls) (c.threads p).prog A

variable (Inv) in
/-- **Soundness.** If every call that `Cond` lets happen keeps the invariant and has a sketch from
    what an idle thread promises, then every configuration a run reaches satisfies the invariant,
    and its threads are where their sketches say. -/
theorem Run.sound [DecidableEq P] (Post : P → Nat → L → Hist P E R S K → Prop)
    {c₀ c : Config P E R S K L} (hrun : M.Run Cond c₀ c) (hnum : Numbered c₀) (hinv : Inv c₀.hist)
    (hthreads : M.Sketched Cond Inv Post c₀)
    (hcall : ∀ p n κ a h, (∀ ev ∈ h.trace, ev.pid = p → ev.calls ≤ n) → Inv h → Post p n a h →
      Cond h (.called p (n + 1) κ) →
      Inv (h.push (.called p (n + 1) κ)) ∧
        ∃ A, M.Stable Cond Inv p A ∧ A (h.push (.called p (n + 1) κ)) ∧
          M.Sketch Cond Inv p (n + 1) (Post p (n + 1)) (M.body κ a) A) :
    Inv c.hist ∧ M.Sketched Cond Inv Post c := by
  induction hrun with
  | refl => exact ⟨hinv, hthreads⟩
  | @step c c' l ev hpre hs he hcond ih =>
    obtain ⟨hI, hT⟩ := ih
    obtain ⟨p, κ, a, rfl, hp, rfl⟩ | ⟨p, env, e, k, r, s', rfl, hp, ha, rfl⟩ := M.step_cases hs
    · -- A call: the promise of the idle thread is what the new sketch starts from.
      have hev : ev = .called p ((c.threads p).calls + 1) κ := by
        have := congrArg Hist.trace he
        simp only [Hist.push_trace, List.cons.injEq] at this
        exact this.1.symm
      subst hev
      obtain ⟨A, _, hA, hsk⟩ := hT p
      rw [hp] at hsk
      have hpast : ∀ ev ∈ c.hist.trace, ev.pid = p → ev.calls ≤ (c.threads p).calls :=
        fun ev hev hp => hp ▸ hpre.numbered M hnum ev hev
      obtain ⟨hI', hnew⟩ := hcall p _ κ a c.hist hpast hI (hsk _ hI hA) hcond
      refine ⟨hI', fun q => ?_⟩
      by_cases hq : q = p
      · subst hq; simpa using hnew
      · obtain ⟨B, hst, hB, hskB⟩ := hT q
        simp only [Function.update_of_ne hq]
        exact ⟨B, hst, hst _ _ hI hB (Ne.symm hq) trivial hcond, hskB⟩
    · -- An effect: the thread's own sketch moves on, the other assertions are stable.
      have hev : ev = .did p (c.threads p).calls e r c.hist.state s' := by
        have := congrArg Hist.trace he
        simp only [Hist.push_trace, List.cons.injEq] at this
        exact this.1.symm
      subst hev
      obtain ⟨A, _, hA, hsk⟩ := hT p
      rw [hp] at hsk
      obtain ⟨B, hst, hstep, hk⟩ := hsk
      obtain ⟨hI', hB⟩ := hstep c.hist env r s' hI hA ha hcond
      refine ⟨hI', fun q => ?_⟩
      by_cases hq : q = p
      · subst hq
        simp only [Function.update_self]
        exact ⟨B r, hst r, hB, hk r⟩
      · obtain ⟨D, hstD, hD, hskD⟩ := hT q
        simp only [Function.update_of_ne hq]
        exact ⟨D, hstD, hstD _ _ hI hD (Ne.symm hq) ⟨rfl, env, ha⟩ hcond, hskD⟩

/-- What an idle thread promises holds. -/
theorem Sketched.idle {Post : P → Nat → L → Hist P E R S K → Prop} {c : Config P E R S K L}
    (h : M.Sketched Cond Inv Post c) (hI : Inv c.hist) {p : P} {a : L}
    (hp : (c.threads p).prog = .ret a) : Post p (c.threads p).calls a c.hist := by
  obtain ⟨A, _, hA, hsk⟩ := h p
  rw [hp] at hsk
  exact hsk _ hI hA

end Sketch

end Machine

end Interleaving
