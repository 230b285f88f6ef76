import Tachikoma.Lib.Discipline

/-!
# Systems that come to rest

Threads that wait for one another can wait forever. They do not if who waits holds nothing that
another one waits for: then those who hold something can always go on, and when nobody holds
anything any more, the rest can end one after the other. `Machine.Drainable` asks for this, thread
by thread and effect by effect, of threads that obey a discipline; `Machine.Drainable.drain` is the
consequence for runs: from every configuration reached there is a way, on which no thread makes
another call, to one in which all threads are idle and nobody holds anything.
-/

set_option autoImplicit false

namespace Interleaving

variable {P E C S K L σ : Type} {R : E → Type} [DecidableEq P]

namespace Machine

variable {M : Machine P E R C S K L} {Cond Quiet : Hist P E R S K → Event P E R S K → Prop}
  {D : Discipline E R σ} {Z : P → Hist P E R S K → Prop}
  {A : P → Nat → K → σ → Hist P E R S K → Prop} {Q : K → σ → L → Prop} {Clear : P → S → Prop}

/-- Who holds nothing (`Clear`) may have to wait, but only for those who hold something; and these
    do not have to wait. The steps meant are those that meet `Quiet`. -/
structure Drainable (M : Machine P E R C S K L) (Quiet : Hist P E R S K → Event P E R S K → Prop)
    (D : Discipline E R σ) (Z : P → Hist P E R S K → Prop)
    (A : P → Nat → K → σ → Hist P E R S K → Prop) (Q : K → σ → L → Prop) (Clear : P → S → Prop) :
    Prop where
  idle : ∀ {p h}, Z p h → Clear p h.state
  ended : ∀ {p n κ s h l}, A p n κ s h → Q κ s l → Clear p h.state
  others : ∀ {p e env s r s' q}, M.act p e env s = some (r, s') → q ≠ p → Clear q s → Clear q s'
  holds : ∀ {p n κ s h e}, A p n κ s h → D.allows s e → ¬ Clear p h.state →
    ∃ env r s', M.act p e env h.state = some (r, s') ∧ Quiet h (.did p n e r h.state s')
  alone : ∀ {p n κ s h e}, A p n κ s h → D.allows s e → (∀ q, q ≠ p → Clear q h.state) →
    ∃ env r s', M.act p e env h.state = some (r, s') ∧ Quiet h (.did p n e r h.state s')

/-- Only finitely many threads have done anything. -/
theorem Run.exists_active {c₀ c : Config P E R S K L} (hrun : M.Run Cond c₀ c) :
    ∃ ps : List P, ∀ p, p ∉ ps → c.threads p = c₀.threads p := by
  induction hrun with
  | refl => exact ⟨[], fun _ _ => rfl⟩
  | @step c c' l ev _ hs _ _ ih =>
    obtain ⟨ps, hps⟩ := ih
    have hone : ∃ p x, c'.threads = Function.update c.threads p x := by
      obtain ⟨p, κ, a, -, -, rfl⟩ | ⟨p, env, e, k, r, s', -, -, -, rfl⟩ := M.step_cases hs
      · exact ⟨p, _, rfl⟩
      · exact ⟨p, _, rfl⟩
    obtain ⟨p, x, hx⟩ := hone
    refine ⟨p :: ps, fun q hq => ?_⟩
    rw [List.mem_cons, not_or] at hq
    rw [hx, Function.update_of_ne hq.1]
    exact hps q hq.2

namespace Drainable

variable (hd : M.Drainable Quiet D Z A Q Clear) {c : Config P E R S K L}

include hd

omit [DecidableEq P] in
/-- An idle thread holds nothing. -/
theorem clear_of_idle {p : P} {l : L} (hp : Disciplined D Z A Q c p)
    (hl : (c.threads p).prog = .ret l) : Clear p c.hist.state := by
  rcases hp with ⟨-, hz⟩ | ⟨κ, s, ha, hobeys⟩
  · exact hd.idle hz
  · rw [hl] at hobeys
    exact hd.ended ha hobeys

/-- A thread that need not wait performs its next effect; the others are where they were, and hold
    nothing that they did not hold. -/
theorem exists_act {p : P} {e : E} {k : R e → Prog E R L} (hp : (c.threads p).prog = .op e k)
    (hact : ∃ env r s', M.act p e env c.hist.state = some (r, s') ∧
      Quiet c.hist (.did p (c.threads p).calls e r c.hist.state s')) :
    ∃ c' r, M.Run Quiet c c' ∧ (c'.threads p).prog = k r ∧
      (∀ q, q ≠ p → c'.threads q = c.threads q) ∧
      ∀ q, q ≠ p → Clear q c.hist.state → Clear q c'.hist.state := by
  obtain ⟨env, r, s', ha, hquiet⟩ := hact
  refine ⟨_, r, Run.of_act M hp ha hquiet, ?_, fun q hq => ?_, fun q hq hclear => ?_⟩
  · simp only [Function.update_self]
  · simp only [Function.update_of_ne hq]
  · exact hd.others ha hq hclear

/-- A thread that holds something goes on until it holds nothing. -/
theorem exists_clear (hstaged : ∀ c', M.Run Quiet c c' → ∀ p, Disciplined D Z A Q c' p) (p : P) :
    ∃ c', M.Run Quiet c c' ∧ Clear p c'.hist.state ∧ (∀ q, q ≠ p → c'.threads q = c.threads q) ∧
      ∀ q, q ≠ p → Clear q c.hist.state → Clear q c'.hist.state := by
  generalize hx : (c.threads p).prog = x
  induction x generalizing c with
  | ret l =>
    exact ⟨c, .refl, hd.clear_of_idle (hstaged c .refl p) hx, fun _ _ => rfl, fun _ _ h => h⟩
  | op e k ih =>
    by_cases hclear : Clear p c.hist.state
    · exact ⟨c, .refl, hclear, fun _ _ => rfl, fun _ _ h => h⟩
    · rcases hstaged c .refl p with ⟨-, hz⟩ | ⟨κ, s, ha, hobeys⟩
      · exact absurd (hd.idle hz) hclear
      · rw [hx] at hobeys
        obtain ⟨c₁, r, hrun, hk, hthreads, hclears⟩ :=
          hd.exists_act hx (hd.holds ha hobeys.1 hclear)
        obtain ⟨c₂, hrun₂, hclear₂, hthreads₂, hclears₂⟩ :=
          ih r (fun c' h => hstaged c' (hrun.trans _ h)) hk
        refine ⟨c₂, hrun.trans _ hrun₂, hclear₂, fun q hq => ?_, fun q hq h => ?_⟩
        · rw [hthreads₂ q hq, hthreads q hq]
        · exact hclears₂ q hq (hclears q hq h)

/-- One that is alone with what it holds goes on to the end of its call. -/
theorem exists_idle (hstaged : ∀ c', M.Run Quiet c c' → ∀ p, Disciplined D Z A Q c' p) {p : P}
    (hclear : ∀ q, q ≠ p → Clear q c.hist.state) :
    ∃ c', M.Run Quiet c c' ∧ (∃ l, (c'.threads p).prog = .ret l) ∧
      (∀ q, q ≠ p → c'.threads q = c.threads q) ∧ ∀ q, Clear q c'.hist.state := by
  generalize hx : (c.threads p).prog = x
  induction x generalizing c with
  | ret l =>
    refine ⟨c, .refl, ⟨l, hx⟩, fun _ _ => rfl, fun q => ?_⟩
    by_cases hq : q = p
    · rw [hq]
      exact hd.clear_of_idle (hstaged c .refl p) hx
    · exact hclear q hq
  | op e k ih =>
    have hact : ∃ env r s', M.act p e env c.hist.state = some (r, s') ∧
        Quiet c.hist (.did p (c.threads p).calls e r c.hist.state s') := by
      rcases hstaged c .refl p with ⟨⟨l, hl⟩, -⟩ | ⟨κ, s, ha, hobeys⟩
      · cases hx.symm.trans hl
      · rw [hx] at hobeys
        exact hd.alone ha hobeys.1 hclear
    obtain ⟨c₁, r, hrun, hk, hthreads, hclears⟩ := hd.exists_act hx hact
    obtain ⟨c₂, hrun₂, hidle, hthreads₂, hclear₂⟩ :=
      ih r (fun c' h => hstaged c' (hrun.trans _ h)) (fun q hq => hclears q hq (hclear q hq)) hk
    refine ⟨c₂, hrun.trans _ hrun₂, hidle, fun q hq => ?_, hclear₂⟩
    rw [hthreads₂ q hq, hthreads q hq]

/-- Some threads, one after the other, until they hold nothing. -/
theorem exists_all_clear (hstaged : ∀ c', M.Run Quiet c c' → ∀ p, Disciplined D Z A Q c' p)
    (ps : List P) :
    ∃ c', M.Run Quiet c c' ∧ (∀ p ∈ ps, Clear p c'.hist.state) ∧
      (∀ q, q ∉ ps → c'.threads q = c.threads q) ∧
      ∀ q, Clear q c.hist.state → Clear q c'.hist.state := by
  induction ps generalizing c with
  | nil => exact ⟨c, .refl, fun _ hp => absurd hp List.not_mem_nil, fun _ _ => rfl, fun _ h => h⟩
  | cons p ps ih =>
    obtain ⟨c₁, hrun, hclear, hthreads, hclears⟩ := hd.exists_clear hstaged p
    obtain ⟨c₂, hrun₂, hall, hthreads₂, hclears₂⟩ := ih fun c' h => hstaged c' (hrun.trans _ h)
    refine ⟨c₂, hrun.trans _ hrun₂, fun q hq => ?_, fun q hq => ?_, fun q h => ?_⟩
    · rcases List.mem_cons.mp hq with rfl | hq
      · exact hclears₂ q hclear
      · exact hall q hq
    · rw [List.mem_cons, not_or] at hq
      rw [hthreads₂ q hq.2, hthreads q hq.1]
    · by_cases hq : q = p
      · exact hclears₂ q (hq ▸ hclear)
      · exact hclears₂ q (hclears q hq h)

/-- And then to the ends of their calls. -/
theorem exists_all_idle (hstaged : ∀ c', M.Run Quiet c c' → ∀ p, Disciplined D Z A Q c' p)
    (hclear : ∀ q, Clear q c.hist.state) (ps : List P) :
    ∃ c', M.Run Quiet c c' ∧ (∀ p ∈ ps, ∃ l, (c'.threads p).prog = .ret l) ∧
      (∀ q, (∃ l, (c.threads q).prog = .ret l) → ∃ l, (c'.threads q).prog = .ret l) ∧
      ∀ q, Clear q c'.hist.state := by
  induction ps generalizing c with
  | nil => exact ⟨c, .refl, fun _ hp => absurd hp List.not_mem_nil, fun _ h => h, hclear⟩
  | cons p ps ih =>
    obtain ⟨c₁, hrun, hidle, hthreads, hclear₁⟩ := hd.exists_idle hstaged fun q _ => hclear q
    obtain ⟨c₂, hrun₂, hall, hidles, hclear₂⟩ :=
      ih (fun c' h => hstaged c' (hrun.trans _ h)) hclear₁
    refine ⟨c₂, hrun.trans _ hrun₂, fun q hq => ?_, fun q h => ?_, hclear₂⟩
    · rcases List.mem_cons.mp hq with rfl | hq
      · exact hidles q hidle
      · exact hall q hq
    · apply hidles q
      by_cases hq : q = p
      · exact hq ▸ hidle
      · rw [hthreads q hq]
        exact h

/-- **The system can come to rest**, from wherever it has come to. -/
theorem drain {c₀ : Config P E R S K L} (hrun : M.Run Cond c₀ c)
    (hidle₀ : ∀ p, ∃ l, (c₀.threads p).prog = .ret l)
    (hstaged : ∀ c', M.Run Quiet c c' → ∀ p, Disciplined D Z A Q c' p) :
    ∃ c', M.Run Quiet c c' ∧ (∀ p, ∃ l, (c'.threads p).prog = .ret l) ∧
      ∀ p, Clear p c'.hist.state := by
  obtain ⟨ps, hps⟩ := hrun.exists_active
  have hidle : ∀ p, p ∉ ps → ∃ l, (c.threads p).prog = .ret l := fun p hp => hps p hp ▸ hidle₀ p
  obtain ⟨c₁, hrun₁, hclear, hthreads, hclears⟩ := hd.exists_all_clear hstaged ps
  have hclear₁ : ∀ p, Clear p c₁.hist.state := by
    intro p
    by_cases hp : p ∈ ps
    · exact hclear p hp
    · obtain ⟨l, hl⟩ := hidle p hp
      exact hclears p (hd.clear_of_idle (hstaged c .refl p) hl)
  obtain ⟨c₂, hrun₂, hall, hidles, hclear₂⟩ :=
    hd.exists_all_idle (fun c' h => hstaged c' (hrun₁.trans _ h)) hclear₁ ps
  refine ⟨c₂, hrun₁.trans _ hrun₂, fun p => ?_, hclear₂⟩
  by_cases hp : p ∈ ps
  · exact hall p hp
  · apply hidles p
    rw [hthreads p hp]
    exact hidle p hp

end Drainable

end Machine

end Interleaving
