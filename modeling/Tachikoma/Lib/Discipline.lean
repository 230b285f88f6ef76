import Tachikoma.Lib.Threads

/-!
# Disciplines

What a program may ask for often depends on what it has asked for before: nothing is written after a
commit, a lock that was taken is given back. A **discipline** is such a rule, an automaton over the
effects and their answers. It is checked on the tree of the program, with no machine in sight
(`Prog.Obeys`), one rule for each way to build a program.

What the states of the automaton *mean* is said afterwards, by an assertion for each of them, and
only there the machine comes in: if every effect that a state allows leads from its assertion to the
one of the next state, and other threads break none of them, then in every configuration that a run
reaches, every thread is in a state that means something, and what is left of its program obeys the
discipline from there on (`Machine.Run.disciplined`).
-/

set_option autoImplicit false

namespace Interleaving

/-- Which effects may be asked for in a state, and the state after the answer. -/
structure Discipline (E : Type) (R : E → Type) (σ : Type) : Type where
  allows : σ → E → Prop
  next : σ → (e : E) → R e → σ

variable {P E C S K L α β σ σ' : Type} {R : E → Type}

/-- Two rules at once. -/
def Discipline.prod (D : Discipline E R σ) (D' : Discipline E R σ') : Discipline E R (σ × σ') where
  allows := fun s e => D.allows s.1 e ∧ D'.allows s.2 e
  next := fun s e r => (D.next s.1 e r, D'.next s.2 e r)

namespace Prog

/-- From the state `s` on, the program asks only for what is allowed, whatever the answers are, and
    the state it ends in satisfies `Q`. -/
def Obeys (D : Discipline E R σ) (Q : σ → α → Prop) : Prog E R α → σ → Prop
  | .ret a, s => Q s a
  | .op e k, s => D.allows s e ∧ ∀ r, (k r).Obeys D Q (D.next s e r)

variable {D : Discipline E R σ} {s : σ}

theorem Obeys.mono {Q Q' : σ → α → Prop} (hQ : ∀ s a, Q s a → Q' s a) {x : Prog E R α}
    (h : x.Obeys D Q s) : x.Obeys D Q' s := by
  induction x generalizing s with
  | ret a => exact hQ s a h
  | op e k ih => exact ⟨h.1, fun r => ih r (h.2 r)⟩

theorem Obeys.bind {Q : σ → α → Prop} {Q' : σ → β → Prop} {x : Prog E R α} {f : α → Prog E R β}
    (hx : x.Obeys D Q s) (hf : ∀ s a, Q s a → (f a).Obeys D Q' s) : (x.bind f).Obeys D Q' s := by
  induction x generalizing s with
  | ret a => exact hf s a hx
  | op e k ih => exact ⟨hx.1, fun r => ih r (hx.2 r)⟩

/-- Effects that are allowed in a state and do not lead out of it. -/
theorem Obeys.of_emits {Φ : E → Prop} (hΦ : ∀ e, Φ e → D.allows s e ∧ ∀ r, D.next s e r = s)
    {Q : α → Prop} {x : Prog E R α} (hx : x.Emits Φ) (hQ : x.Returns Q) :
    x.Obeys D (fun s' a => s' = s ∧ Q a) s := by
  induction x with
  | ret a => exact ⟨rfl, hQ⟩
  | op e k ih =>
    refine ⟨(hΦ e hx.1).1, fun r => ?_⟩
    rw [(hΦ e hx.1).2 r]
    exact ih r (hx.2 r) (hQ r)

/-- A program that follows both rules. -/
theorem Obeys.prod {D' : Discipline E R σ'} {Q : σ → α → Prop} {Q' : σ' → α → Prop}
    {x : Prog E R α} {s' : σ'} (h : x.Obeys D Q s) (h' : x.Obeys D' Q' s') :
    x.Obeys (D.prod D') (fun s a => Q s.1 a ∧ Q' s.2 a) (s, s') := by
  induction x generalizing s s' with
  | ret a => exact ⟨h, h'⟩
  | op e k ih => exact ⟨⟨h.1, h'.1⟩, fun r => ih r (h.2 r) (h'.2 r)⟩

/-- And then the one. -/
theorem Obeys.fst {D' : Discipline E R σ'} {Q : σ × σ' → α → Prop} {Q' : σ → α → Prop}
    {x : Prog E R α} {s : σ × σ'} (h : x.Obeys (D.prod D') Q s)
    (hQ : ∀ s a, Q s a → Q' s.1 a) : x.Obeys D Q' s.1 := by
  induction x generalizing s with
  | ret a => exact hQ s a h
  | op e k ih => exact ⟨h.1.1, fun r => ih r (h.2 r)⟩

/-- In a state that nothing allowed leads out of, a program can only end as the state promises. -/
theorem Obeys.exists_end (hanswer : ∀ e, Nonempty (R e))
    (hstay : ∀ e, D.allows s e → ∀ r, D.next s e r = s) {Q : σ → α → Prop} {x : Prog E R α}
    (hx : x.Obeys D Q s) : ∃ a, Q s a := by
  induction x with
  | ret a => exact ⟨a, hx⟩
  | op e k ih =>
    obtain ⟨r⟩ := hanswer e
    apply ih r
    rw [← hstay e hx.1 r]
    exact hx.2 r

end Prog

namespace Machine

variable [DecidableEq P] {M : Machine P E R C S K L}

/-- A thread that has made no call, or one that is in a call, in a state of the discipline whose
    assertion holds; what is left of the call obeys the discipline from that state on. -/
def Disciplined (D : Discipline E R σ) (Z : P → Hist P E R S K → Prop)
    (A : P → Nat → K → σ → Hist P E R S K → Prop) (Q : K → σ → L → Prop)
    (c : Config P E R S K L) (p : P) : Prop :=
  ((∃ l, (c.threads p).prog = .ret l) ∧ Z p c.hist) ∨
    ∃ κ s, A p (c.threads p).calls κ s c.hist ∧ (c.threads p).prog.Obeys D (Q κ) s

/-- **Soundness of a discipline.** `Z` is what holds of a thread that has made no call, `A` what the
    states mean and `Q` how the calls end. A step may count on it that the state it leads to is one
    that a program can go on from. -/
theorem Run.disciplined {Cond : Hist P E R S K → Event P E R S K → Prop}
    {D : Discipline E R σ} {Z : P → Hist P E R S K → Prop}
    {A : P → Nat → K → σ → Hist P E R S K → Prop} {Q : K → σ → L → Prop}
    (Inv : Hist P E R S K → Prop) {c₀ c : Config P E R S K L} (hrun : M.Run Cond c₀ c)
    (hnum : Numbered c₀) (hinv : Inv c₀.hist)
    (hthreads : ∀ p, Disciplined D Z A Q c₀ p)
    (hZ : ∀ p, M.Stable Cond Inv p (Z p))
    (hA : ∀ p n κ s, M.Stable Cond Inv p (A p n κ s))
    (hcall : ∀ p n κ l h, (∀ ev ∈ h.trace, ev.pid = p → ev.calls ≤ n) → Inv h →
      (Z p h ∨ ∃ κ' s, A p n κ' s h ∧ Q κ' s l) → Cond h (.called p (n + 1) κ) →
      Inv (h.push (.called p (n + 1) κ)) ∧ ∃ s, A p (n + 1) κ s (h.push (.called p (n + 1) κ)) ∧
        (M.body κ l).Obeys D (Q κ) s)
    (hstep : ∀ p n κ s h e env r s', Inv h → A p n κ s h → D.allows s e →
      (∃ x : Prog E R L, x.Obeys D (Q κ) (D.next s e r)) → M.act p e env h.state = some (r, s') →
      Cond h (.did p n e r h.state s') →
      Inv (h.push (.did p n e r h.state s')) ∧
        A p n κ (D.next s e r) (h.push (.did p n e r h.state s'))) :
    Inv c.hist ∧ ∀ p, Disciplined D Z A Q c p := by
  induction hrun with
  | refl => exact ⟨hinv, hthreads⟩
  | @step c c' l ev hpre hs he hcond ih =>
    obtain ⟨hI, hT⟩ := ih
    have hl : M.Legal c.hist ev := M.legal_of_step hs he
    have hother : ∀ q, q ≠ ev.pid → (c'.threads q) = (c.threads q) →
        Disciplined D Z A Q c' q := by
      intro q hq hthread
      unfold Disciplined
      rw [hthread, he]
      rcases hT q with ⟨hret, hz⟩ | ⟨κ, s, ha, hobeys⟩
      · exact .inl ⟨hret, hZ q c.hist ev hI hz (Ne.symm hq) hl hcond⟩
      · exact .inr ⟨κ, s, hA q _ κ s c.hist ev hI ha (Ne.symm hq) hl hcond, hobeys⟩
    obtain ⟨p, κ, a, rfl, hp, rfl⟩ | ⟨p, env, e, k, r, s', rfl, hp, hact, rfl⟩ := M.step_cases hs
    · -- A call starts from how the last one ended.
      have hev : ev = .called p ((c.threads p).calls + 1) κ := by
        have htrace := congrArg Hist.trace he
        simp only [Hist.push_trace, List.cons.injEq] at htrace
        exact htrace.1.symm
      subst hev
      have hpast : ∀ ev ∈ c.hist.trace, ev.pid = p → ev.calls ≤ (c.threads p).calls :=
        fun ev hev hp => hp ▸ hpre.numbered M hnum ev hev
      have hstart : Z p c.hist ∨ ∃ κ' s, A p (c.threads p).calls κ' s c.hist ∧ Q κ' s a := by
        rcases hT p with ⟨-, hz⟩ | ⟨κ', s, ha, hobeys⟩
        · exact .inl hz
        · rw [hp] at hobeys
          exact .inr ⟨κ', s, ha, hobeys⟩
      obtain ⟨hI', s, ha, hobeys⟩ := hcall p _ κ a c.hist hpast hI hstart hcond
      refine ⟨hI', fun q => ?_⟩
      by_cases hq : q = p
      · subst hq
        refine .inr ⟨κ, s, ?_, ?_⟩
        · simpa only [Function.update_self] using ha
        · simpa only [Function.update_self] using hobeys
      · exact hother q hq (Function.update_of_ne hq _ _)
    · -- An effect leads to the next state.
      have hev : ev = .did p (c.threads p).calls e r c.hist.state s' := by
        have htrace := congrArg Hist.trace he
        simp only [Hist.push_trace, List.cons.injEq] at htrace
        exact htrace.1.symm
      subst hev
      rcases hT p with ⟨⟨l, hret⟩, -⟩ | ⟨κ, s, ha, hobeys⟩
      · rw [hp] at hret
        cases hret
      rw [hp] at hobeys
      obtain ⟨hI', ha'⟩ := hstep p _ κ s c.hist e env r s' hI ha hobeys.1
        ⟨k r, hobeys.2 r⟩ hact hcond
      refine ⟨hI', fun q => ?_⟩
      by_cases hq : q = p
      · subst hq
        refine .inr ⟨κ, D.next s e r, ?_, ?_⟩
        · simpa only [Function.update_self] using ha'
        · simpa only [Function.update_self] using hobeys.2 r
      · exact hother q hq (Function.update_of_ne hq _ _)

end Machine

end Interleaving
