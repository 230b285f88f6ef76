import Tachikoma.Lib.Discipline

/-!
# Systems that do what another one does

Two machines over the same effects and the same state, whose calls are cut differently: what is one
call in the first may be several in the second, one after the other, and the first may perform
effects on its own that change nothing. `Prog.Covered` compares what is left of a call of the first
with what its thread is doing in the second, and it is a matter of two trees; `Machine.simulate`
lifts it to runs: if every call of the first machine is covered by calls of the second, every run of
the first has a run of the second beside it, with the same effects in the same order on the same
states (`Follows`).

What is true of all runs of the second machine is then true of all runs of the first.
-/

set_option autoImplicit false

namespace Interleaving

variable {P E C S K K' L L' α β γ δ : Type} {R : E → Type}

namespace Prog

/-! ## The same program, with idle effects added -/

/-- The first program does what the second does, and idle effects besides; where the first ends with
    `a` and the second with `b`, they are related. -/
inductive SameAs (Idle : E → Prop) (Rel : α → β → Prop) : Prog E R α → Prog E R β → Prop where
  | ret {a : α} {b : β} (h : Rel a b) : SameAs Idle Rel (.ret a) (.ret b)
  | op {e : E} {k : R e → Prog E R α} {k' : R e → Prog E R β}
      (h : ∀ r, SameAs Idle Rel (k r) (k' r)) : SameAs Idle Rel (.op e k) (.op e k')
  | idle {e : E} {k : R e → Prog E R α} {y : Prog E R β} (he : Idle e)
      (h : ∀ r, SameAs Idle Rel (k r) y) : SameAs Idle Rel (.op e k) y

variable {Idle : E → Prop}

theorem SameAs.refl (x : Prog E R α) : SameAs Idle Eq x x := by
  induction x with
  | ret a => exact .ret rfl
  | op e k ih => exact .op ih

/-- A program of idle effects does nothing. -/
theorem SameAs.of_emits {Rel : α → β → Prop} {x : Prog E R α} {b : β} (hx : x.Emits Idle)
    (hr : x.Returns fun a => Rel a b) : SameAs Idle Rel x (.ret b) := by
  induction x with
  | ret a => exact .ret hr
  | op e k ih => exact .idle hx.1 fun r => ih r (hx.2 r) (hr r)

/-- The first goes on where the second has ended. -/
theorem SameAs.bind_left {Rel : α → β → Prop} {Rel' : γ → β → Prop} {x : Prog E R α}
    {y : Prog E R β} {f : α → Prog E R γ} (h : SameAs Idle Rel x y)
    (hf : ∀ a b, Rel a b → SameAs Idle Rel' (f a) (.ret b)) : SameAs Idle Rel' (x.bind f) y := by
  induction h with
  | ret h => exact hf _ _ h
  | op h ih => exact .op ih
  | idle he h ih => exact .idle he ih

/-- And the second where the first has. -/
theorem SameAs.bind_right {Rel : α → β → Prop} {Rel' : α → γ → Prop} {x : Prog E R α}
    {y : Prog E R β} {g : β → Prog E R γ} (h : SameAs Idle Rel x y)
    (hg : ∀ a b, Rel a b → SameAs Idle Rel' (.ret a) (g b)) : SameAs Idle Rel' x (y.bind g) := by
  induction h with
  | ret h => exact hg _ _ h
  | op h ih => exact .op ih
  | idle he h ih => exact .idle he ih

/-- A program obeys the rules that the other one obeys, if idle effects are always allowed and
    change no state of the discipline. -/
theorem SameAs.obeys {σ : Type} {D : Discipline E R σ} {Rel : α → β → Prop} {x : Prog E R α}
    {y : Prog E R β} {Q : σ → β → Prop} {Q' : σ → α → Prop} {s : σ} (h : SameAs Idle Rel x y)
    (hidle : ∀ s e, Idle e → D.allows s e ∧ ∀ r, D.next s e r = s) (hy : y.Obeys D Q s)
    (hQ : ∀ s a b, Rel a b → Q s b → Q' s a) : x.Obeys D Q' s := by
  induction h generalizing s with
  | ret h => exact hQ s _ _ h hy
  | op h ih => exact ⟨hy.1, fun r => ih r (hy.2 r)⟩
  | @idle e k y he h ih =>
    refine ⟨(hidle s e he).1, fun r => ?_⟩
    rw [(hidle s e he).2 r]
    exact ih r hy

/-- The first program asks for what the second asks for, and for idle effects. -/
theorem SameAs.emits {Rel : α → β → Prop} {x : Prog E R α} {y : Prog E R β} {Φ : E → Prop}
    (h : SameAs Idle Rel x y) (hidle : ∀ e, Idle e → Φ e) (hy : y.Emits Φ) : x.Emits Φ := by
  induction h with
  | ret h => trivial
  | op h ih => exact ⟨hy.1, fun r => ih r (hy.2 r)⟩
  | idle he h ih => exact ⟨hidle _ he, fun r => ih r hy⟩

/-! ## Covering -/

/-- What is left of a call of the first machine (`x`) and of a thread of the second (`y`): the
    effects of `x` are those of `y`, or idle; and where `y` has ended, its thread may make another
    call, one that `Serves` allows. -/
inductive Covered (Idle : E → Prop) (body : K' → L' → Prog E R L') (Serves : K' → Prop)
    (End : L → L' → Prop) : Prog E R L → Prog E R L' → Prop where
  | ret {l : L} {l' : L'} (h : End l l') : Covered Idle body Serves End (.ret l) (.ret l')
  | op {e : E} {k : R e → Prog E R L} {k' : R e → Prog E R L'}
      (h : ∀ r, Covered Idle body Serves End (k r) (k' r)) :
      Covered Idle body Serves End (.op e k) (.op e k')
  | idle {e : E} {k : R e → Prog E R L} {y : Prog E R L'} (he : Idle e)
      (h : ∀ r, Covered Idle body Serves End (k r) y) : Covered Idle body Serves End (.op e k) y
  | call {x : Prog E R L} {l' : L'} {κ : K'} (hκ : Serves κ)
      (h : Covered Idle body Serves End x (body κ l')) : Covered Idle body Serves End x (.ret l')

variable {body : K' → L' → Prog E R L'} {Serves : K' → Prop} {End : L → L' → Prop}

/-- Two programs go on after two that are the same. -/
theorem SameAs.covered {Rel : α → β → Prop} {x : Prog E R α} {y : Prog E R β}
    {f : α → Prog E R L} {g : β → Prog E R L'} (h : SameAs Idle Rel x y)
    (hf : ∀ a b, Rel a b → Covered Idle body Serves End (f a) (g b)) :
    Covered Idle body Serves End (x.bind f) (y.bind g) := by
  induction h with
  | ret h => exact hf _ _ h
  | op h ih => exact .op ih
  | idle he h ih => exact .idle he ih

/-- The first goes on alone. -/
theorem SameAs.covered_left {Rel : α → L' → Prop} {x : Prog E R α} {y : Prog E R L'}
    {f : α → Prog E R L} (h : SameAs Idle Rel x y)
    (hf : ∀ a l', Rel a l' → Covered Idle body Serves End (f a) (.ret l')) :
    Covered Idle body Serves End (x.bind f) y := by
  induction h with
  | ret h => exact hf _ _ h
  | op h ih => exact .op ih
  | idle he h ih => exact .idle he ih

end Prog

/-! ## Traces -/

/-- The trace of the second machine beside one of the first: the same effects, some idle ones left
    out, and calls of its own, each serving one that its thread has made in the first. -/
inductive Follows (Idle : E → Prop) (Serves : K → K' → Prop) :
    List (Event P E R S K) → List (Event P E R S K') → Prop where
  | nil : Follows Idle Serves [] []
  | called (p : P) (n : Nat) (κ : K) {tr : List (Event P E R S K)} {tr' : List (Event P E R S K')}
      (h : Follows Idle Serves tr tr') : Follows Idle Serves (.called p n κ :: tr) tr'
  | serves (p : P) (n m : Nat) (κ : K) (κ' : K') {tr : List (Event P E R S K)}
      {tr' : List (Event P E R S K')} (hκ : Event.called p m κ ∈ tr) (hserves : Serves κ κ')
      (h : Follows Idle Serves tr tr') : Follows Idle Serves tr (.called p n κ' :: tr')
  | did (p : P) (n m : Nat) (e : E) (r : R e) (b a : S) {tr : List (Event P E R S K)}
      {tr' : List (Event P E R S K')} (h : Follows Idle Serves tr tr') :
      Follows Idle Serves (.did p n e r b a :: tr) (.did p m e r b a :: tr')
  | idle (p : P) (n : Nat) (e : E) (r : R e) (b a : S) (he : Idle e)
      {tr : List (Event P E R S K)} {tr' : List (Event P E R S K')}
      (h : Follows Idle Serves tr tr') : Follows Idle Serves (.did p n e r b a :: tr) tr'

/-! ## Runs -/

namespace Machine

variable [DecidableEq P] {M : Machine P E R C S K L} {M' : Machine P E R C S K' L'}

/-- A configuration of the second machine beside one of the first. -/
structure Beside (M' : Machine P E R C S K' L') (Idle : E → Prop) (Serves : K → K' → Prop)
    (End : P → L → L' → Prop) (c : Config P E R S K L) (d : Config P E R S K' L') : Prop where
  state : d.hist.state = c.hist.state
  trace : Follows Idle Serves c.hist.trace d.hist.trace
  threads : ∀ p, (∃ l l', (c.threads p).prog = .ret l ∧ (d.threads p).prog = .ret l' ∧ End p l l') ∨
    ∃ n κ, Event.called p n κ ∈ c.hist.trace ∧
      Prog.Covered Idle M'.body (Serves κ) (End p) (c.threads p).prog (d.threads p).prog

variable {Idle : E → Prop} {Serves : K → K' → Prop} {End : P → L → L' → Prop}
  {ok : P → K → Prop} {ok' : P → K' → Prop}

section Catch

variable {c : Config P E R S K L} {d : Config P E R S K' L'}

/-- The second machine may have calls to make before its thread is where the first one is. -/
theorem Beside.call (h : Beside M' Idle Serves End c d) {p : P} {n : Nat} {κ : K} {κ' : K'}
    {l' : L'} (hκ : Event.called p n κ ∈ c.hist.trace) (hd : (d.threads p).prog = .ret l')
    (hserves : Serves κ κ') (hok : ok' p κ')
    (hcov : Prog.Covered Idle M'.body (Serves κ) (End p) (c.threads p).prog (M'.body κ' l')) :
    ∃ d', M'.Run (Calling ok') d d' ∧ Beside M' Idle Serves End c d' ∧
      (d'.threads p).prog = M'.body κ' l' := by
  refine ⟨⟨d.hist.push (.called p ((d.threads p).calls + 1) κ'),
    Function.update d.threads p ⟨(d.threads p).calls + 1, M'.body κ' l'⟩⟩, ?_, ?_, ?_⟩
  · exact Run.of_call M' hd hok
  · refine ⟨h.state, ?_, fun q => ?_⟩
    · rw [Hist.push_trace]
      exact .serves p _ n κ κ' hκ hserves h.trace
    · by_cases hq : q = p
      · subst hq
        exact .inr ⟨n, κ, hκ, by simpa only [Function.update_self] using hcov⟩
      · simpa only [Function.update_of_ne hq] using h.threads q
  · simp only [Function.update_self]

/-- Where a thread of the first machine is idle, the one of the second can be. -/
theorem Beside.catch_ret (hoks : ∀ p κ κ', Serves κ κ' → (∃ n, Event.called p n κ ∈ c.hist.trace) →
      ok' p κ')
    (h : Beside M' Idle Serves End c d) {p : P} {n : Nat} {κ : K} {l : L}
    (hκ : Event.called p n κ ∈ c.hist.trace) (hc : (c.threads p).prog = .ret l) {y : Prog E R L'}
    (hd : (d.threads p).prog = y)
    (hcov : Prog.Covered Idle M'.body (Serves κ) (End p) (.ret l) y) :
    ∃ d' l', M'.Run (Calling ok') d d' ∧ Beside M' Idle Serves End c d' ∧
      (d'.threads p).prog = .ret l' ∧ End p l l' := by
  generalize hx : (Prog.ret l : Prog E R L) = x at hcov
  induction hcov generalizing d with
  | ret hend =>
    cases hx
    exact ⟨d, _, .refl, h, hd, hend⟩
  | op => cases hx
  | idle => cases hx
  | @call x l' κ' hserves hcov ih =>
    subst hx
    obtain ⟨d₁, hrun, hbeside, hprog⟩ := h.call hκ hd hserves (hoks p κ κ' hserves ⟨n, hκ⟩)
      (hc ▸ hcov)
    obtain ⟨d₂, l'', hrun₂, hbeside₂, hprog₂, hend⟩ := ih hbeside hprog rfl
    exact ⟨d₂, l'', hrun.trans _ hrun₂, hbeside₂, hprog₂, hend⟩

/-- After a step of one thread the others are beside one another as they were. -/
theorem Beside.others (h : Beside M' Idle Serves End c d) {p q : P} (hq : q ≠ p)
    (ev : Event P E R S K) {x : Thread E R L} {y : Thread E R L'} (hy : y = d.threads q) :
    (∃ l l', ((Function.update c.threads p x) q).prog = .ret l ∧ y.prog = .ret l' ∧ End q l l') ∨
      ∃ m κ, Event.called q m κ ∈ (c.hist.push ev).trace ∧
        Prog.Covered Idle M'.body (Serves κ) (End q) ((Function.update c.threads p x) q).prog
          y.prog := by
  rw [hy, Function.update_of_ne hq]
  rcases h.threads q with hidle | ⟨m, κ, hm, hcov⟩
  · exact .inl hidle
  · refine .inr ⟨m, κ, ?_, hcov⟩
    rw [Hist.push_trace]
    exact List.mem_cons_of_mem _ hm

/-- Where a thread of the first machine performs an effect, the one of the second does the same, or
    the effect is idle. -/
theorem Beside.catch_op (hact : M'.act = M.act)
    (hidle : ∀ p e env s r s', Idle e → M.act p e env s = some (r, s') → s' = s)
    (hoks : ∀ p κ κ', Serves κ κ' → (∃ n, Event.called p n κ ∈ c.hist.trace) → ok' p κ')
    (h : Beside M' Idle Serves End c d) {p : P} {n : Nat} {κ : K} {e : E} {k : R e → Prog E R L}
    (hκ : Event.called p n κ ∈ c.hist.trace) (hc : (c.threads p).prog = .op e k) {y : Prog E R L'}
    (hd : (d.threads p).prog = y)
    (hcov : Prog.Covered Idle M'.body (Serves κ) (End p) (.op e k) y) {env : C} {r : R e} {s' : S}
    (ha : M.act p e env c.hist.state = some (r, s')) :
    ∃ d', M'.Run (Calling ok') d d' ∧ Beside M' Idle Serves End
      ⟨c.hist.push (.did p (c.threads p).calls e r c.hist.state s'),
        Function.update c.threads p ⟨(c.threads p).calls, k r⟩⟩ d' := by
  have hκ' : Event.called p n κ ∈ (c.hist.push
      (.did p (c.threads p).calls e r c.hist.state s')).trace := by
    rw [Hist.push_trace]
    exact List.mem_cons_of_mem _ hκ
  generalize hx : (Prog.op e k : Prog E R L) = x at hcov
  -- By what the second thread has to do for this effect: it may have to make calls first.
  induction hcov generalizing d with
  | ret => cases hx
  | @op e' k₁ k₁' hk ih =>
    cases hx
    refine ⟨⟨d.hist.push (.did p (d.threads p).calls e r d.hist.state s'),
      Function.update d.threads p ⟨(d.threads p).calls, k₁' r⟩⟩, ?_, ?_, ?_, fun q => ?_⟩
    · have ha' : M'.act p e env d.hist.state = some (r, s') := by rw [hact, h.state, ha]
      exact Run.of_act M' hd ha' trivial
    · rfl
    · rw [Hist.push_trace, Hist.push_trace, h.state]
      exact .did p _ _ e r _ s' h.trace
    · by_cases hq : q = p
      · subst hq
        exact .inr ⟨n, κ, hκ', by simpa only [Function.update_self] using hk r⟩
      · exact h.others hq _ (Function.update_of_ne hq _ _)
  | @idle e' k₁ y he hk ih =>
    cases hx
    -- An idle effect changes nothing, and the second machine stays where it is.
    refine ⟨d, .refl, ?_, ?_, fun q => ?_⟩
    · rw [Hist.push_did_state, hidle p e env _ r s' he ha]
      exact h.state
    · rw [Hist.push_trace]
      exact .idle p _ e r _ s' he h.trace
    · by_cases hq : q = p
      · subst hq
        refine .inr ⟨n, κ, hκ', ?_⟩
        rw [hd]
        simpa only [Function.update_self] using hk r
      · exact h.others hq _ rfl
  | @call x l' κ' hserves hcov ih =>
    subst hx
    obtain ⟨d₁, hrun, hbeside, hprog⟩ := h.call hκ hd hserves (hoks p κ κ' hserves ⟨n, hκ⟩)
      (hc ▸ hcov)
    obtain ⟨d₂, hrun₂, hbeside₂⟩ := ih hbeside hprog rfl
    exact ⟨d₂, hrun.trans _ hrun₂, hbeside₂⟩

end Catch

/-- **The simulation.** If the calls of the first machine are covered by calls of the second, then
    every run of the first, from a configuration that has the second beside it, has a run of the
    second beside it. -/
theorem simulate (hact : M'.act = M.act)
    (hidle : ∀ p e env s r s', Idle e → M.act p e env s = some (r, s') → s' = s)
    (hok : ∀ p κ κ', ok p κ → Serves κ κ' → ok' p κ')
    (hbody : ∀ p κ l l', ok p κ → End p l l' →
      Prog.Covered Idle M'.body (Serves κ) (End p) (M.body κ l) (.ret l'))
    {c₀ c : Config P E R S K L} {d₀ : Config P E R S K' L'}
    (hrun : M.Run (Calling ok) c₀ c) (h₀ : Beside M' Idle Serves End c₀ d₀)
    (hcalls₀ : ∀ p n κ, Event.called p n κ ∈ c₀.hist.trace → ok p κ) :
    ∃ d, M'.Run (Calling ok') d₀ d ∧ Beside M' Idle Serves End c d := by
  have hcalls :
      ∀ {c}, M.Run (Calling ok) c₀ c → ∀ p n κ, Event.called p n κ ∈ c.hist.trace → ok p κ := by
    intro c hrun
    induction hrun with
    | refl => exact hcalls₀
    | @step c c' l ev _ _ he hcond ih =>
      intro p n κ hκ
      rw [he, Hist.push_trace] at hκ
      rcases List.mem_cons.mp hκ with rfl | hκ
      · exact hcond
      · exact ih p n κ hκ
  induction hrun with
  | refl => exact ⟨d₀, .refl, h₀⟩
  | @step c c' l ev hpre hs he hcond ih =>
    obtain ⟨d, hd, hbeside⟩ := ih
    have hoks : ∀ p κ κ', Serves κ κ' → (∃ n, Event.called p n κ ∈ c.hist.trace) → ok' p κ' := by
      intro p κ κ' hserves hκ
      obtain ⟨n, hκ⟩ := hκ
      exact hok p κ κ' (hcalls hpre p n κ hκ) hserves
    obtain ⟨p, κ, a, rfl, hp, rfl⟩ | ⟨p, env, e, k, r, s', rfl, hp, ha, rfl⟩ := M.step_cases hs
    · -- A call: the thread of the second machine ends what it is doing, and has nothing to do yet.
      have hev : ev = .called p ((c.threads p).calls + 1) κ := by
        have htrace := congrArg Hist.trace he
        simp only [Hist.push_trace, List.cons.injEq] at htrace
        exact htrace.1.symm
      subst hev
      have hidle : ∃ d' l', M'.Run (Calling ok') d d' ∧ Beside M' Idle Serves End c d' ∧
          (d'.threads p).prog = .ret l' ∧ End p a l' := by
        rcases hbeside.threads p with ⟨l, l', hl, hl', hend⟩ | ⟨n, κ₁, hκ₁, hcov⟩
        · cases hp.symm.trans hl
          exact ⟨d, l', .refl, hbeside, hl', hend⟩
        · rw [hp] at hcov
          exact hbeside.catch_ret hoks hκ₁ hp rfl hcov
      obtain ⟨d', l', hd', hbeside', hl', hend⟩ := hidle
      refine ⟨d', hd.trans _ hd', hbeside'.state, ?_, fun q => ?_⟩
      · rw [Hist.push_trace]
        exact .called p _ κ hbeside'.trace
      · by_cases hq : q = p
        · subst hq
          refine .inr ⟨(c.threads q).calls + 1, κ, ?_, ?_⟩
          · rw [Hist.push_trace]
            exact List.mem_cons_self
          · rw [hl']
            simpa only [Function.update_self] using hbody q κ a l' hcond hend
        · exact hbeside'.others hq _ rfl
    · -- An effect.
      have hprog : ∃ n κ, Event.called p n κ ∈ c.hist.trace ∧
          Prog.Covered Idle M'.body (Serves κ) (End p) (.op e k) (d.threads p).prog := by
        rcases hbeside.threads p with ⟨l, l', hl, -, -⟩ | ⟨n, κ, hκ, hcov⟩
        · rw [hp] at hl
          cases hl
        · exact ⟨n, κ, hκ, hp ▸ hcov⟩
      obtain ⟨n, κ, hκ, hcov⟩ := hprog
      obtain ⟨d', hd', hbeside'⟩ := hbeside.catch_op hact hidle hoks hκ hp rfl hcov ha
      exact ⟨d', hd.trans _ hd', hbeside'⟩

end Machine

end Interleaving
