import Tachikoma.Lib.Program

/-!
# The log of a run

A run of a program that nobody interrupts, with the exchanges it had: every effect it asked for and
the answer it got, oldest first. `Prog.Records` says what every run of a program has in its log and
where it ends; its rules take a program apart where its text does.
-/

set_option autoImplicit false

namespace Interleaving

/-- An effect, and its answer. -/
abbrev Exchange (E : Type) (R : E → Type) : Type := (e : E) × R e

namespace Prog

variable {P E C S α β : Type} {R : E → Type}
variable (act : P → (e : E) → C → S → Option (R e × S)) (p : P)

/-- The program, started in `s`, can have the exchanges `log` and end with `a` in `s'`. -/
def Logs : Prog E R α → S → List (Exchange E R) → α → S → Prop
  | .ret a, s, log, a', s' => log = [] ∧ a = a' ∧ s = s'
  | .op e k, s, log, a', s' => ∃ c r s₁ rest, act p e c s = some (r, s₁) ∧ log = ⟨e, r⟩ :: rest ∧
      (k r).Logs s₁ rest a' s'

variable {s s' : S}

/-- Every run has a log. -/
theorem exists_logs {x : Prog E R α} {a : α} (h : x.Ends act p s a s') :
    ∃ log, x.Logs act p s log a s' := by
  induction x generalizing s with
  | ret b => exact ⟨[], rfl, h⟩
  | op e k ih =>
    obtain ⟨c, r, s₁, ha, hk⟩ := h
    obtain ⟨log, hlog⟩ := ih r hk
    exact ⟨⟨e, r⟩ :: log, c, r, s₁, log, ha, rfl, hlog⟩

/-- The run in which the surroundings choose as listed, with its log; `none` when the list does not
    fit. -/
def record : Prog E R α → List C → S → Option (List (Exchange E R) × α × S)
  | .ret a, [], s => some ([], a, s)
  | .ret _, _ :: _, _ => none
  | .op _ _, [], _ => none
  | .op e k, c :: cs, s => (act p e c s).bind fun x =>
    ((k x.1).record cs x.2).map fun y => (⟨e, x.1⟩ :: y.1, y.2)

theorem logs_of_record {x : Prog E R α} {cs : List C} {log : List (Exchange E R)} {a : α}
    (h : x.record act p cs s = some (log, a, s')) : x.Logs act p s log a s' := by
  induction x generalizing cs s log with
  | ret b =>
    cases cs with
    | nil =>
      obtain ⟨rfl, hrest⟩ := Prod.mk.inj (Option.some.inj h)
      obtain ⟨rfl, rfl⟩ := Prod.mk.inj hrest
      exact ⟨rfl, rfl, rfl⟩
    | cons c cs => cases h
  | op e k ih =>
    cases cs with
    | nil => cases h
    | cons c cs =>
      obtain ⟨⟨r, s₁⟩, ha, hk⟩ := Option.bind_eq_some_iff.mp h
      obtain ⟨⟨rest, a', s₂⟩, hrest, heq⟩ := Option.map_eq_some_iff.mp hk
      obtain ⟨rfl, hlast⟩ := Prod.mk.inj heq
      obtain ⟨rfl, rfl⟩ := Prod.mk.inj hlast
      exact ⟨c, r, s₁, rest, ha, rfl, ih r hrest⟩

/-- Nothing is in the log that the program cannot ask for. -/
theorem Logs.emits {Φ : E → Prop} {x : Prog E R α} {log : List (Exchange E R)} {a : α}
    (h : x.Logs act p s log a s') (hx : x.Emits Φ) : ∀ ex ∈ log, Φ ex.1 := by
  induction x generalizing s log with
  | ret b =>
    rw [h.1]
    exact fun ex hex => absurd hex List.not_mem_nil
  | op e k ih =>
    obtain ⟨c, r, s₁, rest, ha, rfl, hk⟩ := h
    intro ex hex
    rcases List.mem_cons.mp hex with rfl | hex
    · exact hx.1
    · exact ih r hk (hx.2 r) ex hex

/-- Every run of the program from `s` has a log, a value and a last state that satisfy `A`. -/
def Records (A : List (Exchange E R) → α → S → Prop) (x : Prog E R α) (s : S) : Prop :=
  ∀ log a s', x.Logs act p s log a s' → A log a s'

variable {A : List (Exchange E R) → β → S → Prop}

theorem records_ret {b : β} (h : A [] b s) : Records act p A (.ret b) s := by
  intro log a s' hlog
  obtain ⟨rfl, rfl, rfl⟩ := hlog
  exact h

theorem records_op {e : E} {k : R e → Prog E R β}
    (h : ∀ c r s₁, act p e c s = some (r, s₁) →
      Records act p (fun log => A (⟨e, r⟩ :: log)) (k r) s₁) :
    Records act p A (.op e k) s := by
  intro log a s' hlog
  obtain ⟨c, r, s₁, rest, ha, rfl, hk⟩ := hlog
  exact h c r s₁ ha rest a s' hk

theorem Records.bind {B : List (Exchange E R) → α → S → Prop} {x : Prog E R α}
    {f : α → Prog E R β} (hx : Records act p B x s)
    (hf : ∀ log a s₁, B log a s₁ → Records act p (fun rest => A (log ++ rest)) (f a) s₁) :
    Records act p A (x.bind f) s := by
  induction x generalizing s A B with
  | ret a => exact hf [] a s (hx [] a s ⟨rfl, rfl, rfl⟩)
  | op e k ih =>
    refine records_op act p fun c r s₁ ha => ?_
    refine ih r (B := fun log => B (⟨e, r⟩ :: log)) ?_ fun log a s₂ hB => hf _ a s₂ hB
    exact fun log a s₂ hlog => hx _ a s₂ ⟨c, r, s₁, log, ha, rfl, hlog⟩

theorem Records.mono {A' : List (Exchange E R) → β → S → Prop}
    (hA : ∀ log b s', A log b s' → A' log b s') {x : Prog E R β} (h : Records act p A x s) :
    Records act p A' x s :=
  fun log b s' hlog => hA log b s' (h log b s' hlog)

end Prog

end Interleaving
