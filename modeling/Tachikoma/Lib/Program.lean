import Mathlib.Logic.Function.Basic

/-!
# Programs over an effect interface

A program is a tree: it has ended with a value, or it asks its surroundings to perform one effect
and goes on with the answer. `E` is the type of effects and `R e` the type of the answers to `e`.
The tree is an *inductive* type, so every program ends after finitely many effects whatever the
answers are; a server that never ends is a thread that calls one such program after another
(`Tachikoma/Lib/Threads.lean`).

Nothing here says what an effect does. That is the business of an `act` function, and because the
same tree can be run alone (`Prog.Ends`) or interleaved with others, what is proved about a run
alone and about an interleaving is proved about one text.
-/

set_option autoImplicit false

namespace Interleaving

/-- A program over the effects `E`, answered in `R`, that ends with an `α`. -/
inductive Prog (E : Type) (R : E → Type) (α : Type) : Type where
  | ret (a : α) : Prog E R α
  | op (e : E) (k : R e → Prog E R α) : Prog E R α

namespace Prog

variable {P E C S α β γ : Type} {R : E → Type}

/-- Run the first program and go on with its value. -/
def bind : Prog E R α → (α → Prog E R β) → Prog E R β
  | .ret a, f => f a
  | .op e k, f => .op e fun r => (k r).bind f

/-- The value of a program that has ended. -/
def value? : Prog E R α → Option α
  | .ret a => some a
  | .op _ _ => none

theorem value?_eq_some {x : Prog E R α} {a : α} : x.value? = some a ↔ x = .ret a := by
  cases x <;> simp [value?]

@[simp] theorem ret_bind (a : α) (f : α → Prog E R β) : (ret a : Prog E R α).bind f = f a := rfl

@[simp] theorem op_bind (e : E) (k : R e → Prog E R α) (f : α → Prog E R β) :
    (op e k).bind f = op e fun r => (k r).bind f := rfl

theorem bind_assoc (x : Prog E R α) (f : α → Prog E R β) (g : β → Prog E R γ) :
    (x.bind f).bind g = x.bind fun a => (f a).bind g := by
  induction x with
  | ret a => rfl
  | op e k ih => simp only [op_bind, ih]

/-! ## The effects a program can ask for -/

/-- Every effect the program may ask for, whatever the answers to the earlier ones, is in `Φ`. -/
def Emits (Φ : E → Prop) : Prog E R α → Prop
  | .ret _ => True
  | .op e k => Φ e ∧ ∀ r, (k r).Emits Φ

theorem Emits.bind {Φ : E → Prop} {x : Prog E R α} {f : α → Prog E R β} (hx : x.Emits Φ)
    (hf : ∀ a, (f a).Emits Φ) : (x.bind f).Emits Φ := by
  induction x with
  | ret a => exact hf a
  | op e k ih => exact ⟨hx.1, fun r => ih r (hx.2 r)⟩

theorem Emits.mono {Φ Ψ : E → Prop} (h : ∀ e, Φ e → Ψ e) {x : Prog E R α} (hx : x.Emits Φ) :
    x.Emits Ψ := by
  induction x with
  | ret a => trivial
  | op e k ih => exact ⟨h e hx.1, fun r => ih r (hx.2 r)⟩

theorem Emits.and {Φ Ψ : E → Prop} {x : Prog E R α} (hΦ : x.Emits Φ) (hΨ : x.Emits Ψ) :
    x.Emits fun e => Φ e ∧ Ψ e := by
  induction x with
  | ret a => trivial
  | op e k ih => exact ⟨⟨hΦ.1, hΨ.1⟩, fun r => ih r (hΦ.2 r) (hΨ.2 r)⟩

/-! ## The values a program can end with -/

/-- Every value the program may end with, whatever the answers are, satisfies `Q`. -/
def Returns (Q : α → Prop) : Prog E R α → Prop
  | .ret a => Q a
  | .op _ k => ∀ r, (k r).Returns Q

theorem Returns.bind {Q : α → Prop} {Q' : β → Prop} {x : Prog E R α} {f : α → Prog E R β}
    (hx : x.Returns Q) (hf : ∀ a, Q a → (f a).Returns Q') : (x.bind f).Returns Q' := by
  induction x with
  | ret a => exact hf a hx
  | op e k ih => exact fun r => ih r (hx r)

theorem returns_true (x : Prog E R α) : x.Returns fun _ => True := by
  induction x with
  | ret a => trivial
  | op e k ih => exact ih

theorem Returns.mono {Q Q' : α → Prop} (h : ∀ a, Q a → Q' a) {x : Prog E R α} (hx : x.Returns Q) :
    x.Returns Q' := by
  induction x with
  | ret a => exact h a hx
  | op e k ih => exact fun r => ih r (hx r)

/-- Every value the program may end with, if all answers are such as can be given, satisfies `Q`. -/
def ReturnsIf (can : (e : E) → R e → Prop) (Q : α → Prop) : Prog E R α → Prop
  | .ret a => Q a
  | .op e k => ∀ r, can e r → (k r).ReturnsIf can Q

theorem ReturnsIf.bind {can : (e : E) → R e → Prop} {Q : α → Prop} {Q' : β → Prop} {x : Prog E R α}
    {f : α → Prog E R β} (hx : x.ReturnsIf can Q) (hf : ∀ a, Q a → (f a).ReturnsIf can Q') :
    (x.bind f).ReturnsIf can Q' := by
  induction x with
  | ret a => exact hf a hx
  | op e k ih => exact fun r hr => ih r (hx r hr)

theorem ReturnsIf.mono {can : (e : E) → R e → Prop} {Q Q' : α → Prop} (hQ : ∀ a, Q a → Q' a)
    {x : Prog E R α} (hx : x.ReturnsIf can Q) : x.ReturnsIf can Q' := by
  induction x with
  | ret a => exact hQ a hx
  | op e k ih => exact fun r hr => ih r (hx r hr)

theorem ReturnsIf.of_returns {can : (e : E) → R e → Prop} {Q : α → Prop} {x : Prog E R α}
    (hx : x.Returns Q) : x.ReturnsIf can Q := by
  induction x with
  | ret a => exact hx
  | op e k ih => exact fun r _ => ih r (hx r)

/-! ## A run with nobody else running

`act p e c s` is one step of `p`: performing `e` in the state `s`, when the surroundings choose
`c`, gives an answer and a new state; `none` says that the effect has to wait. -/

variable (act : P → (e : E) → C → S → Option (R e × S)) (p : P)

/-- The program, started in `s`, can end with `a` in `s'`. -/
def Ends : Prog E R α → S → α → S → Prop
  | .ret a, s, a', s' => a = a' ∧ s = s'
  | .op e k, s, a', s' => ∃ c r s₁, act p e c s = some (r, s₁) ∧ (k r).Ends s₁ a' s'

/-- The run in which the surroundings choose as listed; `none` when the list does not fit. -/
def exec : Prog E R α → List C → S → Option (α × S)
  | .ret a, [], s => some (a, s)
  | .ret _, _ :: _, _ => none
  | .op _ _, [], _ => none
  | .op e k, c :: cs, s => (act p e c s).bind fun x => (k x.1).exec cs x.2

@[simp] theorem ends_ret {a a' : α} {s s' : S} :
    (ret a : Prog E R α).Ends act p s a' s' ↔ a = a' ∧ s = s' := Iff.rfl

@[simp] theorem ends_op {e : E} {k : R e → Prog E R α} {s s' : S} {a : α} :
    (op e k).Ends act p s a s' ↔
      ∃ c r s₁, act p e c s = some (r, s₁) ∧ (k r).Ends act p s₁ a s' := Iff.rfl

theorem ends_bind {x : Prog E R α} {f : α → Prog E R β} {s s' : S} {b : β} :
    (x.bind f).Ends act p s b s' ↔
      ∃ a s₁, x.Ends act p s a s₁ ∧ (f a).Ends act p s₁ b s' := by
  induction x generalizing s with
  | ret a =>
    constructor
    · intro h; exact ⟨a, s, ⟨rfl, rfl⟩, h⟩
    · rintro ⟨a', s₁, ⟨rfl, rfl⟩, h⟩; exact h
  | op e k ih =>
    simp only [op_bind, ends_op, ih]
    constructor
    · rintro ⟨c, r, s₁, ha, a, s₂, hx, hf⟩; exact ⟨a, s₂, ⟨c, r, s₁, ha, hx⟩, hf⟩
    · rintro ⟨a, s₂, ⟨c, r, s₁, ha, hx⟩, hf⟩; exact ⟨c, r, s₁, ha, a, s₂, hx, hf⟩

/-- **Total correctness**: the program, started in `s`, ends, and every way it can end satisfies
    `Q`. No effect of it ever has to wait. -/
def Achieves (Q : α → S → Prop) : Prog E R α → S → Prop
  | .ret a, s => Q a s
  | .op e k, s => (∃ c x, act p e c s = some x) ∧
      ∀ c r s₁, act p e c s = some (r, s₁) → (k r).Achieves Q s₁

theorem Achieves.exists_ends {Q : α → S → Prop} {x : Prog E R α} {s : S}
    (h : x.Achieves act p Q s) : ∃ a s', x.Ends act p s a s' := by
  induction x generalizing s with
  | ret a => exact ⟨a, s, rfl, rfl⟩
  | op e k ih =>
    obtain ⟨⟨c, ⟨r, s₁⟩, ha⟩, hk⟩ := h
    obtain ⟨a, s', hends⟩ := ih r (hk c r s₁ ha)
    exact ⟨a, s', c, r, s₁, ha, hends⟩

theorem Achieves.of_ends {Q : α → S → Prop} {x : Prog E R α} {s s' : S} {a : α}
    (h : x.Achieves act p Q s) (hends : x.Ends act p s a s') : Q a s' := by
  induction x generalizing s with
  | ret b =>
    obtain ⟨rfl, rfl⟩ := hends
    exact h
  | op e k ih =>
    obtain ⟨c, r, s₁, ha, hends⟩ := hends
    exact ih r (h.2 c r s₁ ha) hends

theorem Achieves.mono {Q Q' : α → S → Prop} (hQ : ∀ a s, Q a s → Q' a s) {x : Prog E R α} {s : S}
    (h : x.Achieves act p Q s) : x.Achieves act p Q' s := by
  induction x generalizing s with
  | ret a => exact hQ a s h
  | op e k ih => exact ⟨h.1, fun c r s₁ ha => ih r (h.2 c r s₁ ha)⟩

theorem Achieves.bind {Q : α → S → Prop} {Q' : β → S → Prop} {x : Prog E R α}
    {f : α → Prog E R β} {s : S} (h : x.Achieves act p Q s)
    (hf : ∀ a s₁, Q a s₁ → (f a).Achieves act p Q' s₁) : (x.bind f).Achieves act p Q' s := by
  induction x generalizing s with
  | ret a => exact hf a s h
  | op e k ih => exact ⟨h.1, fun c r s₁ ha => ih r (h.2 c r s₁ ha)⟩

/-- What the executable run finds is a run. -/
theorem ends_of_exec {x : Prog E R α} {cs : List C} {s s' : S} {a : α}
    (h : x.exec act p cs s = some (a, s')) : x.Ends act p s a s' := by
  induction x generalizing cs s with
  | ret b =>
    cases cs with
    | nil => simpa [exec] using h
    | cons c cs => simp [exec] at h
  | op e k ih =>
    cases cs with
    | nil => simp [exec] at h
    | cons c cs =>
      simp only [exec, Option.bind_eq_some_iff] at h
      obtain ⟨⟨r, s₁⟩, ha, hk⟩ := h
      exact ⟨c, r, s₁, ha, ih r hk⟩

/-- A run whose value passes a test. -/
theorem exists_ends_of_exec {x : Prog E R α} {s : S} (cs : List C) (q : α → Bool)
    (h : (x.exec act p cs s).any (fun y => q y.1) = true) :
    ∃ a s', x.Ends act p s a s' ∧ q a = true := by
  obtain ⟨⟨a, s'⟩, hx, hq⟩ := (Option.any_eq_true _ _).mp h
  exact ⟨a, s', ends_of_exec act p hx, hq⟩

end Prog

end Interleaving
