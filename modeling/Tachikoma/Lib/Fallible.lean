import Tachikoma.Lib.Threads

/-!
# Programs that end with a value or with an error

`Fallible E R ε α` is a program over any effects whose value is an `Except ε α`; an error of a part
is one of the whole. The rules say again, for `>>=` and `mapErr`, what `Prog` says for `bind`: once
for total correctness (`Prog.Achieves`) and once for interleavings (`Machine.Sketch`), where a
program promises one assertion for its values and one for its errors.
-/

set_option autoImplicit false

namespace Interleaving

/-- A program that ends with an `α` or an `ε`. -/
def Fallible (E : Type) (R : E → Type) (ε α : Type) : Type := Prog E R (Except ε α)

namespace Fallible

variable {E ε ε' α β : Type} {R : E → Type}

def bind (x : Fallible E R ε α) (f : α → Fallible E R ε β) : Fallible E R ε β :=
  Prog.bind x fun
    | .ok a => f a
    | .error e => .ret (.error e)

instance : Monad (Fallible E R ε) where
  pure a := .ret (.ok a)
  bind := bind

def throw (e : ε) : Fallible E R ε α := .ret (.error e)

def mapErr (f : ε → ε') (x : Fallible E R ε α) : Fallible E R ε' α :=
  Prog.bind x fun r => .ret (r.mapError f)

/-- One effect, whose answer is read as a value or an error. -/
def ask (e : E) (g : R e → Except ε α) : Fallible E R ε α := .op e fun r => .ret (g r)

/-! ## What a program asks for -/

section Emits

variable {Φ : E → Prop}

theorem emits_pure (a : α) : Prog.Emits Φ (pure a : Fallible E R ε α) := trivial

theorem emits_throw (e : ε) : Prog.Emits Φ (throw e : Fallible E R ε α) := trivial

theorem emits_bind {x : Fallible E R ε α} {f : α → Fallible E R ε β} (hx : Prog.Emits Φ x)
    (hf : ∀ a, Prog.Emits Φ (f a)) : Prog.Emits Φ (x >>= f : Fallible E R ε β) := by
  refine Prog.Emits.bind hx fun r => ?_
  cases r with
  | ok a => exact hf a
  | error e => trivial

theorem emits_mapErr {f : ε → ε'} {x : Fallible E R ε α} (hx : Prog.Emits Φ x) :
    Prog.Emits Φ (x.mapErr f) := Prog.Emits.bind hx fun _ => trivial

theorem emits_ask {e : E} {g : R e → Except ε α} (h : Φ e) :
    Prog.Emits Φ (ask e g : Fallible E R ε α) := ⟨h, fun _ => trivial⟩

end Emits

/-! ## Total correctness -/

section Achieves

variable {P C S : Type} {act : P → (e : E) → C → S → Option (R e × S)} {p : P} {s : S}

theorem achieves_pure {a : α} {Q : Except ε α → S → Prop} (h : Q (.ok a) s) :
    Prog.Achieves act p Q (pure a : Fallible E R ε α) s := h

theorem achieves_throw {e : ε} {Q : Except ε α → S → Prop} (h : Q (.error e) s) :
    Prog.Achieves act p Q (throw e : Fallible E R ε α) s := h

/-- What the second program has to achieve, after a value of the first. -/
def andThen (act : P → (e : E) → C → S → Option (R e × S)) (p : P) (f : α → Fallible E R ε β)
    (Q : Except ε β → S → Prop) : Except ε α → S → Prop
  | .ok a, s => Prog.Achieves act p Q (f a) s
  | .error e, s => Q (.error e) s

theorem achieves_bind {x : Fallible E R ε α} {f : α → Fallible E R ε β} {Q : Except ε β → S → Prop}
    (hx : Prog.Achieves act p (andThen act p f Q) x s) :
    Prog.Achieves act p Q (x >>= f : Fallible E R ε β) s := by
  refine Prog.Achieves.bind act p hx fun r s' hr => ?_
  cases r with
  | ok a => exact hr
  | error e => exact hr

theorem achieves_mapErr {f : ε → ε'} {x : Fallible E R ε α} {Q : Except ε' α → S → Prop}
    (hx : Prog.Achieves act p (fun r s' => Q (r.mapError f) s') x s) :
    Prog.Achieves act p Q (x.mapErr f) s :=
  Prog.Achieves.bind act p hx fun _ _ h => h

theorem achieves_ite {c : Prop} [hc : Decidable c] {x y : Fallible E R ε α}
    {Q : Except ε α → S → Prop} (hx : c → Prog.Achieves act p Q x s)
    (hy : ¬ c → Prog.Achieves act p Q y s) :
    Prog.Achieves act p Q (if c then x else y) s := by
  cases hc with
  | isTrue h => exact hx h
  | isFalse h => exact hy h

theorem achieves_ask {e : E} {g : R e → Except ε α} {Q : Except ε α → S → Prop}
    (hact : ∃ c x, act p e c s = some x)
    (hQ : ∀ c r s', act p e c s = some (r, s') → Q (g r) s') :
    Prog.Achieves act p Q (ask e g) s := ⟨hact, hQ⟩

end Achieves

/-! ## Interleavings -/

section Sketch

variable {P C S K L : Type} {M : Machine P E R C S K L}
  {Cond : Hist P E R S K → Event P E R S K → Prop} {Inv : Hist P E R S K → Prop} {p : P} {n : Nat}
  {A F : Hist P E R S K → Prop}

/-- What holds after a program, by the way it ended. -/
def outcome (A : α → Hist P E R S K → Prop) (F : Hist P E R S K → Prop) :
    Except ε α → Hist P E R S K → Prop
  | .ok a => A a
  | .error _ => F

theorem stable_outcome {Q : α → Hist P E R S K → Prop} (hQ : ∀ a, M.Stable Cond Inv p (Q a))
    (hF : M.Stable Cond Inv p F) (r : Except ε α) : M.Stable Cond Inv p (outcome Q F r) := by
  cases r with
  | ok a => exact hQ a
  | error e => exact hF

theorem sketch_pure {Q : α → Hist P E R S K → Prop} {a : α} (h : ∀ h, Inv h → A h → Q a h) :
    M.Sketch Cond Inv p n (outcome Q F) (pure a : Fallible E R ε α) A := h

theorem sketch_throw {Q : α → Hist P E R S K → Prop} {e : ε} (h : ∀ h, Inv h → A h → F h) :
    M.Sketch Cond Inv p n (outcome Q F) (throw e : Fallible E R ε α) A := h

theorem sketch_bind {Q : β → Hist P E R S K → Prop} {B : α → Hist P E R S K → Prop}
    {x : Fallible E R ε α} {f : α → Fallible E R ε β}
    (hx : M.Sketch Cond Inv p n (outcome B F) x A)
    (hf : ∀ a, M.Sketch Cond Inv p n (outcome Q F) (f a) (B a)) :
    M.Sketch Cond Inv p n (outcome Q F) (x >>= f : Fallible E R ε β) A := by
  refine Machine.Sketch.bind hx fun r => ?_
  cases r with
  | ok a => exact hf a
  | error e => exact fun _ _ h => h

theorem sketch_mapErr {Q : α → Hist P E R S K → Prop} {f : ε → ε'} {x : Fallible E R ε α}
    (hx : M.Sketch Cond Inv p n (outcome Q F) x A) :
    M.Sketch Cond Inv p n (outcome Q F) (x.mapErr f) A := by
  refine Machine.Sketch.bind hx fun r => ?_
  cases r <;> exact fun _ _ h => h

theorem sketch_ask {e : E} {g : R e → Except ε α} {Q : α → Hist P E R S K → Prop}
    (hQ : ∀ a, M.Stable Cond Inv p (Q a)) (hF : M.Stable Cond Inv p F)
    (hstep : ∀ h env r s', Inv h → A h → M.act p e env h.state = some (r, s') →
      Cond h (.did p n e r h.state s') →
      Inv (h.push (.did p n e r h.state s')) ∧
        outcome Q F (g r) (h.push (.did p n e r h.state s'))) :
    M.Sketch Cond Inv p n (outcome Q F) (ask e g) A :=
  Machine.Sketch.effect (fun r => stable_outcome hQ hF (g r)) hstep

end Sketch

end Fallible

end Interleaving
