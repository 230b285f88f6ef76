import Mathlib.Algebra.Group.Defs

/-!
# A registry of leases

What a service that leases things is for, with no database and no threads: a **registry** says who
holds what and until when, and it changes by four operations, each of them in one moment. A release
is one of the holder's own things, and only what is leased can be extended; a grant and an expiry
take what they are given.

A **path** is what becomes of a registry by operations one after the other, each when it is allowed.
Where a lease comes from can be told without the guards, from what was done alone (`origin`): a
lease that there is was granted, or was there in the beginning, and its deadline is what was granted
then and the extensions since.
-/

set_option autoImplicit false

namespace Leases

structure Lease (U T : Type) : Type where
  holder : U
  deadline : T
  deriving DecidableEq, Repr

/-- Who holds what, and until when. -/
abbrev Registry (H U T : Type) : Type := H → Option (Lease U T)

inductive Op (H U T : Type) : Type where
  | grant (u : U) (deadline : T) (things : List H)
  | release (u : U) (things : List H)
  | expire (things : List H)
  | extend (time : T) (things : List H)
  deriving DecidableEq, Repr

variable {H U T : Type}

namespace Op

def things : Op H U T → List H
  | .grant _ _ s => s
  | .release _ s => s
  | .expire s => s
  | .extend _ s => s

/-- When an operation may happen. -/
def Guard : Op H U T → Registry H U T → Prop
  | .grant _ _ _, _ => True
  | .release u s, r => ∀ h ∈ s, ∃ l, r h = some l ∧ l.holder = u
  | .expire _, _ => True
  | .extend _ s, r => ∀ h ∈ s, ∃ l, r h = some l

/-- What becomes of one thing. -/
def set [Add T] : Op H U T → Option (Lease U T) → Option (Lease U T)
  | .grant u deadline _, _ => some ⟨u, deadline⟩
  | .release _ _, _ => none
  | .expire _, _ => none
  | .extend time _, l => l.map fun l => { l with deadline := l.deadline + time }

/-- What becomes of all of them. -/
def apply [DecidableEq H] [Add T] (op : Op H U T) (r : Registry H U T) : Registry H U T :=
  fun h => if h ∈ op.things then op.set (r h) else r h

theorem apply_of_mem [DecidableEq H] [Add T] {op : Op H U T} {h : H} (hh : h ∈ op.things)
    (r : Registry H U T) : op.apply r h = op.set (r h) := if_pos hh

theorem apply_of_not_mem [DecidableEq H] [Add T] {op : Op H U T} {h : H} (hh : h ∉ op.things)
    (r : Registry H U T) : op.apply r h = r h := if_neg hh

/-- The operation takes `h` away from `u`. -/
def Takes (u : U) (h : H) : Op H U T → Prop
  | .grant v _ s => h ∈ s ∧ v ≠ u
  | .release v s => h ∈ s ∧ v = u
  | .expire s => h ∈ s
  | .extend _ _ => False

/-- The operation leaves whoever has `h` its holder. -/
def Keeps (h : H) : Op H U T → Prop
  | .grant _ _ s => h ∉ s
  | .release _ s => h ∉ s
  | .expire s => h ∉ s
  | .extend _ _ => True

/-- The time it adds to the deadline of `h`. -/
def added [DecidableEq H] [Zero T] (h : H) : Op H U T → T
  | .extend time s => if h ∈ s then time else 0
  | _ => 0

end Op

section Paths

variable [DecidableEq H] [AddMonoid T]

/-- The registry reached from `r₀` by the operations, newest first. -/
inductive Path (r₀ : Registry H U T) : List (Op H U T) → Registry H U T → Prop where
  | nil : Path r₀ [] r₀
  | cons {ops : List (Op H U T)} {r : Registry H U T} {op : Op H U T} :
      Path r₀ ops r → op.Guard r → Path r₀ (op :: ops) (op.apply r)

/-- The operations, newest first, whether they are allowed or not. -/
def applyAll (ops : List (Op H U T)) (r : Registry H U T) : Registry H U T := ops.foldr Op.apply r

/-- The extensions of `h`, newest first, added up. -/
def extensions (h : H) : List (Op H U T) → T
  | [] => 0
  | op :: ops => extensions h ops + op.added h

/-- An operation that does not take a lease prolongs it. -/
theorem Op.set_of_keeps {op : Op H U T} {r : Registry H U T} {h : H} {l : Lease U T}
    (hop : op.Keeps h) (hl : r h = some l) :
    op.apply r h = some { l with deadline := l.deadline + op.added h } := by
  cases op with
  | extend time s =>
    by_cases hh : h ∈ s
    · rw [Op.apply_of_mem hh, hl]
      simp [Op.set, Op.added, hh]
    · rw [Op.apply_of_not_mem hh, hl]
      simp [Op.added, hh]
  | grant u deadline s =>
    rw [Op.apply_of_not_mem (show h ∉ (Op.grant u deadline s).things from hop), hl]
    simp [Op.added]
  | release u s =>
    rw [Op.apply_of_not_mem (show h ∉ (Op.release u s : Op H U T).things from hop), hl]
    simp [Op.added]
  | expire s =>
    rw [Op.apply_of_not_mem (show h ∉ (Op.expire s : Op H U T).things from hop), hl]
    simp [Op.added]

/-- A lease after an operation was granted by it, or was there before. -/
theorem Op.before {op : Op H U T} {r : Registry H U T} {h : H} {l : Lease U T}
    (hl : op.apply r h = some l) :
    (∃ s, op = .grant l.holder l.deadline s ∧ h ∈ s) ∨
      op.Keeps h ∧ ∃ l', r h = some l' ∧ l = { l' with deadline := l'.deadline + op.added h } := by
  by_cases hh : h ∈ op.things
  · rw [Op.apply_of_mem hh] at hl
    cases op with
    | grant u deadline s =>
      cases Option.some.inj hl
      exact .inl ⟨s, rfl, hh⟩
    | release u s => cases hl
    | expire s => cases hl
    | extend time s =>
      obtain ⟨l', hl', rfl⟩ := Option.map_eq_some_iff.mp hl
      have hadded : (Op.extend time s : Op H U T).added h = time := if_pos hh
      exact .inr ⟨trivial, l', hl', by rw [hadded]⟩
  · have hkeeps : op.Keeps h := by
      cases op with
      | extend time s => trivial
      | _ => exact hh
    rw [Op.apply_of_not_mem hh] at hl
    have hset := Op.set_of_keeps hkeeps hl
    rw [Op.apply_of_not_mem hh, hl] at hset
    exact .inr ⟨hkeeps, l, hl, Option.some.inj hset⟩

/-- **Where a lease comes from**: from a grant, or from the beginning, and since then it was only
    extended. -/
theorem origin {r₀ : Registry H U T} {ops : List (Op H U T)} {h : H} {l : Lease U T}
    (hl : applyAll ops r₀ h = some l) :
    (∃ newer older deadline s, ops = newer ++ .grant l.holder deadline s :: older ∧ h ∈ s ∧
      (∀ op ∈ newer, op.Keeps h) ∧ l.deadline = deadline + extensions h newer) ∨
    ∃ l₀, r₀ h = some l₀ ∧ l₀.holder = l.holder ∧ (∀ op ∈ ops, op.Keeps h) ∧
      l.deadline = l₀.deadline + extensions h ops := by
  induction ops generalizing l with
  | nil => exact .inr ⟨l, hl, rfl, fun _ hop => absurd hop List.not_mem_nil, by simp [extensions]⟩
  | cons op ops ih =>
    rcases Op.before hl with ⟨s, rfl, hh⟩ | ⟨hkeeps, l', hl', rfl⟩
    · exact .inl ⟨[], ops, l.deadline, s, rfl, hh, fun _ hop => absurd hop List.not_mem_nil,
        by simp [extensions]⟩
    · have hall : ∀ older : List (Op H U T), (∀ op ∈ older, op.Keeps h) →
          ∀ op' ∈ op :: older, op'.Keeps h := by
        intro older holder op' hop'
        rcases List.mem_cons.mp hop' with rfl | hop'
        · exact hkeeps
        · exact holder op' hop'
      rcases ih hl' with ⟨newer, older, deadline, s, rfl, hh, hnewer, hd⟩ | ⟨l₀, hl₀, hu, hops, hd⟩
      · exact .inl ⟨op :: newer, older, deadline, s, rfl, hh, hall newer hnewer,
          by simp only [extensions, hd, add_assoc]⟩
      · exact .inr ⟨l₀, hl₀, hu, hall ops hops, by simp only [extensions, hd, add_assoc]⟩

end Paths

end Leases
