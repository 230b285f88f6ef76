import Tachikoma.Lib.Versioned

/-!
# What a transaction carries

A transaction that has run one statement carries a set of **changes**: a partial map from keys to
the rows that it will have written once it commits. `Table.Carries` says that its pending versions
are these and no others, and that under the keys of the changes the committed rows are still the
ones that the statement read: the pending versions are the locks.

So a commit does in one moment what the statement decided earlier (`Table.Carries.commit`), and
whatever other transactions do in between takes nothing away from it (`Table.Carries.update_other`
and its kin).
-/

set_option autoImplicit false

namespace Versioned

variable {κ τ ρ : Type} [DecidableEq κ] [DecidableEq τ]

/-- New rows under some of the keys. -/
abbrev Changes (κ ρ : Type) : Type := κ → Option ρ

namespace Changes

/-- The changes of an update that reads the rows `base`. -/
def update (base : κ → Option ρ) (sel : κ → ρ → Bool) (f : ρ → ρ) : Changes κ ρ :=
  fun k => ((base k).filter (sel k)).map f

/-- The changes of an insert. -/
def single (k : κ) (r : ρ) : Changes κ ρ := fun j => if j = k then some r else none

/-- The rows after the changes. -/
def onto (δ : Changes κ ρ) (base : κ → Option ρ) : κ → Option ρ := fun k => (δ k).or (base k)

omit [DecidableEq κ] in
theorem update_eq_some {base : κ → Option ρ} {sel : κ → ρ → Bool} {f : ρ → ρ} {k : κ} {r : ρ} :
    update base sel f k = some r ↔ ∃ s, base k = some s ∧ sel k s = true ∧ r = f s := by
  simp only [update, Option.map_eq_some_iff, Option.filter_eq_some_iff]
  constructor
  · intro h
    obtain ⟨s, ⟨hs, hsel⟩, hr⟩ := h
    exact ⟨s, hs, hsel, hr.symm⟩
  · intro h
    obtain ⟨s, hs, hsel, hr⟩ := h
    exact ⟨s, ⟨hs, hsel⟩, hr.symm⟩

omit [DecidableEq κ] in
/-- Where an update changes nothing, it finds no row that it hits. -/
theorem update_eq_none {base : κ → Option ρ} {sel : κ → ρ → Bool} {f : ρ → ρ} {k : κ} :
    update base sel f k = none ↔ ∀ s, base k = some s → sel k s = false := by
  simp only [update, Option.map_eq_none_iff, Option.filter_eq_none_iff, Bool.not_eq_true]

@[simp] theorem single_self (k : κ) (r : ρ) : single k r k = some r := if_pos rfl

theorem single_of_ne {j k : κ} (h : j ≠ k) (r : ρ) : single k r j = none := if_neg h

theorem single_eq_some {j k : κ} {r s : ρ} : single k r j = some s ↔ j = k ∧ s = r := by
  unfold single
  split
  · rename_i h
    simp [h, eq_comm]
  · rename_i h
    simp [h]

omit [DecidableEq κ] in
@[simp] theorem none_onto (base : κ → Option ρ) : onto (fun _ => none) base = base := by
  funext k
  simp [onto]

omit [DecidableEq κ] in
theorem onto_of_some {δ : Changes κ ρ} {k : κ} {r : ρ} (h : δ k = some r) (base : κ → Option ρ) :
    δ.onto base k = some r := by
  simp [onto, h]

omit [DecidableEq κ] in
theorem onto_of_none {δ : Changes κ ρ} {k : κ} (h : δ k = none) (base : κ → Option ρ) :
    δ.onto base k = base k := by
  simp [onto, h]

end Changes

namespace Table

omit [DecidableEq τ] in
/-- The committed rows by their keys. -/
def current (t : Table κ τ ρ) : κ → Option ρ := fun k => (t.cell k).committed

omit [DecidableEq τ] in
/-- The pending versions of `x` are the changes `δ`, and under their keys nothing was committed
    since the rows were `base`. -/
structure Carries (x : τ) (base : κ → Option ρ) (δ : Changes κ ρ) (t : Table κ τ ρ) : Prop where
  pending : ∀ k v, (t.cell k).pending = some (x, v) ↔ ∃ r, v = some r ∧ δ k = some r
  base : ∀ k r, δ k = some r → (t.cell k).committed = base k

namespace Carries

variable {x y : τ} {base : κ → Option ρ} {δ : Changes κ ρ} {t t' : Table κ τ ρ}

omit [DecidableEq τ] in
theorem held (h : t.Carries x base δ) {k : κ} {r : ρ} (hr : δ k = some r) :
    (t.cell k).pending = some (x, some r) := (h.pending k _).mpr ⟨r, rfl, hr⟩

omit [DecidableEq τ] in
theorem not_held (h : t.Carries x base δ) {k : κ} (hk : δ k = none) (v : Option ρ) :
    (t.cell k).pending ≠ some (x, v) := by
  intro hv
  obtain ⟨r, -, hr⟩ := (h.pending k v).mp hv
  rw [hk] at hr
  cases hr

omit [DecidableEq τ] in
/-- Who has nothing pending carries nothing. -/
theorem nothing (h : t.Holds fun y _ _ => y ≠ x) (base : κ → Option ρ) :
    t.Carries x base fun _ => none where
  pending k v := by
    constructor
    · intro hv
      exact absurd rfl (h k x v hv)
    · intro hv
      obtain ⟨r, -, hr⟩ := hv
      cases hr
  base _ _ hr := by cases hr

/-- What a transaction carries after its first update. -/
theorem of_update {sel : κ → ρ → Bool} {f : ρ → ρ} (h : t.Holds fun y _ _ => y ≠ x)
    (hu : t.update x sel f = some t') :
    t'.Carries x t.current (Changes.update t.current sel f) where
  pending k v := by
    have hview : (t.cell k).view x = t.current k := view_of_holds h k
    rw [cell_update hu]
    constructor
    · intro hv
      rcases Cell.write_pending_self hv with hold | ⟨r, hr, hsel, rfl⟩
      · exact absurd rfl (h k x v hold)
      · exact ⟨f r, rfl, Changes.update_eq_some.mpr ⟨r, hview ▸ hr, hsel, rfl⟩⟩
    · intro hv
      obtain ⟨r, rfl, hr⟩ := hv
      obtain ⟨s, hs, hsel, rfl⟩ := Changes.update_eq_some.mp hr
      simp only [Cell.write, hview, hs, hsel, if_true]
  base k r _ := by
    rw [cell_update hu, Cell.write_committed]
    rfl

omit [DecidableEq τ] in
theorem of_insert {k : κ} {r : ρ} (h : t.Holds fun y _ _ => y ≠ x) (hi : t.insert x k r = some t') :
    t'.Carries x t.current (Changes.single k r) where
  pending j v := by
    rw [cell_insert hi]
    split
    · rename_i hj
      simp [hj, eq_comm]
    · rename_i hj
      constructor
      · intro hv
        exact absurd rfl (h j x v hv)
      · intro hv
        obtain ⟨s, -, hs⟩ := hv
        exact absurd (Changes.single_eq_some.mp hs).1 hj
  base j s hs := by
    obtain ⟨rfl, -⟩ := Changes.single_eq_some.mp hs
    rw [cell_insert hi, if_pos rfl, current, cell_of_insert hi]
    rfl

/-- **What a commit does**: the changes, and nothing else. -/
theorem commit (h : t.Carries x base δ) : (t.commit x).current = δ.onto t.current := by
  funext k
  show ((t.commit x).cell k).committed = _
  rw [cell_commit]
  cases hk : δ k with
  | some r => rw [Cell.commit_committed_held (h.held hk), Changes.onto_of_some hk]
  | none =>
    rw [Cell.commit_committed_not_held (h.not_held hk), Changes.onto_of_none hk]
    rfl

/-! ### Other transactions -/

theorem update_other (h : t.Carries x base δ) (hxy : x ≠ y) {sel : κ → ρ → Bool} {f : ρ → ρ}
    (hu : t.update y sel f = some t') : t'.Carries x base δ where
  pending k v := by
    rw [cell_update hu, Cell.write_pending_other hxy fun r hr hsel => update_free hu hr hsel]
    exact h.pending k v
  base k r hr := by
    rw [cell_update hu, Cell.write_committed]
    exact h.base k r hr

omit [DecidableEq τ] in
theorem insert_other (h : t.Carries x base δ) (hxy : x ≠ y) {k : κ} {r : ρ}
    (hi : t.insert y k r = some t') : t'.Carries x base δ where
  pending j v := by
    rw [cell_insert hi]
    split
    · rename_i hj
      subst hj
      constructor
      · intro hv
        exact absurd (congrArg Prod.fst (Option.some.inj hv)).symm hxy
      · intro hv
        obtain ⟨s, -, hs⟩ := hv
        have hheld := h.held hs
        rw [cell_of_insert hi] at hheld
        cases hheld
    · exact h.pending j v
  base j s hs := by
    rw [cell_insert hi]
    split
    · rename_i hj
      subst hj
      have hheld := h.held hs
      rw [cell_of_insert hi] at hheld
      cases hheld
    · exact h.base j s hs

theorem commit_other (h : t.Carries x base δ) (hxy : x ≠ y) : (t.commit y).Carries x base δ where
  pending k v := by
    rw [cell_commit, Cell.commit_pending_other hxy]
    exact h.pending k v
  base k r hr := by
    have hnot : ∀ v, (t.cell k).pending ≠ some (y, v) := by
      intro v hv
      rw [h.held hr] at hv
      exact hxy (congrArg Prod.fst (Option.some.inj hv))
    rw [cell_commit, Cell.commit_committed_not_held hnot]
    exact h.base k r hr

theorem rollback_other (h : t.Carries x base δ) (hxy : x ≠ y) :
    (t.rollback y).Carries x base δ where
  pending k v := by
    rw [cell_rollback, Cell.rollback_pending_other hxy]
    exact h.pending k v
  base k r hr := by
    rw [cell_rollback, Cell.rollback_committed]
    exact h.base k r hr

end Carries

end Table

end Versioned
