import Mathlib.Data.List.Nodup
import Mathlib.Data.List.Sort

/-!
# Tables of versioned rows

A table in which transactions write without hiding the old rows from one another. Under every key
sits a **cell**: the committed version of the row and, while a transaction has written it and not
yet ended, that transaction's pending version. There is room for one pending version, and that *is*
the row lock: a second writer does not find a place for its version and has to wait.

* A transaction sees its own pending versions and the committed versions of all other rows.
* An `UPDATE` decides which rows it hits on what its transaction sees *when it runs*, and waits
  while a row it would hit is pending for somebody else.
* A commit turns the transaction's pending versions into committed ones; a rollback drops them.

Transactions are only names here (`τ`), and rows are anything (`ρ`); an absent key is an empty
cell, so `Table.cell` is total and every fact below is a fact about one cell.
-/

set_option autoImplicit false

namespace Versioned

/-- The versions of the row under one key: `none` is a row that does not exist. -/
structure Cell (τ ρ : Type) : Type where
  committed : Option ρ
  pending : Option (τ × Option ρ)
  deriving DecidableEq

variable {κ τ ρ : Type}

namespace Cell

/-- The cell of a key that was never used. -/
def empty : Cell τ ρ := ⟨none, none⟩

variable [DecidableEq τ]

/-- What the transaction `x` sees. -/
def view (x : τ) (c : Cell τ ρ) : Option ρ :=
  match c.pending with
  | some (y, v) => if y = x then v else c.committed
  | none => c.committed

/-- Somebody other than `x` has a pending version here. -/
def locked (x : τ) (c : Cell τ ρ) : Bool :=
  match c.pending with
  | some (y, _) => decide (y ≠ x)
  | none => false

/-- `x` rewrites the row it sees with `f`, if `sel` picks it. -/
def write (x : τ) (sel : ρ → Bool) (f : ρ → ρ) (c : Cell τ ρ) : Cell τ ρ :=
  match c.view x with
  | some r => if sel r then { c with pending := some (x, some (f r)) } else c
  | none => c

/-- `x` deletes the row it sees, if `sel` picks it. -/
def erase (x : τ) (sel : ρ → Bool) (c : Cell τ ρ) : Cell τ ρ :=
  match c.view x with
  | some r => if sel r then { c with pending := some (x, none) } else c
  | none => c

def commit (x : τ) (c : Cell τ ρ) : Cell τ ρ :=
  match c.pending with
  | some (y, v) => if y = x then ⟨v, none⟩ else c
  | none => c

def rollback (x : τ) (c : Cell τ ρ) : Cell τ ρ :=
  match c.pending with
  | some (y, _) => if y = x then ⟨c.committed, none⟩ else c
  | none => c

@[simp] theorem view_empty (x : τ) : (empty : Cell τ ρ).view x = none := rfl

@[simp] theorem write_empty (x : τ) (sel : ρ → Bool) (f : ρ → ρ) : empty.write x sel f = empty :=
  rfl

@[simp] theorem erase_empty (x : τ) (sel : ρ → Bool) : (empty : Cell τ ρ).erase x sel = empty := rfl

@[simp] theorem commit_empty (x : τ) : (empty : Cell τ ρ).commit x = empty := rfl

@[simp] theorem rollback_empty (x : τ) : (empty : Cell τ ρ).rollback x = empty := rfl

theorem view_of_not_held {x : τ} {c : Cell τ ρ} (h : ∀ v, c.pending ≠ some (x, v)) :
    c.view x = c.committed := by
  unfold view
  split
  · rename_i y v hp
    rw [if_neg]
    rintro rfl
    exact h v hp
  · rfl

theorem view_of_held {x : τ} {c : Cell τ ρ} {v : Option ρ} (h : c.pending = some (x, v)) :
    c.view x = v := by
  simp [view, h]

theorem not_locked_iff {x : τ} {c : Cell τ ρ} :
    c.locked x = false ↔ ∀ y v, c.pending = some (y, v) → y = x := by
  unfold locked
  split
  · rename_i y v hp
    simp [hp]
  · rename_i hp
    simp [hp]

@[simp] theorem write_committed (x : τ) (sel : ρ → Bool) (f : ρ → ρ) (c : Cell τ ρ) :
    (c.write x sel f).committed = c.committed := by
  unfold write; split
  · split <;> rfl
  · rfl

@[simp] theorem rollback_committed (x : τ) (c : Cell τ ρ) :
    (c.rollback x).committed = c.committed := by
  unfold rollback; split
  · split <;> rfl
  · rfl

/-- A write that does not have to wait leaves the versions of all other transactions alone. -/
theorem write_pending_other {x y : τ} (hxy : y ≠ x) {sel : ρ → Bool} {f : ρ → ρ} {c : Cell τ ρ}
    (hfree : ∀ r, c.view x = some r → sel r = true → c.locked x = false) (v : Option ρ) :
    (c.write x sel f).pending = some (y, v) ↔ c.pending = some (y, v) := by
  unfold write
  split
  · rename_i r hr
    split
    · rename_i hsel
      have hown := not_locked_iff.mp (hfree r hr hsel)
      constructor
      · intro h; exact absurd (congrArg Prod.fst (Option.some.inj h)) (Ne.symm hxy)
      · intro h; exact absurd (hown y v h) hxy
    · rfl
  · rfl

/-- A pending version of `x` after its write is an old one or the row `sel` picked, rewritten. -/
theorem write_pending_self {x : τ} {sel : ρ → Bool} {f : ρ → ρ} {c : Cell τ ρ} {v : Option ρ}
    (h : (c.write x sel f).pending = some (x, v)) :
    c.pending = some (x, v) ∨ ∃ r, c.view x = some r ∧ sel r = true ∧ v = some (f r) := by
  unfold write at h
  split at h
  · rename_i r hr
    split at h
    · rename_i hsel
      simp only [Option.some.injEq, Prod.mk.injEq, true_and] at h
      exact .inr ⟨r, hr, hsel, h.symm⟩
    · exact .inl h
  · exact .inl h

/-- The transaction sees what it has written. -/
theorem write_view (x : τ) (sel : ρ → Bool) (f : ρ → ρ) (c : Cell τ ρ) :
    (c.write x sel f).view x = (c.view x).map fun r => if sel r then f r else r := by
  unfold write
  split
  · rename_i r hr
    split
    · rename_i hsel
      rw [hr, Option.map_some, if_pos hsel]
      exact view_of_held rfl
    · rename_i hsel
      rw [hr, Option.map_some, if_neg hsel]
  · rename_i hr
    rw [hr, Option.map_none]

@[simp] theorem erase_committed (x : τ) (sel : ρ → Bool) (c : Cell τ ρ) :
    (c.erase x sel).committed = c.committed := by
  unfold erase; split
  · split <;> rfl
  · rfl

/-- A pending version after a deletion is an old one, or the absence of a row that `sel` picked. -/
theorem erase_pending {x y : τ} {sel : ρ → Bool} {c : Cell τ ρ} {v : Option ρ}
    (h : (c.erase x sel).pending = some (y, v)) :
    c.pending = some (y, v) ∨ y = x ∧ v = none ∧ ∃ r, c.view x = some r ∧ sel r = true := by
  unfold erase at h
  split at h
  · rename_i r hr
    split at h
    · rename_i hsel
      simp only [Option.some.injEq, Prod.mk.injEq] at h
      exact .inr ⟨h.1.symm, h.2.symm, r, hr, hsel⟩
    · exact .inl h
  · exact .inl h

/-- The transaction does not see any more what it has deleted. -/
theorem erase_view (x : τ) (sel : ρ → Bool) (c : Cell τ ρ) :
    (c.erase x sel).view x = (c.view x).filter fun r => !sel r := by
  unfold erase
  split
  · rename_i r hr
    split
    · rename_i hsel
      rw [hr, Option.filter_some, if_neg (by simp [hsel])]
      exact view_of_held rfl
    · rename_i hsel
      rw [hr, Option.filter_some, if_pos (by simpa using hsel)]
  · rename_i hr
    rw [hr, Option.filter_none]

theorem commit_pending_other {x y : τ} (hxy : y ≠ x) (c : Cell τ ρ) (v : Option ρ) :
    (c.commit x).pending = some (y, v) ↔ c.pending = some (y, v) := by
  unfold commit
  split
  · rename_i z w hp
    split
    · rename_i hz; subst hz; simp [hp, Ne.symm hxy]
    · rfl
  · rfl

theorem commit_pending_self (x : τ) (c : Cell τ ρ) (v : Option ρ) :
    (c.commit x).pending ≠ some (x, v) := by
  unfold commit
  split
  · rename_i z w hp
    split
    · simp
    · rename_i hz; rw [hp]; simp [hz]
  · rename_i hp; simp [hp]

theorem commit_committed_held {x : τ} {c : Cell τ ρ} {v : Option ρ}
    (h : c.pending = some (x, v)) : (c.commit x).committed = v := by
  simp [commit, h]

theorem commit_committed_not_held {x : τ} {c : Cell τ ρ} (h : ∀ v, c.pending ≠ some (x, v)) :
    (c.commit x).committed = c.committed := by
  unfold commit
  split
  · rename_i y v hp
    rw [if_neg]
    rintro rfl
    exact h v hp
  · rfl

/-- A commit that leaves something pending has changed nothing. -/
theorem commit_of_pending {x : τ} {c : Cell τ ρ} {v : τ × Option ρ}
    (h : (c.commit x).pending = some v) : c.commit x = c := by
  unfold commit at h ⊢
  split
  · rename_i y w hp
    simp only [hp] at h
    split
    · rename_i hy
      simp [hy] at h
    · rfl
  · rfl

/-- Only what a transaction has pending changes when it ends. -/
theorem held_of_commit_ne {x : τ} {c : Cell τ ρ} (h : c.commit x ≠ c) :
    ∃ v, c.pending = some (x, v) := by
  by_contra hno
  refine h ?_
  unfold commit
  split
  · rename_i y w hp
    rw [if_neg]
    intro hy
    exact hno ⟨w, hy ▸ hp⟩
  · rfl

theorem held_of_rollback_ne {x : τ} {c : Cell τ ρ} (h : c.rollback x ≠ c) :
    ∃ v, c.pending = some (x, v) := by
  by_contra hno
  refine h ?_
  unfold rollback
  split
  · rename_i y w hp
    rw [if_neg]
    intro hy
    exact hno ⟨w, hy ▸ hp⟩
  · rfl

/-- A write changes a cell whose row it picks. -/
theorem view_of_write_ne {x : τ} {sel : ρ → Bool} {f : ρ → ρ} {c : Cell τ ρ}
    (h : c.write x sel f ≠ c) : ∃ r, c.view x = some r ∧ sel r = true := by
  unfold write at h
  split at h
  · rename_i r hr
    split at h
    · rename_i hsel
      exact ⟨r, hr, hsel⟩
    · exact absurd rfl h
  · exact absurd rfl h

/-- What is seen is committed, or pending for who sees it. -/
theorem view_cases {x : τ} {c : Cell τ ρ} {r : ρ} (h : c.view x = some r) :
    c.committed = some r ∨ ∃ v, c.pending = some (x, v) := by
  by_cases hheld : ∃ v, c.pending = some (x, v)
  · exact .inr hheld
  · exact .inl (by rw [← view_of_not_held (not_exists.mp hheld)]; exact h)

/-- The row is committed, or pending for somebody. -/
def Version (c : Cell τ ρ) (r : ρ) : Prop :=
  c.committed = some r ∨ ∃ x, c.pending = some (x, some r)

omit [DecidableEq τ] in
theorem not_version_empty {r : ρ} : ¬ (empty : Cell τ ρ).Version r := by
  simp [Version, empty]

omit [DecidableEq τ] in
theorem version_insert {x : τ} {r s : ρ} (h : (⟨none, some (x, some r)⟩ : Cell τ ρ).Version s) :
    s = r := by
  rcases h with h | ⟨y, h⟩
  · cases h
  · simp only [Option.some.injEq, Prod.mk.injEq] at h
    exact h.2.symm

theorem version_of_view {x : τ} {c : Cell τ ρ} {r : ρ} (h : c.view x = some r) : c.Version r := by
  by_cases hheld : ∃ v, c.pending = some (x, v)
  · obtain ⟨v, hv⟩ := hheld
    rw [view_of_held hv] at h
    exact .inr ⟨x, h ▸ hv⟩
  · rw [view_of_not_held (not_exists.mp hheld)] at h
    exact .inl h

theorem version_write {x : τ} {sel : ρ → Bool} {f : ρ → ρ} {c : Cell τ ρ} {r : ρ}
    (h : (c.write x sel f).Version r) :
    c.Version r ∨ ∃ s, c.view x = some s ∧ sel s = true ∧ r = f s := by
  unfold write at h
  split at h
  · rename_i s hs
    split at h
    · rename_i hsel
      rcases h with h | ⟨y, h⟩
      · exact .inl (.inl h)
      · simp only [Option.some.injEq, Prod.mk.injEq] at h
        exact .inr ⟨s, hs, hsel, h.2.symm⟩
    · exact .inl h
  · exact .inl h

theorem version_commit {x : τ} {c : Cell τ ρ} {r : ρ} (h : (c.commit x).Version r) :
    c.Version r := by
  unfold commit at h
  split at h
  · rename_i y v hp
    split at h
    · rcases h with h | ⟨z, h⟩
      · exact .inr ⟨y, by rw [hp]; exact congrArg (fun v => some (y, v)) h⟩
      · cases h
    · exact h
  · exact h

theorem version_rollback {x : τ} {c : Cell τ ρ} {r : ρ} (h : (c.rollback x).Version r) :
    c.Version r := by
  unfold rollback at h
  split at h
  · split at h
    · rcases h with h | ⟨z, h⟩
      · exact .inl h
      · cases h
    · exact h
  · exact h

/-- What a transaction sees when it commits is what everybody sees then. -/
theorem commit_committed (x : τ) (c : Cell τ ρ) : (c.commit x).committed = c.view x := by
  by_cases hheld : ∃ v, c.pending = some (x, v)
  · obtain ⟨v, hv⟩ := hheld
    rw [commit_committed_held hv, view_of_held hv]
  · rw [commit_committed_not_held (not_exists.mp hheld), view_of_not_held (not_exists.mp hheld)]

theorem rollback_pending_other {x y : τ} (hxy : y ≠ x) (c : Cell τ ρ) (v : Option ρ) :
    (c.rollback x).pending = some (y, v) ↔ c.pending = some (y, v) := by
  unfold rollback
  split
  · rename_i z w hp
    split
    · rename_i hz; subst hz; simp [hp, Ne.symm hxy]
    · rfl
  · rfl

theorem rollback_pending_self (x : τ) (c : Cell τ ρ) (v : Option ρ) :
    (c.rollback x).pending ≠ some (x, v) := by
  unfold rollback
  split
  · rename_i z w hp
    split
    · simp
    · rename_i hz; rw [hp]; simp [hz]
  · rename_i hp; simp [hp]

/-- A write that does not have to wait changes nothing that another transaction sees. -/
theorem write_view_other {x y : τ} (hxy : x ≠ y) {sel : ρ → Bool} {f : ρ → ρ} {c : Cell τ ρ}
    (hfree : ∀ r, c.view y = some r → sel r = true → c.locked y = false) :
    (c.write y sel f).view x = c.view x := by
  have hpending : ∀ v, (c.write y sel f).pending = some (x, v) ↔ c.pending = some (x, v) :=
    write_pending_other hxy hfree
  by_cases hheld : ∃ v, c.pending = some (x, v)
  · obtain ⟨v, hv⟩ := hheld
    rw [view_of_held hv, view_of_held ((hpending v).mpr hv)]
  · have hno := not_exists.mp hheld
    rw [view_of_not_held hno, view_of_not_held fun v hv => hno v ((hpending v).mp hv),
      write_committed]

theorem rollback_view_other {x y : τ} (hxy : x ≠ y) (c : Cell τ ρ) :
    (c.rollback y).view x = c.view x := by
  have hpending := fun v => rollback_pending_other hxy c v
  by_cases hheld : ∃ v, c.pending = some (x, v)
  · obtain ⟨v, hv⟩ := hheld
    rw [view_of_held hv, view_of_held ((hpending v).mpr hv)]
  · have hno := not_exists.mp hheld
    rw [view_of_not_held hno, view_of_not_held fun v hv => hno v ((hpending v).mp hv),
      rollback_committed]

/-- Where nobody deletes, a row that is there is seen by everybody. -/
theorem view_ne_none {x : τ} {c : Cell τ ρ} (hkept : ∀ y v, c.pending = some (y, v) → v ≠ none)
    (h : c.committed ≠ none) : c.view x ≠ none := by
  by_cases hheld : ∃ v, c.pending = some (x, v)
  · obtain ⟨v, hv⟩ := hheld
    rw [view_of_held hv]
    exact hkept x v hv
  · rw [view_of_not_held (not_exists.mp hheld)]
    exact h

/-- And what a transaction sees is there after the commit of another. -/
theorem commit_view_ne_none {x y : τ} (hxy : x ≠ y) {c : Cell τ ρ}
    (hkept : ∀ z v, c.pending = some (z, v) → v ≠ none) (h : c.view x ≠ none) :
    (c.commit y).view x ≠ none := by
  have hpending := fun v => commit_pending_other hxy c v
  by_cases hheld : ∃ v, c.pending = some (x, v)
  · obtain ⟨v, hv⟩ := hheld
    rw [view_of_held ((hpending v).mpr hv)]
    exact hkept x v hv
  · have hno := not_exists.mp hheld
    rw [view_of_not_held fun v hv => hno v ((hpending v).mp hv), commit_committed]
    rw [view_of_not_held hno] at h
    exact view_ne_none hkept h

end Cell

/-- The cells of a table, one for each key that was ever used. -/
structure Table (κ τ ρ : Type) : Type where
  cells : List (κ × Cell τ ρ)
  nodup : (cells.map Prod.fst).Nodup

namespace Table

variable [DecidableEq κ]

/-- The cell under a key; empty for a key that was never used. -/
def cell (t : Table κ τ ρ) (k : κ) : Cell τ ρ :=
  ((t.cells.find? fun c => c.1 = k).map Prod.snd).getD .empty

theorem cell_of_mem {t : Table κ τ ρ} {k : κ} {c : Cell τ ρ} (h : (k, c) ∈ t.cells) :
    t.cell k = c := by
  have hfind : t.cells.find? (fun c => c.1 = k) = some (k, c) := by
    have hnd := t.nodup
    revert h hnd
    induction t.cells with
    | nil => intro h; simp at h
    | cons d ds ih =>
      intro h hnd
      rw [List.map_cons, List.nodup_cons] at hnd
      rw [List.find?_cons]
      rcases List.mem_cons.mp h with rfl | h
      · simp
      · have hne : d.1 ≠ k := by
          rintro rfl
          exact hnd.1 (List.mem_map.mpr ⟨_, h, rfl⟩)
        simp only [hne, decide_false]
        exact ih h hnd.2
  simp [cell, hfind]

theorem cell_cases (t : Table κ τ ρ) (k : κ) :
    (k, t.cell k) ∈ t.cells ∨ (k ∉ t.cells.map Prod.fst ∧ t.cell k = .empty) := by
  cases hf : t.cells.find? (fun c => c.1 = k) with
  | none =>
    refine .inr ⟨?_, by simp [cell, hf]⟩
    intro hk
    obtain ⟨c, hc, rfl⟩ := List.mem_map.mp hk
    simpa using List.find?_eq_none.mp hf c hc
  | some c =>
    have hmem := List.mem_of_find?_eq_some hf
    have hk : c.1 = k := by simpa using List.find?_some hf
    refine .inl ?_
    rw [← hk]
    have : t.cell c.1 = c.2 := cell_of_mem hmem
    rw [this]
    exact hmem

/-! ## Reading rows -/

/-- The rows that one reading of the cells sees, with their keys. -/
def rowsBy (f : Cell τ ρ → Option ρ) (t : Table κ τ ρ) : List (κ × ρ) :=
  t.cells.filterMap fun c => (f c.2).map (c.1, ·)

theorem mem_rowsBy {f : Cell τ ρ → Option ρ} (hf : f .empty = none) {t : Table κ τ ρ} {k : κ}
    {r : ρ} : (k, r) ∈ t.rowsBy f ↔ f (t.cell k) = some r := by
  simp only [rowsBy, List.mem_filterMap, Option.map_eq_some_iff, Prod.mk.injEq]
  constructor
  · rintro ⟨⟨k', c⟩, hc, r', hr, rfl, rfl⟩
    rw [cell_of_mem hc]
    exact hr
  · intro h
    rcases t.cell_cases k with hmem | ⟨_, hempty⟩
    · exact ⟨_, hmem, r, h, rfl, rfl⟩
    · rw [hempty, hf] at h
      cases h

omit [DecidableEq κ] in
theorem rowsBy_keys_nodup (f : Cell τ ρ → Option ρ) (t : Table κ τ ρ) :
    ((t.rowsBy f).map Prod.fst).Nodup := by
  have hsub : (t.rowsBy f).map Prod.fst |>.Sublist (t.cells.map Prod.fst) := by
    unfold rowsBy
    induction t.cells with
    | nil => simp
    | cons c cs ih =>
      rw [List.filterMap_cons]
      cases f c.2 with
      | none => exact ih.trans (List.sublist_cons_self _ _)
      | some r => simpa using ih.cons_cons c.1
  exact hsub.nodup t.nodup

/-- The rows everybody sees. -/
def committedRows (t : Table κ τ ρ) : List (κ × ρ) := t.rowsBy Cell.committed

/-- The rows the transaction `x` sees. -/
def rows [DecidableEq τ] (x : τ) (t : Table κ τ ρ) : List (κ × ρ) := t.rowsBy (Cell.view x)

theorem mem_committedRows {t : Table κ τ ρ} {k : κ} {r : ρ} :
    (k, r) ∈ t.committedRows ↔ (t.cell k).committed = some r := mem_rowsBy rfl

theorem mem_rows [DecidableEq τ] {x : τ} {t : Table κ τ ρ} {k : κ} {r : ρ} :
    (k, r) ∈ t.rows x ↔ (t.cell k).view x = some r := mem_rowsBy rfl

/-! ## Writing -/

/-- Change every cell in its place. -/
def mapCells (g : κ → Cell τ ρ → Cell τ ρ) (t : Table κ τ ρ) : Table κ τ ρ where
  cells := t.cells.map fun c => (c.1, g c.1 c.2)
  nodup := by simpa [Function.comp_def] using t.nodup

theorem cell_mapCells {g : κ → Cell τ ρ → Cell τ ρ} (hg : ∀ k, g k .empty = .empty)
    (t : Table κ τ ρ) (k : κ) : (t.mapCells g).cell k = g k (t.cell k) := by
  rcases t.cell_cases k with hmem | ⟨hk, hempty⟩
  · exact cell_of_mem (List.mem_map.mpr ⟨_, hmem, rfl⟩)
  · rw [hempty, hg]
    rcases (t.mapCells g).cell_cases k with hmem | ⟨_, he⟩
    · exact absurd (List.mem_map_of_mem (f := Prod.fst) hmem)
        (by simpa [mapCells, Function.comp_def] using hk)
    · exact he

variable [DecidableEq τ]

/-- `UPDATE … SET f WHERE sel`: `none` while a row it hits is pending for somebody else. -/
def update (x : τ) (sel : κ → ρ → Bool) (f : ρ → ρ) (t : Table κ τ ρ) : Option (Table κ τ ρ) :=
  if t.cells.any fun c => c.2.locked x && ((c.2.view x).any (sel c.1)) then none
  else some (t.mapCells fun k => Cell.write x (sel k) f)

/-- `DELETE … WHERE sel`: `none` while a row it hits is pending for somebody else. -/
def delete (x : τ) (sel : κ → ρ → Bool) (t : Table κ τ ρ) : Option (Table κ τ ρ) :=
  if t.cells.any fun c => c.2.locked x && ((c.2.view x).any (sel c.1)) then none
  else some (t.mapCells fun k => Cell.erase x (sel k))

/-- `INSERT` of a row under a key that was never used. -/
def insert (x : τ) (k : κ) (r : ρ) (t : Table κ τ ρ) : Option (Table κ τ ρ) :=
  if h : k ∈ t.cells.map Prod.fst then none
  else some ⟨t.cells ++ [(k, ⟨none, some (x, some r)⟩)], by
    rw [List.map_append, List.nodup_append]
    refine ⟨t.nodup, by simp, ?_⟩
    intro a ha b hb
    simp only [List.map_cons, List.map_nil, List.mem_singleton] at hb
    subst hb
    rintro rfl
    exact h ha⟩

def commit (x : τ) (t : Table κ τ ρ) : Table κ τ ρ := t.mapCells fun _ => Cell.commit x

def rollback (x : τ) (t : Table κ τ ρ) : Table κ τ ρ := t.mapCells fun _ => Cell.rollback x

@[simp] theorem cell_commit (x : τ) (t : Table κ τ ρ) (k : κ) :
    (t.commit x).cell k = (t.cell k).commit x := cell_mapCells (by simp) t k

@[simp] theorem cell_rollback (x : τ) (t : Table κ τ ρ) (k : κ) :
    (t.rollback x).cell k = (t.cell k).rollback x := cell_mapCells (by simp) t k

theorem cell_update {x : τ} {sel : κ → ρ → Bool} {f : ρ → ρ} {t t' : Table κ τ ρ}
    (h : t.update x sel f = some t') (k : κ) :
    t'.cell k = (t.cell k).write x (sel k) f := by
  unfold update at h
  split at h
  · cases h
  · cases h
    exact cell_mapCells (by simp) t k

theorem cell_delete {x : τ} {sel : κ → ρ → Bool} {t t' : Table κ τ ρ}
    (h : t.delete x sel = some t') (k : κ) : t'.cell k = (t.cell k).erase x (sel k) := by
  unfold delete at h
  split at h
  · cases h
  · cases h
    exact cell_mapCells (by simp) t k

/-- An update that runs finds every row it hits free, or its own. -/
theorem update_free {x : τ} {sel : κ → ρ → Bool} {f : ρ → ρ} {t t' : Table κ τ ρ}
    (h : t.update x sel f = some t') {k : κ} {r : ρ} (hr : (t.cell k).view x = some r)
    (hsel : sel k r = true) : (t.cell k).locked x = false := by
  unfold update at h
  split at h
  · cases h
  · rename_i hany
    rcases t.cell_cases k with hmem | ⟨_, hempty⟩
    · cases hl : (t.cell k).locked x with
      | false => rfl
      | true =>
        refine absurd ?_ hany
        rw [List.any_eq_true]
        exact ⟨_, hmem, by simp [hl, hr, hsel]⟩
    · rw [hempty] at hr
      cases hr

/-- An update that finds no row of somebody else runs. -/
theorem exists_update {x : τ} {t : Table κ τ ρ} (h : ∀ k, (t.cell k).locked x = false)
    (sel : κ → ρ → Bool) (f : ρ → ρ) : ∃ t', t.update x sel f = some t' := by
  refine ⟨_, if_neg ?_⟩
  rw [List.any_eq_true]
  rintro ⟨⟨k, c⟩, hc, hl⟩
  rw [← cell_of_mem hc, h k] at hl
  cases hl

/-- And so does a deletion. -/
theorem exists_delete {x : τ} {t : Table κ τ ρ} (h : ∀ k, (t.cell k).locked x = false)
    (sel : κ → ρ → Bool) : ∃ t', t.delete x sel = some t' := by
  refine ⟨_, if_neg ?_⟩
  rw [List.any_eq_true]
  intro hyp
  obtain ⟨⟨k, c⟩, hc, hl⟩ := hyp
  rw [← cell_of_mem hc, h k] at hl
  cases hl

omit [DecidableEq τ] in
theorem cell_insert {x : τ} {k : κ} {r : ρ} {t t' : Table κ τ ρ} (h : t.insert x k r = some t')
    (j : κ) : t'.cell j = if j = k then ⟨none, some (x, some r)⟩ else t.cell j := by
  unfold insert at h
  split at h
  · cases h
  · rename_i hk
    cases h
    split
    · rename_i hj
      subst hj
      exact cell_of_mem (by simp)
    · rename_i hj
      rcases t.cell_cases j with hmem | ⟨hjk, hempty⟩
      · exact cell_of_mem (List.mem_append_left _ hmem)
      · rw [hempty]
        rcases cell_cases (⟨t.cells ++ [(k, ⟨none, some (x, some r)⟩)], _⟩ : Table κ τ ρ) j with
          hmem | ⟨_, he⟩
        · refine absurd (List.mem_map_of_mem (f := Prod.fst) hmem) ?_
          simpa [hj] using hjk
        · exact he

omit [DecidableEq τ] in
theorem cell_of_insert {x : τ} {k : κ} {r : ρ} {t t' : Table κ τ ρ}
    (h : t.insert x k r = some t') : t.cell k = .empty := by
  unfold insert at h
  split at h
  · cases h
  · rename_i hk
    rcases t.cell_cases k with hmem | ⟨_, hempty⟩
    · exact absurd (List.mem_map_of_mem (f := Prod.fst) hmem) hk
    · exact hempty

omit [DecidableEq τ] in
/-- A table stays what it is if its cells do. -/
theorem mapCells_eq_self {g : κ → Cell τ ρ → Cell τ ρ} {t : Table κ τ ρ}
    (h : ∀ k, g k (t.cell k) = t.cell k) : t.mapCells g = t := by
  obtain ⟨cells, hnd⟩ := t
  simp only [mapCells, mk.injEq]
  conv_rhs => rw [← List.map_id cells]
  refine List.map_congr_left fun c hc => ?_
  have hcell := h c.1
  rw [cell_of_mem (show (c.1, c.2) ∈ (⟨cells, hnd⟩ : Table κ τ ρ).cells from hc)] at hcell
  rw [hcell]
  rfl

/-! ## What all versions satisfy

Invariants of a table are of two kinds: what every pending version satisfies, which may depend on
the transaction it belongs to, and what every version does. A statement keeps them if the rows it
writes satisfy them. -/

/-- Every pending version satisfies `P`. -/
def Holds (P : τ → κ → Option ρ → Prop) (t : Table κ τ ρ) : Prop :=
  ∀ k x v, (t.cell k).pending = some (x, v) → P x k v

omit [DecidableEq τ] in
theorem Holds.mono {P Q : τ → κ → Option ρ → Prop} {t : Table κ τ ρ} (h : t.Holds P)
    (hPQ : ∀ x k v, P x k v → Q x k v) : t.Holds Q :=
  fun k x v hp => hPQ x k v (h k x v hp)

theorem Holds.update {P : τ → κ → Option ρ → Prop} {x : τ} {sel : κ → ρ → Bool} {f : ρ → ρ}
    {t t' : Table κ τ ρ} (h : t.Holds P) (hu : t.update x sel f = some t')
    (hw : ∀ k r, (t.cell k).view x = some r → sel k r = true → P x k (some (f r))) :
    t'.Holds P := by
  intro k y v hp
  rw [cell_update hu] at hp
  by_cases hxy : y = x
  · subst hxy
    rcases Cell.write_pending_self hp with hp | ⟨r, hr, hsel, rfl⟩
    · exact h k y v hp
    · exact hw k r hr hsel
  · rw [Cell.write_pending_other hxy fun r hr hsel => update_free hu hr hsel] at hp
    exact h k y v hp

theorem Holds.delete {P : τ → κ → Option ρ → Prop} {x : τ} {sel : κ → ρ → Bool}
    {t t' : Table κ τ ρ} (h : t.Holds P) (hd : t.delete x sel = some t')
    (hw : ∀ k r, (t.cell k).view x = some r → sel k r = true → P x k none) : t'.Holds P := by
  intro k y v hp
  rw [cell_delete hd] at hp
  rcases Cell.erase_pending hp with hp | ⟨rfl, rfl, r, hr, hsel⟩
  · exact h k y v hp
  · exact hw k r hr hsel

omit [DecidableEq τ] in
theorem Holds.insert {P : τ → κ → Option ρ → Prop} {x : τ} {k : κ} {r : ρ} {t t' : Table κ τ ρ}
    (h : t.Holds P) (hi : t.insert x k r = some t') (hr : P x k (some r)) : t'.Holds P := by
  intro j y v hp
  rw [cell_insert hi] at hp
  split at hp
  · rename_i hj
    obtain ⟨rfl, rfl⟩ := Prod.mk.inj (Option.some.inj hp)
    exact hj ▸ hr
  · exact h j y v hp

/-- A transaction that has committed has nothing pending. -/
theorem Holds.commit {P : τ → κ → Option ρ → Prop} {t : Table κ τ ρ} (h : t.Holds P) (x : τ) :
    (t.commit x).Holds fun y k v => y ≠ x ∧ P y k v := by
  intro k y v hp
  rw [cell_commit] at hp
  by_cases hxy : y = x
  · subst hxy
    exact absurd hp (Cell.commit_pending_self y _ v)
  · exact ⟨hxy, h k y v ((Cell.commit_pending_other hxy _ v).mp hp)⟩

theorem Holds.rollback {P : τ → κ → Option ρ → Prop} {t : Table κ τ ρ} (h : t.Holds P) (x : τ) :
    (t.rollback x).Holds fun y k v => y ≠ x ∧ P y k v := by
  intro k y v hp
  rw [cell_rollback] at hp
  by_cases hxy : y = x
  · subst hxy
    exact absurd hp (Cell.rollback_pending_self y _ v)
  · exact ⟨hxy, h k y v ((Cell.rollback_pending_other hxy _ v).mp hp)⟩

/-- Who has nothing pending sees what everybody sees. -/
theorem view_of_holds {x : τ} {t : Table κ τ ρ} (h : t.Holds fun y _ _ => y ≠ x) (k : κ) :
    (t.cell k).view x = (t.cell k).committed :=
  Cell.view_of_not_held fun v hp => h k x v hp rfl

/-- Every version of every row satisfies `Q`. -/
def Everywhere (Q : κ → ρ → Prop) (t : Table κ τ ρ) : Prop :=
  (∀ k r, (t.cell k).committed = some r → Q k r) ∧ t.Holds fun _ k v => ∀ r, v = some r → Q k r

theorem Everywhere.view {Q : κ → ρ → Prop} {t : Table κ τ ρ} (h : t.Everywhere Q) {x : τ} {k : κ}
    {r : ρ} (hr : (t.cell k).view x = some r) : Q k r := by
  unfold Cell.view at hr
  split at hr
  · rename_i y v hp
    split at hr
    · exact h.2 k y v hp r hr
    · exact h.1 k r hr
  · exact h.1 k r hr

theorem Everywhere.update {Q : κ → ρ → Prop} {x : τ} {sel : κ → ρ → Bool} {f : ρ → ρ}
    {t t' : Table κ τ ρ} (h : t.Everywhere Q) (hu : t.update x sel f = some t')
    (hf : ∀ k r, (t.cell k).view x = some r → Q k r → sel k r = true → Q k (f r)) :
    t'.Everywhere Q := by
  refine ⟨fun k r hr => ?_, h.2.update hu fun k r hr hsel r' hr' => ?_⟩
  · rw [cell_update hu, Cell.write_committed] at hr
    exact h.1 k r hr
  · rw [← Option.some.inj hr']
    exact hf k r hr (h.view hr) hsel

theorem Everywhere.commit {Q : κ → ρ → Prop} {t : Table κ τ ρ} (h : t.Everywhere Q) (x : τ) :
    (t.commit x).Everywhere Q := by
  refine ⟨fun k r hr => ?_, (h.2.commit x).mono fun _ _ _ hv => hv.2⟩
  rw [cell_commit] at hr
  by_cases hheld : ∃ v, (t.cell k).pending = some (x, v)
  · obtain ⟨v, hv⟩ := hheld
    rw [Cell.commit_committed_held hv] at hr
    exact h.2 k x v hv r hr
  · rw [Cell.commit_committed_not_held (not_exists.mp hheld)] at hr
    exact h.1 k r hr

theorem Everywhere.rollback {Q : κ → ρ → Prop} {t : Table κ τ ρ} (h : t.Everywhere Q) (x : τ) :
    (t.rollback x).Everywhere Q := by
  refine ⟨fun k r hr => ?_, (h.2.rollback x).mono fun _ _ _ hv => hv.2⟩
  rw [cell_rollback, Cell.rollback_committed] at hr
  exact h.1 k r hr

/-! ## Tables at rest -/

/-- No transaction is writing the table. -/
def Still (t : Table κ τ ρ) : Prop := t.Holds fun _ _ _ => False

namespace Still

variable {t t' : Table κ τ ρ}

omit [DecidableEq τ] in
theorem pending (h : t.Still) (k : κ) : (t.cell k).pending = none :=
  Option.eq_none_iff_forall_ne_some.mpr fun v hv => h k v.1 v.2 hv

theorem view (h : t.Still) (x : τ) (k : κ) : (t.cell k).view x = (t.cell k).committed :=
  view_of_holds (h.mono fun _ _ _ hf => hf.elim) k

theorem not_locked (h : t.Still) (x : τ) (k : κ) : (t.cell k).locked x = false := by
  simp [Cell.locked, h.pending k]

theorem commit (h : t.Still) (x : τ) : t.commit x = t :=
  mapCells_eq_self fun k => by simp [Cell.commit, h.pending k]

theorem rollback (h : t.Still) (x : τ) : t.rollback x = t :=
  mapCells_eq_self fun k => by simp [Cell.rollback, h.pending k]

omit [DecidableEq τ] in
/-- Whatever one transaction then writes is its own. -/
theorem insert (h : t.Still) {x : τ} {k : κ} {r : ρ} (hi : t.insert x k r = some t') :
    t'.Holds fun y _ _ => y = x :=
  Holds.insert (h.mono fun _ _ _ hf => hf.elim) hi rfl

theorem delete (h : t.Still) {x : τ} {sel : κ → ρ → Bool} (hd : t.delete x sel = some t') :
    t'.Holds fun y _ _ => y = x :=
  Holds.delete (h.mono fun _ _ _ hf => hf.elim) hd fun _ _ _ _ => rfl

/-- And when it has ended the table is at rest again. -/
theorem of_commit {x : τ} (h : t.Holds fun y _ _ => y = x) : (t.commit x).Still :=
  (h.commit x).mono fun _ _ _ hv => hv.1 hv.2

/-- A deletion that hits no row changes nothing. -/
theorem delete_of_none (h : t.Still) {x : τ} {sel : κ → ρ → Bool} (hd : t.delete x sel = some t')
    (hsel : ∀ k r, (t.cell k).committed = some r → sel k r = false) : t' = t := by
  unfold Table.delete at hd
  split at hd
  · cases hd
  · rw [← Option.some.inj hd]
    refine mapCells_eq_self fun k => ?_
    unfold Cell.erase
    rw [h.view x k]
    split
    · rename_i r hr
      rw [if_neg (by simp [hsel k r hr])]
    · rfl

end Still

/-! ## Unique columns

The values of a `UNIQUE` column differ between rows, and the constraint looks at pending rows too:
an insert waits for somebody else's row and fails at one that is there. So it is all *versions* of
two rows that differ, as long as updates leave the column alone and nothing is deleted. -/

/-- The versions of all rows have different values of `col`, and those of one row the same. -/
structure Unique {δ : Type} (col : ρ → δ) (t : Table κ τ ρ) : Prop where
  written : t.Holds fun _ _ v => v ≠ none
  fixed : ∀ k r s, (t.cell k).Version r → (t.cell k).Version s → col r = col s
  differ : ∀ j k r s, (t.cell j).Version r → (t.cell k).Version s → col r = col s → j = k

section Unique

variable {δ : Type} {col : ρ → δ}

omit [DecidableEq τ] in
/-- A table whose versions all have the value of a version that was there under the same key. -/
theorem Unique.of_versions {t t' : Table κ τ ρ} (h : t.Unique col)
    (hwritten : t'.Holds fun _ _ v => v ≠ none)
    (hold : ∀ k r, (t'.cell k).Version r → ∃ s, (t.cell k).Version s ∧ col s = col r) :
    t'.Unique col := by
  refine ⟨hwritten, fun k r s hr hs => ?_, fun j k r s hr hs hcol => ?_⟩
  · obtain ⟨r', hr', hcr⟩ := hold k r hr
    obtain ⟨s', hs', hcs⟩ := hold k s hs
    rw [← hcr, ← hcs]
    exact h.fixed k r' s' hr' hs'
  · obtain ⟨r', hr', hcr⟩ := hold j r hr
    obtain ⟨s', hs', hcs⟩ := hold k s hs
    apply h.differ j k r' s' hr' hs'
    rw [hcr, hcs, hcol]

theorem Unique.update {x : τ} {sel : κ → ρ → Bool} {f : ρ → ρ} {t t' : Table κ τ ρ}
    (h : t.Unique col) (hu : t.update x sel f = some t') (hf : ∀ r, col (f r) = col r) :
    t'.Unique col := by
  refine h.of_versions (h.written.update hu fun _ _ _ _ => nofun) fun k r hr => ?_
  rw [cell_update hu] at hr
  rcases Cell.version_write hr with hr | ⟨s, hs, -, rfl⟩
  · exact ⟨r, hr, rfl⟩
  · exact ⟨s, Cell.version_of_view hs, (hf s).symm⟩

omit [DecidableEq τ] in
/-- A row may be inserted if no version has its value. -/
theorem Unique.insert {x : τ} {k : κ} {r : ρ} {t t' : Table κ τ ρ} (h : t.Unique col)
    (hi : t.insert x k r = some t') (hr : ∀ j s, (t.cell j).Version s → col s ≠ col r) :
    t'.Unique col := by
  -- A version afterwards is the new row, or one that was there under another key.
  have hcases : ∀ j s, (t'.cell j).Version s → (j = k ∧ s = r) ∨ (t.cell j).Version s := by
    intro j s hs
    rw [cell_insert hi] at hs
    split at hs
    · rename_i hj
      exact .inl ⟨hj, Cell.version_insert hs⟩
    · exact .inr hs
  have hne : ∀ s, (t.cell k).Version s → False := by
    intro s hs
    rw [cell_of_insert hi] at hs
    exact Cell.not_version_empty hs
  refine ⟨h.written.insert hi nofun, fun j s s' hs hs' => ?_, fun i j s s' hs hs' hcol => ?_⟩
  · rcases hcases j s hs with ⟨rfl, rfl⟩ | hs
    · rcases hcases j s' hs' with ⟨-, rfl⟩ | hs'
      · rfl
      · exact (hne s' hs').elim
    · rcases hcases j s' hs' with ⟨rfl, -⟩ | hs'
      · exact (hne s hs).elim
      · exact h.fixed j s s' hs hs'
  · rcases hcases i s hs with ⟨rfl, rfl⟩ | hs
    · rcases hcases j s' hs' with ⟨rfl, -⟩ | hs'
      · rfl
      · exact absurd hcol.symm (hr j s' hs')
    · rcases hcases j s' hs' with ⟨rfl, rfl⟩ | hs'
      · exact absurd hcol (hr i s hs)
      · exact h.differ i j s s' hs hs' hcol

theorem Unique.commit {t : Table κ τ ρ} (h : t.Unique col) (x : τ) : (t.commit x).Unique col := by
  refine h.of_versions ((h.written.commit x).mono fun _ _ _ hv => hv.2) fun k r hr => ?_
  rw [cell_commit] at hr
  exact ⟨r, Cell.version_commit hr, rfl⟩

theorem Unique.rollback {t : Table κ τ ρ} (h : t.Unique col) (x : τ) :
    (t.rollback x).Unique col := by
  refine h.of_versions ((h.written.rollback x).mono fun _ _ _ hv => hv.2) fun k r hr => ?_
  rw [cell_rollback] at hr
  exact ⟨r, Cell.version_rollback hr, rfl⟩

/-- What the constraint checks before an insert is enough: a version that nobody else is writing is
    one that the transaction sees, or has the value of one that it sees. -/
theorem Unique.free {t : Table κ τ ρ} (h : t.Unique col) (x : τ) {d : δ}
    (hlocked : ∀ k r, (t.cell k).locked x = true → (t.cell k).Version r → col r ≠ d)
    (hview : ∀ k r, (t.cell k).view x = some r → col r ≠ d) (k : κ) (r : ρ)
    (hr : (t.cell k).Version r) : col r ≠ d := by
  cases hl : (t.cell k).locked x with
  | true => exact hlocked k r hl hr
  | false =>
    cases hv : (t.cell k).view x with
    | some s =>
      rw [h.fixed k r s hr (Cell.version_of_view hv)]
      exact hview k s hv
    | none =>
      -- Who sees no row has none pending, for nothing is deleted; so there is no version at all.
      have hown := Cell.not_locked_iff.mp hl
      have hnone : (t.cell k).pending = none := by
        rw [Option.eq_none_iff_forall_ne_some]
        intro y hy
        obtain ⟨y, v⟩ := y
        obtain rfl := hown y v hy
        rw [Cell.view_of_held hy] at hv
        exact h.written k y v hy hv
      rcases hr with hr | ⟨y, hy⟩
      · rw [Cell.view_of_not_held (by simp [hnone]), hr] at hv
        cases hv
      · rw [hnone] at hy
        cases hy

end Unique

/-! ## Tables with nothing pending -/

omit [DecidableEq τ] in
/-- The table of the given rows, all of them committed. -/
def ofRows (l : List (κ × ρ)) (h : (l.map Prod.fst).Nodup) : Table κ τ ρ where
  cells := l.map fun x => (x.1, ⟨some x.2, none⟩)
  nodup := by simpa [Function.comp_def] using h

omit [DecidableEq τ] in
@[simp] theorem ofRows_pending (l : List (κ × ρ)) (h : (l.map Prod.fst).Nodup) (k : κ) :
    ((ofRows l h : Table κ τ ρ).cell k).pending = none := by
  rcases (ofRows l h : Table κ τ ρ).cell_cases k with hmem | ⟨_, he⟩
  · obtain ⟨x, _, hx⟩ := List.mem_map.mp hmem
    rw [← (Prod.mk.inj hx).2]
  · rw [he]; rfl

omit [DecidableEq τ] in
theorem ofRows_holds (P : τ → κ → Option ρ → Prop) (l : List (κ × ρ))
    (h : (l.map Prod.fst).Nodup) : (ofRows l h : Table κ τ ρ).Holds P := by
  intro k x v hp
  rw [ofRows_pending] at hp
  cases hp

omit [DecidableEq κ] [DecidableEq τ] in
@[simp] theorem ofRows_committedRows (l : List (κ × ρ)) (h : (l.map Prod.fst).Nodup) :
    (ofRows l h : Table κ τ ρ).committedRows = l := by
  simp [committedRows, rowsBy, ofRows, List.filterMap_map]

omit [DecidableEq κ] in
theorem ofRows_rows (x : τ) (l : List (κ × ρ)) (h : (l.map Prod.fst).Nodup) :
    (ofRows l h : Table κ τ ρ).rows x = l := by
  simp [rows, rowsBy, ofRows, List.filterMap_map, Cell.view]

/-- Rows rewritten where `sel` picks them. -/
def rewrite (sel : κ → ρ → Bool) (f : ρ → ρ) (l : List (κ × ρ)) : List (κ × ρ) :=
  l.map fun r => (r.1, if sel r.1 r.2 then f r.2 else r.2)

omit [DecidableEq κ] [DecidableEq τ] in
theorem rewrite_nodup (sel : κ → ρ → Bool) (f : ρ → ρ) {l : List (κ × ρ)}
    (h : (l.map Prod.fst).Nodup) : ((rewrite sel f l).map Prod.fst).Nodup := by
  simpa [rewrite, Function.comp_def] using h

omit [DecidableEq κ] in
/-- An update of a table with nothing pending: what its transaction sees, and what becomes of the
    table when the transaction ends. -/
theorem exists_update_ofRows (x : τ) (sel : κ → ρ → Bool) (f : ρ → ρ) (l : List (κ × ρ))
    (h : (l.map Prod.fst).Nodup) :
    ∃ t, (ofRows l h : Table κ τ ρ).update x sel f = some t ∧ t.rows x = rewrite sel f l ∧
      t.commit x = ofRows (rewrite sel f l) (rewrite_nodup sel f h) ∧
      t.rollback x = ofRows l h := by
  refine ⟨_, if_neg ?_, ?_, ?_, ?_⟩
  · simp [ofRows, Cell.locked]
  · simp only [rows, rowsBy, mapCells, ofRows, rewrite, List.map_map, List.filterMap_map]
    rw [List.filterMap_eq_map_iff_forall_eq_some]
    intro r hr
    simp only [Function.comp_apply, Cell.write_view]
    rfl
  · simp only [commit, mapCells, ofRows, rewrite, List.map_map, Table.mk.injEq]
    refine List.map_congr_left fun r hr => ?_
    simp only [Function.comp_apply, Cell.write, Cell.view]
    split <;> simp [Cell.commit]
  · simp only [rollback, mapCells, ofRows, List.map_map, Table.mk.injEq]
    refine List.map_congr_left fun r hr => ?_
    simp only [Function.comp_apply, Cell.write, Cell.view]
    split <;> simp [Cell.rollback]

omit [DecidableEq κ] in
theorem ofRows_commit (x : τ) (l : List (κ × ρ)) (h : (l.map Prod.fst).Nodup) :
    (ofRows l h : Table κ τ ρ).commit x = ofRows l h := by
  simp [commit, mapCells, ofRows, Function.comp_def, Cell.commit]

omit [DecidableEq κ] in
theorem ofRows_rollback (x : τ) (l : List (κ × ρ)) (h : (l.map Prod.fst).Nodup) :
    (ofRows l h : Table κ τ ρ).rollback x = ofRows l h := by
  simp [rollback, mapCells, ofRows, Function.comp_def, Cell.rollback]

omit [DecidableEq τ] in
theorem ofRows_committed {l : List (κ × ρ)} {h : (l.map Prod.fst).Nodup} {k : κ} {r : ρ} :
    ((ofRows l h : Table κ τ ρ).cell k).committed = some r ↔ (k, r) ∈ l := by
  rw [← mem_committedRows, ofRows_committedRows]

end Table

end Versioned
