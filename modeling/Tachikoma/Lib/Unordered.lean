import Mathlib.Data.List.Induction
import Mathlib.Data.List.Nodup
import Mathlib.Data.List.Perm.Basic

/-!
# Collections whose order is left open

A query without `ORDER BY` and an iteration over a hash map give their elements in some order, and
no two runs need agree. Here the order is data: `arrange ns l` is `l` in the order that the list of
choices `ns` stands for, every permutation of `l` is one of these, and what is proved for every `ns`
is proved for every order.

A hash map that is built in one place and iterated in another is an association list with distinct
keys (`entry`, `collect`); its iteration is an arrangement of it.
-/

set_option autoImplicit false

namespace Unordered

variable {α β κ ν : Type}

/-- The list with its elements picked in the order the choices say: each choice is the position of
    the next element among those left, one that points nowhere is skipped, and what is never picked
    comes last. -/
def arrange : List Nat → List α → List α
  | [], l => l
  | n :: ns, l =>
    match l[n]? with
    | some a => a :: arrange ns (l.eraseIdx n)
    | none => arrange ns l

theorem arrange_perm : ∀ (ns : List Nat) (l : List α), (arrange ns l).Perm l
  | [], l => .refl l
  | n :: ns, l => by
    rw [arrange]
    cases h : l[n]? with
    | none => exact arrange_perm ns l
    | some a =>
      obtain ⟨hn, rfl⟩ := List.getElem?_eq_some_iff.mp h
      exact ((arrange_perm ns (l.eraseIdx n)).cons _).trans (List.getElem_cons_eraseIdx_perm hn)

@[simp] theorem mem_arrange {ns : List Nat} {l : List α} {a : α} : a ∈ arrange ns l ↔ a ∈ l :=
  (arrange_perm ns l).mem_iff

/-- The first of the elements, if they agree in what matters. -/
theorem head?_arrange_map {g : α → β} {l : List α} (h : ∀ a ∈ l, ∀ b ∈ l, g a = g b)
    (ns : List Nat) (c : β) : (arrange ns l).head?.map g = some c ↔ ∃ a ∈ l, g a = c := by
  constructor
  · intro hc
    obtain ⟨a, ha, hg⟩ := Option.map_eq_some_iff.mp hc
    exact ⟨a, mem_arrange.mp (List.mem_of_mem_head? ha), hg⟩
  · intro hyp
    obtain ⟨a, ha, hg⟩ := hyp
    cases hl : (arrange ns l).head? with
    | none =>
      rw [List.head?_eq_none_iff] at hl
      have hmem : a ∈ arrange ns l := mem_arrange.mpr ha
      rw [hl] at hmem
      cases hmem
    | some b =>
      have hb := mem_arrange.mp (List.mem_of_mem_head? hl)
      rw [Option.map_some, h b hb a ha, hg]

/-- Every order is the one of some choices. -/
theorem exists_arrange_eq {l l' : List α} (h : l'.Perm l) : ∃ ns, arrange ns l = l' := by
  induction l' generalizing l with
  | nil => exact ⟨[], h.symm.eq_nil⟩
  | cons a l' ih =>
    obtain ⟨n, hn, ha⟩ := List.mem_iff_getElem.mp (h.mem_iff.mp List.mem_cons_self)
    have hperm : l'.Perm (l.eraseIdx n) := by
      have := h.trans (List.getElem_cons_eraseIdx_perm hn).symm
      rw [ha] at this
      exact this.cons_inv
    obtain ⟨ns, hns⟩ := ih hperm
    exact ⟨n :: ns, by rw [arrange, List.getElem?_eq_getElem hn, ha]; simp [hns]⟩

/-! ## Maps that are built by entries -/

variable [DecidableEq κ]

/-- `entry(k).and_modify(f).or_insert(v)`. -/
def entry (k : κ) (f : ν → ν) (v : ν) : List (κ × ν) → List (κ × ν)
  | [] => [(k, v)]
  | x :: m => if x.1 = k then (x.1, f x.2) :: m else x :: entry k f v m

/-- The map of all keys of `l`, under each what its values add up to. -/
def collect (add : β → ν → ν) (one : β → ν) (l : List (κ × β)) : List (κ × ν) :=
  l.foldl (fun m x => entry x.1 (add x.2) (one x.2) m) []

theorem entry_keys (k : κ) (f : ν → ν) (v : ν) (m : List (κ × ν)) (k' : κ) :
    k' ∈ (entry k f v m).map Prod.fst ↔ k' = k ∨ k' ∈ m.map Prod.fst := by
  induction m with
  | nil => simp [entry]
  | cons x m ih =>
    rw [entry]
    split
    · rename_i hx
      simp only [List.map_cons, List.mem_cons, hx]
      tauto
    · simp only [List.map_cons, List.mem_cons, ih]
      tauto

theorem entry_nodup (k : κ) (f : ν → ν) (v : ν) {m : List (κ × ν)} (h : (m.map Prod.fst).Nodup) :
    ((entry k f v m).map Prod.fst).Nodup := by
  induction m with
  | nil => simp [entry]
  | cons x m ih =>
    rw [List.map_cons, List.nodup_cons] at h
    rw [entry]
    split
    · rw [List.map_cons, List.nodup_cons]
      exact h
    · rename_i hx
      rw [List.map_cons, List.nodup_cons, entry_keys]
      refine ⟨?_, ih h.2⟩
      rintro (he | he)
      · exact hx he
      · exact h.1 he

theorem collect_nodup (add : β → ν → ν) (one : β → ν) (l : List (κ × β)) :
    ((collect add one l).map Prod.fst).Nodup := by
  suffices h : ∀ (m : List (κ × ν)), (m.map Prod.fst).Nodup →
      ((l.foldl (fun m x => entry x.1 (add x.2) (one x.2) m) m).map Prod.fst).Nodup from
    h [] (by simp)
  induction l with
  | nil => exact fun m hm => hm
  | cons x l ih => exact fun m hm => ih _ (entry_nodup _ _ _ hm)

/-- An entry keeps what is under the other keys. -/
theorem mem_entry {k k' : κ} {f : ν → ν} {v v' : ν} {m : List (κ × ν)}
    (h : (k', v') ∈ entry k f v m) :
    (k', v') ∈ m ∨ (∃ v₀, (k, v₀) ∈ m ∧ v' = f v₀) ∨ v' = v := by
  induction m with
  | nil =>
    rw [entry, List.mem_singleton, Prod.mk.injEq] at h
    exact .inr (.inr h.2)
  | cons x m ih =>
    rw [entry] at h
    split at h
    · rename_i hx
      rcases List.mem_cons.mp h with heq | h
      · obtain ⟨-, rfl⟩ := Prod.mk.inj heq
        exact .inr (.inl ⟨x.2, by rw [← hx]; exact List.mem_cons_self, rfl⟩)
      · exact .inl (List.mem_cons_of_mem _ h)
    · rcases List.mem_cons.mp h with rfl | h
      · exact .inl List.mem_cons_self
      · rcases ih h with h | ⟨v₀, h, hv⟩ | h
        · exact .inl (List.mem_cons_of_mem _ h)
        · exact .inr (.inl ⟨v₀, List.mem_cons_of_mem _ h, hv⟩)
        · exact .inr (.inr h)

/-- What holds of every value of the map, by the list it is built from: an element more starts a
    value, is added to one, or is none of its business. -/
theorem collect_forall {add : β → ν → ν} {one : β → ν} {Q : List (κ × β) → ν → Prop}
    (hone : ∀ l x, Q (l ++ [x]) (one x.2)) (hadd : ∀ l x v, Q l v → Q (l ++ [x]) (add x.2 v))
    (hkeep : ∀ l x v, Q l v → Q (l ++ [x]) v) (l : List (κ × β)) {k : κ} {v : ν}
    (h : (k, v) ∈ collect add one l) : Q l v := by
  induction l using List.reverseRecOn generalizing k v with
  | nil => cases h
  | append_singleton l x ih =>
    rw [collect, List.foldl_append] at h
    rcases mem_entry h with hold | ⟨v₀, hold, rfl⟩ | rfl
    · exact hkeep l x v (ih hold)
    · exact hadd l x v₀ (ih hold)
    · exact hone l x

section Mem

-- `mem y v` says that `y` is one of the values that `v` adds up.
variable (mem : β → ν → Prop) {add : β → ν → ν} {one : β → ν}

theorem entry_mem (hadd : ∀ y x v, mem y (add x v) ↔ y = x ∨ mem y v)
    (hone : ∀ y x, mem y (one x) ↔ y = x) (k : κ) (x : β) {m : List (κ × ν)}
    (hnd : (m.map Prod.fst).Nodup) (k' : κ) (y : β) :
    (∃ v, (k', v) ∈ entry k (add x) (one x) m ∧ mem y v) ↔
      (k' = k ∧ y = x) ∨ ∃ v, (k', v) ∈ m ∧ mem y v := by
  induction m with
  | nil =>
    simp only [entry, List.mem_singleton, Prod.mk.injEq, List.not_mem_nil, false_and, exists_false,
      or_false]
    constructor
    · rintro ⟨v, ⟨rfl, rfl⟩, hm⟩; exact ⟨rfl, (hone _ _).mp hm⟩
    · rintro ⟨rfl, rfl⟩; exact ⟨_, ⟨rfl, rfl⟩, (hone _ _).mpr rfl⟩
  | cons z m ih =>
    obtain ⟨kz, vz⟩ := z
    rw [List.map_cons, List.nodup_cons] at hnd
    rw [entry]
    dsimp only
    -- Either this is the entry of `k`, and it gets `x`, or it is passed by.
    split
    · rename_i hz
      subst hz
      simp only [List.mem_cons, Prod.mk.injEq]
      constructor
      · rintro ⟨v, ⟨rfl, rfl⟩ | hv, hm⟩
        · rcases (hadd _ _ _).mp hm with rfl | hm
          · exact .inl ⟨rfl, rfl⟩
          · exact .inr ⟨_, .inl ⟨rfl, rfl⟩, hm⟩
        · exact .inr ⟨v, .inr hv, hm⟩
      · rintro (⟨rfl, rfl⟩ | ⟨v, ⟨rfl, rfl⟩ | hv, hm⟩)
        · exact ⟨_, .inl ⟨rfl, rfl⟩, (hadd _ _ _).mpr (.inl rfl)⟩
        · exact ⟨_, .inl ⟨rfl, rfl⟩, (hadd _ _ _).mpr (.inr hm)⟩
        · exact ⟨v, .inr hv, hm⟩
    · simp only [List.mem_cons, Prod.mk.injEq, or_and_right, exists_or]
      rw [ih hnd.2, or_left_comm]

/-- `collect` sorts the values by their keys: it loses none and adds none. -/
theorem collect_mem (hadd : ∀ y x v, mem y (add x v) ↔ y = x ∨ mem y v)
    (hone : ∀ y x, mem y (one x) ↔ y = x) (l : List (κ × β)) (k : κ) (y : β) :
    (∃ v, (k, v) ∈ collect add one l ∧ mem y v) ↔ (k, y) ∈ l := by
  suffices h : ∀ (m : List (κ × ν)), (m.map Prod.fst).Nodup →
      ((∃ v, (k, v) ∈ l.foldl (fun m x => entry x.1 (add x.2) (one x.2) m) m ∧ mem y v) ↔
        (k, y) ∈ l ∨ ∃ v, (k, v) ∈ m ∧ mem y v) by
    simpa [collect] using h [] (by simp)
  induction l with
  | nil => intro m _; simp
  | cons x l ih =>
    intro m hm
    rw [List.foldl_cons, ih _ (entry_nodup _ _ _ hm), entry_mem mem hadd hone _ _ hm]
    simp only [List.mem_cons, Prod.ext_iff]
    tauto

end Mem

end Unordered
