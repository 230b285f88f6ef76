import Mathlib.Data.List.Induction
import Mathlib.Data.List.Nodup
import Mathlib.Data.List.Perm.Basic
import Mathlib.Logic.Function.Basic

/-!
# Joins

Two ways to look a row up by a key that may be missing: `LEFT JOIN`, which keeps a row without a
match and pairs it with nothing, and a hash map that is built first and asked afterwards. **Where
the keys are distinct they agree** (`leftMatches_eq`), in whatever order the map was filled.
-/

set_option autoImplicit false

namespace Joins

variable {β κ : Type} [DecidableEq κ] (key : β → κ)

/-- What a `LEFT JOIN` pairs a row with whose key is `k`: every match, or nothing once. -/
def leftMatches (rows : List β) (k : Option κ) : List (Option β) :=
  match rows.filter fun b => k = some (key b) with
  | [] => [none]
  | b :: bs => (b :: bs).map some

/-- `rows.into_iter().map(|b| (key(b), b)).collect()`: of rows with one key the last one stays. -/
def indexBy (rows : List β) : κ → Option β :=
  rows.foldl (fun index b => Function.update index (key b) (some b)) fun _ => none

variable {key} {rows rows' : List β}

theorem indexBy_concat (rows : List β) (b : β) :
    indexBy key (rows ++ [b]) = Function.update (indexBy key rows) (key b) (some b) := by
  simp [indexBy]

/-- The map knows the keys of the rows and no others. -/
theorem indexBy_eq_none {k : κ} : indexBy key rows k = none ↔ k ∉ rows.map key := by
  induction rows using List.reverseRecOn with
  | nil => simp [indexBy]
  | append_singleton rows c ih =>
    rw [indexBy_concat]
    by_cases hk : k = key c
    · simp [hk]
    · rw [Function.update_of_ne hk, ih]
      simp [hk]

theorem mem_of_indexBy {k : κ} {b : β} (h : indexBy key rows k = some b) : b ∈ rows := by
  induction rows using List.reverseRecOn with
  | nil => cases h
  | append_singleton rows c ih =>
    rw [indexBy_concat] at h
    by_cases hk : k = key c
    · subst hk
      rw [Function.update_self] at h
      obtain rfl := Option.some.inj h
      exact List.mem_append_right _ List.mem_cons_self
    · rw [Function.update_of_ne hk] at h
      exact List.mem_append_left _ (ih h)

/-- What the map holds is a row with the key. -/
theorem indexBy_eq_some (h : (rows.map key).Nodup) {k : κ} {b : β} :
    indexBy key rows k = some b ↔ b ∈ rows ∧ key b = k := by
  induction rows using List.reverseRecOn with
  | nil => simp [indexBy]
  | append_singleton rows c ih =>
    rw [List.map_append, List.nodup_append] at h
    obtain ⟨hrows, -, hdisjoint⟩ := h
    have hfresh : ∀ b ∈ rows, key b ≠ key c := fun b hb =>
      hdisjoint _ (List.mem_map_of_mem hb) _ (List.mem_singleton.mpr rfl)
    rw [indexBy_concat, List.mem_append, List.mem_singleton]
    by_cases hk : k = key c
    · subst hk
      rw [Function.update_self, Option.some.injEq]
      constructor
      · rintro rfl
        exact ⟨.inr rfl, rfl⟩
      · intro hyp
        obtain ⟨hb | rfl, hkey⟩ := hyp
        · exact absurd hkey (hfresh b hb)
        · rfl
    · rw [Function.update_of_ne hk, ih hrows]
      constructor
      · exact fun hyp => ⟨.inl hyp.1, hyp.2⟩
      · intro hyp
        obtain ⟨hb | rfl, hkey⟩ := hyp
        · exact ⟨hb, hkey⟩
        · exact absurd hkey.symm hk

/-- A row has one match at most, the one that the map holds. -/
theorem filter_eq_toList (h : (rows.map key).Nodup) (hperm : rows'.Perm rows) (k : Option κ) :
    rows.filter (fun b => k = some (key b)) = (k.bind (indexBy key rows')).toList := by
  have h' : (rows'.map key).Nodup := (hperm.map key).nodup_iff.mpr h
  cases k with
  | none => simp
  | some k =>
    rw [Option.bind_some]
    -- Both sides have the same elements, and the left one no two of them.
    have hmem : ∀ b, b ∈ rows.filter (fun b => some k = some (key b)) ↔
        indexBy key rows' k = some b := by
      intro b
      rw [indexBy_eq_some h', List.mem_filter, decide_eq_true_eq, Option.some.injEq, hperm.mem_iff]
      exact and_congr_right fun _ => eq_comm
    have hnodup : ((rows.filter fun b => some k = some (key b)).map key).Nodup :=
      h.sublist (List.filter_sublist.map _)
    cases hfound : indexBy key rows' k with
    | none =>
      rw [Option.toList_none, List.eq_nil_iff_forall_not_mem]
      intro b hb
      rw [hmem, hfound] at hb
      cases hb
    | some b =>
      rw [Option.toList_some]
      cases hrows : rows.filter fun b => some k = some (key b) with
      | nil =>
        have hb := (hmem b).mpr hfound
        rw [hrows] at hb
        cases hb
      | cons c cs =>
        have hc : ∀ x ∈ c :: cs, x = b := by
          intro x hx
          rw [← hrows, hmem, hfound] at hx
          exact (Option.some.inj hx).symm
        rw [hrows] at hnodup
        cases cs with
        | nil => rw [hc c List.mem_cons_self]
        | cons d cs =>
          rw [hc c List.mem_cons_self, hc d (by simp)] at hnodup
          simp at hnodup

/-- **The two joins agree** on rows with distinct keys. -/
theorem leftMatches_eq (h : (rows.map key).Nodup) (hperm : rows'.Perm rows) (k : Option κ) :
    leftMatches key rows k = [k.bind (indexBy key rows')] := by
  unfold leftMatches
  rw [filter_eq_toList h hperm]
  cases k.bind (indexBy key rows') <;> rfl

end Joins
