import Mathlib.Algebra.Order.Ring.Int

/-!
# Quantities in whole units

A quantity is taken apart into units by dividing, subtracting what was counted, and dividing again
by the next smaller unit. With division that **truncates** the parts of a negative quantity are
negative too, and all that has to be known is here: the parts of two units add up to what the
smaller unit alone counts (`tdiv_mul_add_tdiv_tmod`), the second part stays below the ratio, and
both have the sign of the quantity.

Below it is the number format in which durations are often kept: whole seconds, rounded **down**,
and the nanoseconds that are missing, which are never negative. Counting in it truncates all the
same.
-/

set_option autoImplicit false

namespace Units

variable {n k c : Int}

/-- Two functions that mirror negative quantities agree if they agree on the others. -/
theorem eq_of_odd {f g : Int → Int} (hf : ∀ n, f (-n) = -f n) (hg : ∀ n, g (-n) = -g n)
    (h : ∀ n, 0 ≤ n → f n = g n) (n : Int) : f n = g n := by
  by_cases hn : 0 ≤ n
  · exact h n hn
  · have hneg := h (-n) (by omega)
    rw [hf, hg] at hneg
    exact Int.neg_inj.mp hneg

/-- The larger unit and the rest in the smaller one count what the smaller one counts alone. -/
theorem tdiv_mul_add_tdiv_tmod (hk : 0 < k) (hc : 0 < c) (n : Int) :
    n.tdiv (k * c) * k + (n.tmod (k * c)).tdiv c = n.tdiv c := by
  have hkc : 0 < k * c := Int.mul_pos hk hc
  apply eq_of_odd (f := fun n => n.tdiv (k * c) * k + (n.tmod (k * c)).tdiv c)
    (g := fun n => n.tdiv c)
  · intro n
    simp only [Int.neg_tdiv, Int.neg_tmod, Int.neg_mul, Int.neg_add]
  · exact fun n => Int.neg_tdiv n c
  · intro m hm
    have hrest : 0 ≤ m % (k * c) := Int.emod_nonneg m hkc.ne'
    have hsplit : m = m % (k * c) + m / (k * c) * k * c := by
      rw [Int.mul_assoc, Int.mul_comm (m / (k * c))]
      exact (Int.emod_add_mul_ediv m (k * c)).symm
    show m.tdiv (k * c) * k + (m.tmod (k * c)).tdiv c = m.tdiv c
    rw [Int.tdiv_eq_ediv_of_nonneg hm, Int.tdiv_eq_ediv_of_nonneg hm, Int.tmod_eq_emod_of_nonneg hm,
      Int.tdiv_eq_ediv_of_nonneg hrest]
    conv_rhs => rw [hsplit]
    rw [Int.add_mul_ediv_right _ _ hc.ne', Int.add_comm]

/-- Counting the smaller unit first changes nothing. -/
theorem tdiv_tdiv (hc : 0 < c) (k n : Int) : (n.tdiv c).tdiv k = n.tdiv (c * k) := by
  apply eq_of_odd (f := fun n => (n.tdiv c).tdiv k) (g := fun n => n.tdiv (c * k))
  · intro n
    simp only [Int.neg_tdiv]
  · exact fun n => Int.neg_tdiv n (c * k)
  · intro m hm
    have hcounted : 0 ≤ m / c := Int.ediv_nonneg hm hc.le
    show (m.tdiv c).tdiv k = m.tdiv (c * k)
    rw [Int.tdiv_eq_ediv_of_nonneg hm, Int.tdiv_eq_ediv_of_nonneg hm,
      Int.tdiv_eq_ediv_of_nonneg hcounted, Int.ediv_ediv_of_nonneg hc.le]

/-- What the smaller unit counts of the rest is less than one of the larger. -/
theorem natAbs_tdiv_tmod_lt (hk : 0 < k) (hc : 0 < c) (n : Int) :
    ((n.tmod (k * c)).tdiv c).natAbs < k.natAbs := by
  rw [Int.natAbs_tdiv, Int.natAbs_tmod, Int.natAbs_mul]
  show n.natAbs % (k.natAbs * c.natAbs) / c.natAbs < k.natAbs
  have hkc : 0 < k.natAbs * c.natAbs :=
    Nat.mul_pos (Int.natAbs_pos.mpr hk.ne') (Int.natAbs_pos.mpr hc.ne')
  exact Nat.div_lt_of_lt_mul (Nat.mul_comm k.natAbs c.natAbs ▸ Nat.mod_lt _ hkc)

theorem tdiv_nonpos (hn : n ≤ 0) (hc : 0 < c) : n.tdiv c ≤ 0 := by
  have hneg := Int.tdiv_nonneg (Int.neg_nonneg_of_nonpos hn) hc.le
  rw [Int.neg_tdiv] at hneg
  omega

theorem tmod_nonpos (hn : n ≤ 0) (c : Int) : n.tmod c ≤ 0 := by
  have hneg := Int.tmod_nonneg c (Int.neg_nonneg_of_nonpos hn)
  rw [Int.neg_tmod] at hneg
  omega

/-- What has been counted lies between nothing and all. -/
theorem tdiv_mul_between (n c : Int) :
    (0 ≤ n → 0 ≤ n.tdiv c * c ∧ n.tdiv c * c ≤ n) ∧
      (n ≤ 0 → n ≤ n.tdiv c * c ∧ n.tdiv c * c ≤ 0) := by
  have hcounted := Int.tdiv_mul_add_tmod n c
  have habs : (n.tmod c).natAbs ≤ n.natAbs := by
    rw [Int.natAbs_tmod]
    exact Nat.mod_le _ _
  constructor
  · intro hn
    have hrest := Int.tmod_nonneg c hn
    omega
  · intro hn
    have hrest := tmod_nonpos hn c
    omega

/-! ## Seconds and nanoseconds -/

/-- Whole seconds, rounded down, and the nanoseconds after them. -/
structure Duration where
  secs : Int
  nanos : Int
  nanos_nonneg : 0 ≤ nanos
  nanos_lt : nanos < 1000000000

namespace Duration

/-- The duration in nanoseconds. -/
def value (d : Duration) : Int := d.secs * 1000000000 + d.nanos

/-- The whole seconds, truncated: a negative duration that is not whole is rounded up. -/
def numSeconds (d : Duration) : Int := if d.secs < 0 ∧ 0 < d.nanos then d.secs + 1 else d.secs

/-- A duration of whole seconds. -/
def ofSecs (secs : Int) : Duration := ⟨secs, 0, Int.le_refl 0, by decide⟩

/-- The difference, with a second borrowed where the nanoseconds do not suffice. -/
def sub (d d' : Duration) : Duration :=
  if h : d.nanos < d'.nanos then
    ⟨d.secs - d'.secs - 1, d.nanos - d'.nanos + 1000000000,
      by have := d.nanos_nonneg; have := d'.nanos_lt; omega, by omega⟩
  else
    ⟨d.secs - d'.secs, d.nanos - d'.nanos, by omega,
      by have := d.nanos_lt; have := d'.nanos_nonneg; omega⟩

@[simp] theorem value_ofSecs (secs : Int) : (ofSecs secs).value = secs * 1000000000 :=
  Int.add_zero _

@[simp] theorem value_sub (d d' : Duration) : (d.sub d').value = d.value - d'.value := by
  unfold sub value
  split <;> dsimp only <;> omega

/-- The count truncates the duration. -/
theorem numSeconds_eq (d : Duration) : d.numSeconds = d.value.tdiv 1000000000 := by
  have hnonneg := d.nanos_nonneg
  have hlt := d.nanos_lt
  unfold numSeconds value
  by_cases hneg : d.secs < 0
  · have hmirror : d.secs * 1000000000 + d.nanos = -(-(d.secs * 1000000000 + d.nanos)) := by omega
    rw [hmirror, Int.neg_tdiv, Int.tdiv_eq_ediv_of_nonneg (by omega)]
    split <;> omega
  · rw [if_neg (fun h => hneg h.1), Int.tdiv_eq_ediv_of_nonneg (by omega)]
    omega

/-- And so does the count of a unit of whole seconds. -/
theorem tdiv_numSeconds (d : Duration) (unit : Int) :
    d.numSeconds.tdiv unit = d.value.tdiv (1000000000 * unit) := by
  rw [numSeconds_eq, tdiv_tdiv (by decide)]

end Duration

end Units
