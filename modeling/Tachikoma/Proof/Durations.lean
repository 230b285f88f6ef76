import Tachikoma.Web.Durations

/-!
# The time left is exact

Days, hours and minutes are counted one after the other, each from what the ones before have left.
Whatever the duration, **they add up to its whole minutes**, none is too large for its place, all
have the sign of the duration, and no step goes out of the range of the type: what has been counted
lies between zero and the duration, and so does the rest.
-/

set_option autoImplicit false

namespace Tachikoma

open Units

/-- Days, hours and minutes of a duration of so many nanoseconds. -/
structure ExactBreakdown (nanos days hours minutes : Int) : Prop where
  sum : days * 1440 + hours * 60 + minutes = nanos.tdiv NANOS_PER_MINUTE
  hours_lt : hours.natAbs < 24
  minutes_lt : minutes.natAbs < 60
  nonneg : 0 ≤ nanos → 0 ≤ days ∧ 0 ≤ hours ∧ 0 ≤ minutes
  nonpos : nanos ≤ 0 → days ≤ 0 ∧ hours ≤ 0 ∧ minutes ≤ 0

/-- What is left after the larger units, counted in the next one. -/
theorem exactBreakdown (nanos : Int) :
    ExactBreakdown nanos (nanos.tdiv NANOS_PER_DAY)
      ((nanos.tmod NANOS_PER_DAY).tdiv NANOS_PER_HOUR)
      (((nanos.tmod NANOS_PER_DAY).tmod NANOS_PER_HOUR).tdiv NANOS_PER_MINUTE) where
  sum := by
    have hminute : 0 < NANOS_PER_MINUTE := by decide
    have hday : NANOS_PER_DAY = 1440 * NANOS_PER_MINUTE := by decide
    have hdays := tdiv_mul_add_tdiv_tmod (k := 1440) (by decide) hminute nanos
    have hhours := tdiv_mul_add_tdiv_tmod (k := 60) (by decide) hminute (nanos.tmod NANOS_PER_DAY)
    rw [← hday] at hdays
    change (nanos.tmod NANOS_PER_DAY).tdiv NANOS_PER_HOUR * 60 + _ = _ at hhours
    rw [Int.add_assoc, ← hdays]
    exact congrArg (nanos.tdiv NANOS_PER_DAY * 1440 + ·) hhours
  hours_lt := natAbs_tdiv_tmod_lt (by decide) (by decide) nanos
  minutes_lt := natAbs_tdiv_tmod_lt (by decide) (by decide) (nanos.tmod NANOS_PER_DAY)
  nonneg hsign := by
    have hrest := Int.tmod_nonneg NANOS_PER_DAY hsign
    refine ⟨Int.tdiv_nonneg hsign (by decide), Int.tdiv_nonneg hrest (by decide), ?_⟩
    exact Int.tdiv_nonneg (Int.tmod_nonneg _ hrest) (by decide)
  nonpos hsign := by
    have hrest := tmod_nonpos hsign NANOS_PER_DAY
    refine ⟨tdiv_nonpos hsign (by decide), tdiv_nonpos hrest (by decide), ?_⟩
    exact tdiv_nonpos (tmod_nonpos hrest _) (by decide)

/-! ## No step leaves the range -/

/-- What lies between zero and a duration is a duration. -/
theorem InRange.of_between {v n : Int} (h : InRange n)
    (hv : (0 ≤ n → 0 ≤ v ∧ v ≤ n) ∧ (n ≤ 0 → n ≤ v ∧ v ≤ 0)) : InRange v := by
  obtain ⟨hmin, hmax⟩ := h
  rcases Int.le_total 0 n with hsign | hsign
  · obtain ⟨hlow, hhigh⟩ := hv.1 hsign
    exact ⟨by omega, hhigh.trans hmax⟩
  · obtain ⟨hlow, hhigh⟩ := hv.2 hsign
    exact ⟨hmin.trans hlow, by omega⟩

/-- What has been counted, and what is left. -/
theorem InRange.tdiv_mul {n : Int} (h : InRange n) (c : Int) : InRange (n.tdiv c * c) :=
  h.of_between (tdiv_mul_between n c)

theorem InRange.tmod {n : Int} (h : InRange n) (c : Int) : InRange (n.tmod c) := by
  obtain ⟨hpos, hneg⟩ := tdiv_mul_between n c
  have hcounted := Int.tdiv_mul_add_tmod n c
  apply h.of_between
  constructor
  · intro hsign
    obtain ⟨hlow, hhigh⟩ := hpos hsign
    omega
  · intro hsign
    obtain ⟨hlow, hhigh⟩ := hneg hsign
    omega

theorem sub_tdiv_mul (n c : Int) : n - n.tdiv c * c = n.tmod c := by
  rw [Int.tmod_def, Int.mul_comm]

namespace Chrono

variable (c : Chrono)

/-- What is left of a duration after its whole units: the unit's constructor and the subtraction
    both succeed. -/
theorem exists_rest {unit : Int} {make : Int → Option c.TimeDelta}
    (hmake : ∀ n, InRange (n * unit) → ∃ d, make n = some d ∧ (c.parts d).value = n * unit)
    (d : c.TimeDelta) : ∃ whole rest, make ((c.parts d).value.tdiv unit) = some whole ∧
      c.sub d whole = some rest ∧ (c.parts rest).value = (c.parts d).value.tmod unit := by
  have hrange := c.inRange d
  obtain ⟨whole, hwhole, hvalue⟩ := hmake _ (hrange.tdiv_mul unit)
  have hleft : (c.parts d).value - (c.parts whole).value = (c.parts d).value.tmod unit := by
    rw [hvalue, sub_tdiv_mul]
  obtain ⟨rest, hrest, hrestValue⟩ := c.sub_eq d whole (hleft ▸ hrange.tmod unit)
  exact ⟨whole, rest, hwhole, hrest, hrestValue.trans hleft⟩

/-- What `format_duration` computes. -/
theorem breakdown_eq (d : c.TimeDelta) : c.breakdown d =
    some ((c.parts d).value.tdiv NANOS_PER_DAY,
      ((c.parts d).value.tmod NANOS_PER_DAY).tdiv NANOS_PER_HOUR,
      (((c.parts d).value.tmod NANOS_PER_DAY).tmod NANOS_PER_HOUR).tdiv NANOS_PER_MINUTE) := by
  obtain ⟨days, afterDays, hdays, hafterDays, hvalue⟩ := c.exists_rest c.days_eq d
  obtain ⟨hours, afterHours, hhours, hafterHours, hvalue'⟩ := c.exists_rest c.hours_eq afterDays
  rw [hvalue] at hhours hvalue'
  simp only [breakdown, c.numDays_eq, c.numHours_eq, c.numMinutes_eq, hdays, hafterDays, hvalue,
    hhours, hafterHours, hvalue', Option.bind_eq_bind, Option.bind_some, Option.pure_def]

/-- **The breakdown is exact**, for every duration. -/
theorem formatDuration_exact (d : c.TimeDelta) : ∃ days hours minutes,
    c.breakdown d = some (days, hours, minutes) ∧
      c.formatDuration d = some s!"{days} days, {hours} hours, {minutes} minutes" ∧
      ExactBreakdown (c.parts d).value days hours minutes := by
  refine ⟨_, _, _, c.breakdown_eq d, ?_, exactBreakdown _⟩
  rw [formatDuration, c.breakdown_eq d]
  rfl

/-- A lease that ended a day and half a second ago. -/
theorem formatDuration_exact_pairs : ∃ d : pairs.TimeDelta,
    (pairs.parts d).secs = -86401 ∧ (pairs.parts d).nanos = 500000000 ∧
      pairs.breakdown d = some (-1, 0, 0) ∧ ExactBreakdown (pairs.parts d).value (-1) 0 0 := by
  let d : pairs.TimeDelta := ⟨⟨-86401, 500000000, by decide, by decide⟩, by decide⟩
  have hcomputed : pairs.breakdown d = some (-1, 0, 0) := by decide
  obtain ⟨days, hours, minutes, hbreakdown, -, hexact⟩ := formatDuration_exact pairs d
  rw [hcomputed] at hbreakdown
  cases hbreakdown
  exact ⟨d, rfl, rfl, hcomputed, hexact⟩

end Chrono

/-! ## The durations of the views -/

/-- A unit counted off, and the rest. -/
theorem sub_days_tdiv (d : TimeDelta) :
    d - TimeDelta.days (d.tdiv (TimeDelta.days 1)) = d.tmod (TimeDelta.days 1) := by
  rw [← sub_tdiv_mul, TimeDelta.days, TimeDelta.days, Int.one_mul]

theorem sub_hours_tdiv (d : TimeDelta) :
    d - TimeDelta.hours (d.tdiv (TimeDelta.hours 1)) = d.tmod (TimeDelta.hours 1) := by
  rw [← sub_tdiv_mul, TimeDelta.hours, TimeDelta.hours, Int.one_mul]

/-- What the views show, counted in the nanoseconds that a duration is worth. -/
theorem formatDuration_micros (d : TimeDelta) {days hours minutes : Int}
    (hdays : days = (1000 * d).tdiv NANOS_PER_DAY)
    (hhours : hours = ((1000 * d).tmod NANOS_PER_DAY).tdiv NANOS_PER_HOUR)
    (hminutes : minutes =
      (((1000 * d).tmod NANOS_PER_DAY).tmod NANOS_PER_HOUR).tdiv NANOS_PER_MINUTE) :
    formatDuration d = s!"{days} days, {hours} hours, {minutes} minutes" := by
  have hday : NANOS_PER_DAY = 1000 * TimeDelta.days 1 := by decide
  have hhour : NANOS_PER_HOUR = 1000 * TimeDelta.hours 1 := by decide
  have hminute : NANOS_PER_MINUTE = 1000 * TimeDelta.minutes 1 := by decide
  have hpos : (0 : Int) < 1000 := by decide
  rw [hday, Int.mul_tdiv_mul_of_pos _ _ hpos] at hdays
  rw [hday, hhour, Int.mul_tmod_mul_of_pos _ _ hpos, Int.mul_tdiv_mul_of_pos _ _ hpos] at hhours
  rw [hday, hhour, hminute, Int.mul_tmod_mul_of_pos _ _ hpos, Int.mul_tmod_mul_of_pos _ _ hpos,
    Int.mul_tdiv_mul_of_pos _ _ hpos] at hminutes
  simp only [formatDuration, sub_days_tdiv, sub_hours_tdiv, hdays, hhours, hminutes]

/-- The views show what `format_duration` gives. -/
theorem Chrono.formatDuration_eq (c : Chrono) (d : c.TimeDelta) {micros : Tachikoma.TimeDelta}
    (h : (c.parts d).value = 1000 * micros) :
    c.formatDuration d = some (Tachikoma.formatDuration micros) := by
  rw [formatDuration_micros micros rfl rfl rfl, ← h, Chrono.formatDuration, c.breakdown_eq d]
  rfl

end Tachikoma
