import Tachikoma.Lib.Duration
import Tachikoma.Web.HostInfo

/-!
# The time that a lease has left (`format_duration` in `src/web/templates.rs`)

`chrono` is not part of the repository. What the function relies on is a parameter, `Chrono`, with
what is documented of it: a `TimeDelta` is a number of seconds with nanoseconds that are never
negative, within as many milliseconds as an `i64` holds; the `num_…` methods truncate; a constructor
or a subtraction is exact, or panics where the result is out of range.

The views of hosts use durations in microseconds (`TimeDelta`), which have no range. What their
`formatDuration` says is what the one here says.
-/

set_option autoImplicit false

namespace Tachikoma

def NANOS_PER_MINUTE : Int := 60000000000

def NANOS_PER_HOUR : Int := 60 * NANOS_PER_MINUTE

def NANOS_PER_DAY : Int := 24 * NANOS_PER_HOUR

theorem NANOS_PER_MINUTE_eq : NANOS_PER_MINUTE = 1000000000 * 60 := by decide

theorem NANOS_PER_HOUR_eq : NANOS_PER_HOUR = 1000000000 * 3600 := by decide

theorem NANOS_PER_DAY_eq : NANOS_PER_DAY = 1000000000 * 86400 := by decide

/-- From `-i64::MAX` to `i64::MAX` milliseconds, here in nanoseconds. -/
def InRange (nanos : Int) : Prop :=
  -(9223372036854775807 * 1000000) ≤ nanos ∧ nanos ≤ 9223372036854775807 * 1000000

instance (nanos : Int) : Decidable (InRange nanos) := inferInstanceAs (Decidable (_ ∧ _))

/-- `chrono::TimeDelta`, as far as it is used here; `none` is a panic. -/
structure Chrono where
  TimeDelta : Type
  /-- The seconds and nanoseconds. -/
  parts : TimeDelta → Units.Duration
  numDays : TimeDelta → Int
  numHours : TimeDelta → Int
  numMinutes : TimeDelta → Int
  days : Int → Option TimeDelta
  hours : Int → Option TimeDelta
  sub : TimeDelta → TimeDelta → Option TimeDelta
  inRange : ∀ d, InRange (parts d).value
  numDays_eq : ∀ d, numDays d = (parts d).value.tdiv NANOS_PER_DAY
  numHours_eq : ∀ d, numHours d = (parts d).value.tdiv NANOS_PER_HOUR
  numMinutes_eq : ∀ d, numMinutes d = (parts d).value.tdiv NANOS_PER_MINUTE
  days_eq : ∀ n, InRange (n * NANOS_PER_DAY) →
    ∃ d, days n = some d ∧ (parts d).value = n * NANOS_PER_DAY
  hours_eq : ∀ n, InRange (n * NANOS_PER_HOUR) →
    ∃ d, hours n = some d ∧ (parts d).value = n * NANOS_PER_HOUR
  sub_eq : ∀ a b, InRange ((parts a).value - (parts b).value) →
    ∃ d, sub a b = some d ∧ (parts d).value = (parts a).value - (parts b).value

namespace Chrono

variable (c : Chrono)

/-- The days, hours and minutes that `format_duration` computes; `none` if one of its steps
    panics. -/
def breakdown (duration : c.TimeDelta) : Option (Int × Int × Int) := do
  let days := c.numDays duration
  let hours := c.numHours (← c.sub duration (← c.days days))
  let minutes := c.numMinutes (← c.sub (← c.sub duration (← c.days days)) (← c.hours hours))
  return (days, hours, minutes)

/-- `format_duration`. -/
def formatDuration (duration : c.TimeDelta) : Option String := do
  let (days, hours, minutes) ← c.breakdown duration
  return s!"{days} days, {hours} hours, {minutes} minutes"

/-! ## The type as it is kept

Seconds and nanoseconds, and every unit counted from the whole seconds. -/

/-- A pair in range. -/
def ofPair (d : Units.Duration) : Option { d : Units.Duration // InRange d.value } :=
  if h : InRange d.value then some ⟨d, h⟩ else none

theorem ofPair_eq {d : Units.Duration} {v : Int} (hv : d.value = v) (h : InRange v) :
    ∃ d', ofPair d = some d' ∧ d'.val.value = v := by
  subst hv
  exact ⟨⟨d, h⟩, dif_pos h, rfl⟩

/-- So many units of whole seconds. -/
theorem ofPair_ofSecs {n unit nanos : Int} (hunit : nanos = 1000000000 * unit)
    (h : InRange (n * nanos)) :
    ∃ d, ofPair (.ofSecs (n * unit)) = some d ∧ d.val.value = n * nanos := by
  apply ofPair_eq _ h
  rw [Units.Duration.value_ofSecs, hunit, Int.mul_assoc, Int.mul_comm unit]

def pairs : Chrono where
  TimeDelta := { d : Units.Duration // InRange d.value }
  parts d := d.val
  numDays d := d.val.numSeconds.tdiv 86400
  numHours d := d.val.numSeconds.tdiv 3600
  numMinutes d := d.val.numSeconds.tdiv 60
  days n := ofPair (.ofSecs (n * 86400))
  hours n := ofPair (.ofSecs (n * 3600))
  sub a b := ofPair (a.val.sub b.val)
  inRange d := d.property
  numDays_eq d := by rw [NANOS_PER_DAY_eq, d.val.tdiv_numSeconds]
  numHours_eq d := by rw [NANOS_PER_HOUR_eq, d.val.tdiv_numSeconds]
  numMinutes_eq d := by rw [NANOS_PER_MINUTE_eq, d.val.tdiv_numSeconds]
  days_eq _ h := ofPair_ofSecs NANOS_PER_DAY_eq h
  hours_eq _ h := ofPair_ofSecs NANOS_PER_HOUR_eq h
  sub_eq a b h := ofPair_eq (Units.Duration.value_sub a.val b.val) h

end Chrono

end Tachikoma
