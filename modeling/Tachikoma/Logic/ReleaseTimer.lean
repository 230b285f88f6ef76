import Tachikoma.Logic.Release

/-!
# The loop of the timer (`hosts_release_timer` in `src/logic/release.rs`)

One turn of the loop, up to its `sleep`. An error of any part is logged, and the next part goes on
with the timer as it is; without a notifier the timer releases hosts and tells nobody.
-/

set_option autoImplicit false

namespace Tachikoma

namespace ReleaseTimer

/-- The first half of a turn: release, and report what was released. -/
def releaseAndReport (notifier : Option Notifier) (self : ReleaseTimer) :
    Task AnyError ReleaseTimer := do
  match ← self.release.attempt with
  | .error _ => return self
  | .ok (releasedHosts, self) =>
    if releasedHosts = [] then return self
    else
      match notifier with
      | none => return self
      | some notifier => do
        let _ ← (notifyReleasedHosts notifier releasedHosts).attempt
        return self

/-- The second half of a turn: announce what expires soon. -/
def announce (notifier : Option Notifier) (self : ReleaseTimer) : Task AnyError ReleaseTimer :=
  match notifier with
  | none => return self
  | some notifier => do
    match ← (self.notifySoonRelease notifier).attempt with
    | .error _ => return self
    | .ok self => return self

/-- A turn of the loop. -/
def turn (notifier : Option Notifier) (self : ReleaseTimer) : Task AnyError ReleaseTimer := do
  let self ← self.releaseAndReport notifier
  self.announce notifier

end ReleaseTimer

end Tachikoma
