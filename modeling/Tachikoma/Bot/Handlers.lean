import Tachikoma.Lib.Decimal
import Tachikoma.Lib.Text
import Tachikoma.Logic.Release

/-!
# The extend button (`src/bot/handlers.rs`)

A button carries its hours as text, `extend:` and a number. What comes back as callback data is what
the client sends, and that need not be the data of a button.
-/

set_option autoImplicit false

namespace Tachikoma

open Text

/-- The text that replaces the message whose button was pressed. -/
inductive Extended where
  /-- `"No expiring hosts to extend."` -/
  | noExpiringHosts
  /-- `"Lease extended by {hours} hour(s).\n\nUpdated hosts:"` and a line for each host. -/
  | leaseExtended (hours : Int32) (lines : List Line)
  deriving DecidableEq, Repr

/-- The lines of the answer; a host without a deadline has no minutes left, and for the others the
    clock is read anew. -/
def updatedLines (idx : Nat) : List Host → Task AnyError (List Line)
  | [] => return []
  | host :: hosts => do
    match host.leasedUntil with
    | none => do
      let lines ← updatedLines (idx + 1) hosts
      return ⟨idx, host.hostname, host.ipAddress, some 0⟩ :: lines
    | some leasedUntil => do
      let now ← utcNow
      let lines ← updatedLines (idx + 1) hosts
      return ⟨idx, host.hostname, host.ipAddress,
        some ((leasedUntil - now).tdiv (TimeDelta.minutes 1))⟩ :: lines

def extendUserHosts (tgHandle : String) (hours : Int32) : Task AnyError Extended :=
  withTx (fun _ => .context "Failed to begin transaction") fun tx => do
    let user ← (tx.getUserByTgHandle tgHandle).mapErr fun _ => .context "Failed to query user"
    match user with
    | none => Task.throw (.context "User not found. Please link your Telegram account first.")
    | some user => do
      let now ← utcNow
      let expiringBefore := now + EXPIRATION_NOTIFY_WINDOW
      let expiringHosts ← (tx.getExpiringHostsForUser user.id expiringBefore).mapErr fun _ =>
        .context "Failed to query expiring hosts"
      if expiringHosts = [] then
        return .noExpiringHosts
      else do
        let hostIds := expiringHosts.map (·.id)
        (tx.extendHostsLease hostIds hours).mapErr fun _ => .context "Failed to extend lease"
        let updatedHosts ← (tx.getHosts hostIds).mapErr fun _ =>
          .context "Failed to query updated hosts"
        tx.commit.mapErr fun _ => .context "Failed to commit transaction"
        let lines ← updatedLines 1 updatedHosts
        return .leaseExtended hours lines

/-- The hours of callback data, 0 if they are no `i32`; `none` if the data is of no extend
    button. -/
def callbackHours (data : Option String) : Option Int32 :=
  (stripPrefix EXTEND_CALLBACK_PREFIX (data.getD "")).map fun h =>
    ((Decimal.parse (-2 ^ 31) (2 ^ 31) h).map Int32.ofInt).getD 0

/-- `handle_extend_callback` up to `extend_user_hosts`: what that is called with, if it is. -/
def handleExtendCallback (tgUserId : String) (data : Option String) : Option (String × Int32) :=
  match callbackHours data with
  | none => none
  | some hours => if hours ≤ 0 then none else some (tgUserId, hours)

end Tachikoma
