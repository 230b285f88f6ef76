import Tachikoma.Lib.Decimal
import Tachikoma.Logic.Notifications

/-!
# Messages over Telegram (`src/logic/message_senders.rs`)

What a linked user has as `tg_handle` is the number of a Telegram account, in decimal; the chat that
messages go to has the same number.
-/

set_option autoImplicit false

namespace Tachikoma

/-- `str::parse::<i64>`. -/
def parseI64 (s : String) : Option Int := Decimal.parse (-2 ^ 63) (2 ^ 63) s

/-- `TgMessages`. -/
def tgMessages : Notifier where
  getMessageSender user :=
    match user.tgHandle with
    | none => .error (.context s!"User (UserId({user.id.val})) tg_handle is None")
    | some tgHandle =>
      match parseI64 tgHandle with
      | none => .error (.context s!"Failed parse chat_id from {tgHandle}")
      | some chatId => .ok chatId

/-- `DisabledMessageSender`. -/
def disabledMessageSender : Notifier where
  getMessageSender _ := .error (.context "Message sending disabled")

/-- The number of a Telegram account, as the bot writes it into `tg_handle` and looks it up there
    (`user_id.0.to_string()`). -/
def tgUserId (id : UInt64) : String := toString id.toNat

/-- A decimal number is read as what it was written from. -/
theorem parseI64_toString {n : Nat} {k : Int} (h : parseI64 (toString n) = some k) : k = n := by
  rw [parseI64, Decimal.parse_toString_nat] at h
  split at h
  · exact (Option.some.inj h).symm
  · cases h

end Tachikoma
