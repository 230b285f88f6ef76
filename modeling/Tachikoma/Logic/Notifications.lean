import Tachikoma.Db.Tx

/-!
# Messages to users (`src/logic/notifications.rs`)

The sender is a parameter, as the trait `GetMessageSender` is in the source: a notifier answers for
every user with a sender or with an error.
-/

set_option autoImplicit false

namespace Tachikoma

/-- `anyhow::Error`, by what it is made of. -/
inductive AnyError where
  | context (msg : String)
  | sqlx (e : SqlxError)
  | send
  /-- Of the LDAP client, or because there is no connection. -/
  | ldap
  deriving DecidableEq, Repr

def EXTEND_CALLBACK_PREFIX : String := "extend:"

structure Notifier where
  getMessageSender : User → Except AnyError Int

namespace Notifier

/-- `"\n{}. {} ({})"` for each host, numbered from `idx`. -/
def releasedLines (idx : Nat) : List Host → List Line
  | [] => []
  | host :: hosts => ⟨idx, host.hostname, host.ipAddress, none⟩ :: releasedLines (idx + 1) hosts

/-- `"\n{}. {} ({}) - {} minutes left"` for each host. The deadline is unwrapped, and every line
    reads the clock anew. -/
def expiringLines (idx : Nat) : List Host → Task AnyError (List Line)
  | [] => return []
  | host :: hosts => do
    match host.leasedUntil with
    | none => Task.panic "called `Option::unwrap()` on a `None` value"
    | some leasedUntil => do
      let now ← utcNow
      let lines ← expiringLines (idx + 1) hosts
      return ⟨idx, host.hostname, host.ipAddress,
        some ((leasedUntil - now).tdiv (TimeDelta.minutes 1))⟩ :: lines

def sendMessage (sender : MsgSender) (msg : Message) : Task AnyError Unit :=
  .op (.send sender msg) fun
    | .ok () => .ret (.ok ())
    | .error () => .ret (.err .send)

def notify (self : Notifier) (userId : UserId) (notification : Notification) :
    Task AnyError Unit :=
  .op (.notify userId notification) fun _ =>
  withTx (fun _ => .context "Failed to begin transaction") fun tx => do
    let user ← (tx.getUserById userId).mapErr fun _ =>
      .context s!"Failed to read user UserId({userId.val})"
    match user with
    | none => Task.throw (.context s!"User (UserId({userId.val})) doesn't exist")
    | some user =>
      match self.getMessageSender user with
      | .error e => Task.throw e
      | .ok chatId =>
        match notification with
        | .hostsReleased hostsIds =>
          if hostsIds = [] then return ()
          else do
            let hosts ← (tx.getHosts hostsIds).mapErr .sqlx
            sendMessage ⟨user, chatId⟩
              ⟨notification, "Hosts released:", releasedLines 1 hosts, []⟩
        | .expirationSoon hostsIds =>
          if hostsIds = [] then return ()
          else do
            let hosts ← (tx.getHosts hostsIds).mapErr .sqlx
            let lines ← expiringLines 1 hosts
            let buttons := [("+1h", EXTEND_CALLBACK_PREFIX ++ "1"),
              ("+8h", EXTEND_CALLBACK_PREFIX ++ "8"), ("+1d", EXTEND_CALLBACK_PREFIX ++ "24")]
            sendMessage ⟨user, chatId⟩ ⟨notification, "Hosts expiring soon:", lines, buttons⟩

end Notifier

end Tachikoma
