import Tachikoma.Logic.ReleaseTimer
import Tachikoma.Web.Handlers

/-!
# The server

Everything that changes the tables of hosts and users, at its entry points: a request of a user who
has been let in or a press of a button, a login, a message to the bot, and the turns of the timer's
loop (`main` in `src/bin/tachikoma.rs`). One entry is one call of a task, from what comes in to what
is answered; the timer keeps its `ReleaseTimer` from turn to turn, and a turn that panics takes the
server down.
-/

set_option autoImplicit false

namespace Tachikoma

open Interleaving

/-- What the tasks of `main` are started with. -/
structure ServerConfig where
  hostsService : HostsService
  notifier : Option Notifier

inductive Entry where
  | request (user : AuthUser) (request : Request)
  | login (username password : String)
  | message (sender : Option UInt64) (text : Option String)
  | turn

/-- What a task keeps between its calls. -/
inductive ServerLocal where
  | idle
  | answered (result : Exit Infallible Answer)
  | loggedIn (result : Exit Infallible LoginAnswer)
  | replied (result : Exit AnyError Reply)
  | timer (self : ReleaseTimer)
  | crashed

/-- The timer that a turn works on. -/
def ServerLocal.releaseTimer : ServerLocal → ReleaseTimer
  | .timer self => self
  | _ => ReleaseTimer.new

/-- After a turn; the loop itself has no errors. -/
def afterTurn (self : ReleaseTimer) : Exit AnyError ReleaseTimer → ServerLocal
  | .ok self' => .timer self'
  | .err _ => .timer self
  | .panic _ => .crashed

/-- What an entry runs; `self` is the timer that a turn works on. -/
def Entry.program (cfg : ServerConfig) (self : ReleaseTimer) :
    Entry → Prog Effect Effect.Res ServerLocal
  | .request user req =>
    Prog.bind (req.handle cfg.hostsService user) fun r => .ret (.answered r)
  | .login username password =>
    Prog.bind (Tachikoma.login username password) fun r => .ret (.loggedIn r)
  | .message sender text => Prog.bind (mainStateHandler sender text) fun r => .ret (.replied r)
  | .turn => Prog.bind (self.turn cfg.notifier) fun r => .ret (afterTurn self r)

/-- A task that has crashed does nothing any more. -/
def Entry.body (cfg : ServerConfig) (κ : Entry) : ServerLocal → Prog Effect Effect.Res ServerLocal
  | .crashed => .ret .crashed
  | l => κ.program cfg l.releaseTimer

/-- All tasks over one database. -/
def server (cfg : ServerConfig) : Machine Pid Effect Effect.Res Env World Entry ServerLocal :=
  ⟨act, Entry.body cfg⟩

def Entry.isTurn : Entry → Bool
  | .turn => true
  | _ => false

/-- The timer makes the turns, and the other tasks do everything else. -/
def Entry.proper : Pid → Entry → Prop
  | .timer, κ => κ.isTurn = true
  | .task _, κ => κ.isTurn = false

instance Entry.decidableProper : ∀ p κ, Decidable (Entry.proper p κ)
  | .timer, κ => inferInstanceAs (Decidable (κ.isTurn = true))
  | .task _, κ => inferInstanceAs (Decidable (κ.isTurn = false))

abbrev ServerEvent : Type := Event Pid Effect Effect.Res World Entry

abbrev ServerTrace : Type := List ServerEvent

abbrev ServerHistory : Type := Hist Pid Effect Effect.Res World Entry

abbrev Server : Type := Config Pid Effect Effect.Res World Entry ServerLocal

namespace Tables

/-- Nobody is running, and the timer is between two turns. -/
def serverWith (t : Tables) (timer : ReleaseTimer) : Server where
  hist := ⟨t.world, []⟩
  threads
    | .timer => ⟨0, .ret (.timer timer)⟩
    | .task _ => ⟨0, .ret .idle⟩

/-- The server as it starts. -/
def server (t : Tables) : Server := t.serverWith ReleaseTimer.new

end Tables

/-! ## A small server -/

/-- Three hosts for everybody, and no Telegram. -/
def smallConfig : ServerConfig := ⟨⟨3⟩, none⟩

def aliceUser : AuthUser := AuthUser.ofDbUser alice []

def bobUser : AuthUser := AuthUser.ofDbUser bob []

/-- `{"group_id": 1, "days": 1, "hours": 2}`. -/
def randomBody : Serde.Json := .object [("group_id", .int 1), ("days", .int 1), ("hours", .int 2)]

/-- One thing that a task does after the other, at the time 4. -/
def acting (p : Pid) (n : Nat) : List (Label Pid Env Entry) :=
  List.replicate n (.act p { time := 4 })

end Tachikoma
