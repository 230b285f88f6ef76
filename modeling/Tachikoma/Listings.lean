import Tachikoma.System
import Tachikoma.Web.HostInfo

/-!
# The system with its listings

Tasks that list all hosts, beside the ones that do everything else. A listing reads the accounts in
one transaction and the hosts in another, and every task may get a word in between.
-/

set_option autoImplicit false

namespace Tachikoma

open Interleaving

inductive ListingCall where
  | service (κ : Call)
  | listAllHosts (front : Front)

/-- What a task keeps between its calls. -/
inductive ListingLocal where
  | service (l : Local)
  | listed (result : Exit ListingError (List HostInfo))

/-- What a call of the services starts from. -/
def ListingLocal.toLocal : ListingLocal → Local
  | .service l => l
  | .listed _ => .idle

/-- The entries of a listing that went well. -/
def ListingLocal.infos? : ListingLocal → Option (List HostInfo)
  | .listed (.ok infos) => some infos
  | _ => none

theorem ListingLocal.infos?_eq_some {l : ListingLocal} {infos : List HostInfo} :
    l.infos? = some infos ↔ l = .listed (.ok infos) := by
  cases l with
  | service l => simp [infos?]
  | listed result => cases result <;> simp [infos?]

def ListingCall.body : ListingCall → ListingLocal → Prog Effect Effect.Res ListingLocal
  | .service κ, l => Prog.bind (κ.body l.toLocal) fun l => .ret (.service l)
  | .listAllHosts front, _ => Prog.bind (Tachikoma.listAllHosts front) fun r => .ret (.listed r)

/-- All tasks over one database. -/
def listingMachine : Machine Pid Effect Effect.Res Env World ListingCall ListingLocal :=
  ⟨act, ListingCall.body⟩

/-- The timer makes the passes, and the other tasks do everything else. -/
def ListingCall.proper : Pid → ListingCall → Prop
  | p, .service κ => Tachikoma.proper p κ
  | .timer, .listAllHosts _ => False
  | .task _, .listAllHosts _ => True

instance : ∀ p κ, Decidable (ListingCall.proper p κ)
  | p, .service κ => inferInstanceAs (Decidable (proper p κ))
  | .timer, .listAllHosts _ => inferInstanceAs (Decidable False)
  | .task _, .listAllHosts _ => inferInstanceAs (Decidable True)

abbrev ListingSystem : Type := Config Pid Effect Effect.Res World ListingCall ListingLocal

namespace Tables

/-- Nobody is running; the timer is between two passes. -/
def listingSystemWith (t : Tables) (timer : ReleaseTimer) : ListingSystem where
  hist := ⟨t.world, []⟩
  threads
    | .timer => ⟨0, .ret (.service (.timer timer))⟩
    | .task _ => ⟨0, .ret (.service .idle)⟩

end Tables

end Tachikoma
