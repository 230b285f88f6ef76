import Mathlib.Data.Seq.Basic

/-!
# Keeping the connections up (`src/ldap/mod.rs`, `src/bin/tachikoma.rs`)

`UsersInfo::work` runs two loops, one for each connection to the directory, and ends with the first
of them that returns; `main` races it against the server, the timer and the bot, and the process
ends with the first of these. What the loops wait for are the **outcomes** below. One step is one
outcome together with everything its loop does until it waits again: the lock on the shared state
is taken for one assignment at a time and never held over a wait, and both loops run in one task, so
nothing of theirs happens in between.
-/

set_option autoImplicit false

namespace Tachikoma

/-- How the task that drives a connection ends. -/
inductive DriveEnd where
  | closed
  | error
  | joinError
  deriving DecidableEq

/-- What a loop waits for. A connection that is made has a number of its own. -/
inductive LdapOutcome where
  | connectFails
  | connects (conn : Nat)
  /-- The bind request does not get through. -/
  | bindFails
  /-- The server answers that the credentials are wrong. -/
  | bindRejected
  | bindSucceeds
  | driveEnds (how : DriveEnd)
  /-- `reconnect_interval` is over. -/
  | wakes
  deriving DecidableEq

/-- `UsersInfoState`: the connections that requests may use. -/
structure UsersInfoState where
  ldap : Option Nat
  authorizedLdap : Option Nat
  deriving DecidableEq

/-- Where `keep_ldap_conn` waits. -/
inductive KeepLdapConn where
  | connecting
  | driving (conn : Nat)
  | sleeping
  deriving DecidableEq

/-- Where `keep_authorized_ldap_conn` waits, or how it has returned. -/
inductive KeepAuthorizedLdapConn where
  | connecting
  | binding (conn : Nat)
  | driving (conn : Nat)
  | sleeping
  | returned (err : String)
  deriving DecidableEq

namespace UsersInfo

/-- `keep_ldap_conn`, from one wait to the next. -/
def keepLdapConn : KeepLdapConn → LdapOutcome → UsersInfoState →
    Option (KeepLdapConn × UsersInfoState)
  | .connecting, .connects conn, state => some (.driving conn, { state with ldap := some conn })
  | .connecting, .connectFails, state => some (.sleeping, { state with ldap := none })
  | .driving _, .driveEnds _, state => some (.sleeping, { state with ldap := none })
  | .sleeping, .wakes, state => some (.connecting, state)
  | _, _, _ => none

/-- `keep_authorized_ldap_conn`, from one wait to the next. -/
def keepAuthorizedLdapConn : KeepAuthorizedLdapConn → LdapOutcome → UsersInfoState →
    Option (KeepAuthorizedLdapConn × UsersInfoState)
  | .connecting, .connects conn, state => some (.binding conn, state)
  | .connecting, .connectFails, state => some (.sleeping, { state with authorizedLdap := none })
  -- Both are followed by `?`.
  | .binding _, .bindFails, state => some (.returned "Unable to bind credentials", state)
  | .binding _, .bindRejected, state => some (.returned "Unable to authorize", state)
  | .binding conn, .bindSucceeds, state =>
    some (.driving conn, { state with authorizedLdap := some conn })
  | .driving _, .driveEnds _, state => some (.sleeping, { state with authorizedLdap := none })
  | .sleeping, .wakes, state => some (.connecting, state)
  | _, _, _ => none

end UsersInfo

/-- The process, as far as it is about the directory. -/
structure LdapTask where
  authorized : KeepAuthorizedLdapConn
  plain : KeepLdapConn
  state : UsersInfoState
  deriving DecidableEq

namespace LdapTask

def start : LdapTask := ⟨.connecting, .connecting, ⟨none, none⟩⟩

/-- `UsersInfo::work` has finished: one of its two loops has returned, and the other one, which has
    no way to return, goes with it. -/
def workFinished (t : LdapTask) : Bool :=
  match t.authorized with
  | .returned _ => true
  | _ => false

/-- The race in `main` is over: `work` or one of the `others` (the server, the timer, the bot) has
    finished. -/
def raceFinished (others : List Bool) (t : LdapTask) : Bool := (t.workFinished :: others).any id

end LdapTask

/-- Which loop an outcome is for. -/
inductive LdapLabel where
  | authorized (outcome : LdapOutcome)
  | plain (outcome : LdapOutcome)
  deriving DecidableEq

namespace LdapTask

/-- One outcome. `none` says that nobody waits for it; what comes after the end is for nobody. -/
def step (t : LdapTask) (l : LdapLabel) : Option LdapTask :=
  if t.workFinished then some t
  else
    match l with
    | .authorized outcome =>
      (UsersInfo.keepAuthorizedLdapConn t.authorized outcome t.state).map fun r =>
        { t with authorized := r.1, state := r.2 }
    | .plain outcome =>
      (UsersInfo.keepLdapConn t.plain outcome t.state).map fun r =>
        { t with plain := r.1, state := r.2 }

/-- The outcomes of a list, one after the other. -/
def run (ls : List LdapLabel) : Option LdapTask := ls.foldlM step start

theorem run_append_singleton (ls : List LdapLabel) (l : LdapLabel) :
    run (ls ++ [l]) = (run ls).bind fun t => t.step l := by
  simp [run, List.foldlM_append]

/-- A finite or infinite sequence of outcomes, each of which somebody waits for. -/
def Possible (s : Stream'.Seq LdapLabel) : Prop := ∀ n, run (s.take n) ≠ none

end LdapTask

end Tachikoma
