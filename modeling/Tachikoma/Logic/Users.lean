import Tachikoma.Db.Tx

/-!
# Users (`src/logic/users.rs`)
-/

set_option autoImplicit false

namespace Tachikoma

inductive UserError where
  | databaseError (e : SqlxError)
  deriving DecidableEq, Repr

namespace UsersService

def linkUser (link tgUserId : String) : Task UserError (Option User) :=
  withTx .databaseError fun tx => do
    match ← (tx.getUserByLink link).mapErr .databaseError with
    | some user => do
      (tx.setUserTgHandle user.id tgUserId).mapErr .databaseError
      match ← (tx.getUserById user.id).mapErr .databaseError with
      | none => Task.panic "called `Option::unwrap()` on a `None` value"
      | some user => do
        tx.commit.mapErr .databaseError
        return some user
    | none => return none

/-- The transaction is never committed; it has only read. -/
def getAllUsers : Task UserError (List User) :=
  withTx .databaseError fun tx => tx.getAllUsers.mapErr .databaseError

end UsersService

end Tachikoma
