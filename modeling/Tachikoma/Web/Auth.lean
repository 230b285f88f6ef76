import Tachikoma.Logic.Notifications

/-!
# Logging in (`src/web/auth/middleware.rs`)

What the directory answers to a search and to a bind is the surroundings' choice; here is what the
server makes of the answers.
-/

set_option autoImplicit false

namespace Tachikoma

/-- The user of a session. -/
structure AuthUser where
  id : UserId
  username : String
  groups : List String
  tgHandle : Option String
  link : String
  deriving DecidableEq, Repr

/-- `From<(DbUser, Vec<String>)>`. -/
def AuthUser.ofDbUser (user : User) (groups : List String) : AuthUser :=
  ⟨user.id, user.email, groups, user.tgHandle, user.link⟩

inductive AuthError where
  | dbError (e : SqlxError)
  | anyhowErr (e : AnyError)
  deriving DecidableEq, Repr

namespace UsersInfo

def findUserInfo (loginOrMail : String) : Task AnyError (Option AdUserInfo) :=
  .op (.findUserInfo loginOrMail) fun
    | .ok info => .ret (.ok info)
    | .error () => .ret (.err .ldap)

def simpleBind (userDn password : String) : Task AnyError Unit :=
  .op (.simpleBind userDn password) fun
    | .ok () => .ret (.ok ())
    | .error () => .ret (.err .ldap)

def checkAuthentication (userDn password : String) : Task AnyError Unit :=
  if password = "" then Task.throw (.context "Empty password")
  else simpleBind userDn password

end UsersInfo

/-- `Backend::authenticate`. -/
def authenticate (username password : String) : Task AuthError (Option AuthUser) := do
  match ← (UsersInfo.findUserInfo username).mapErr .anyhowErr with
  | none => return none
  | some uInfo => do
    match ← (UsersInfo.checkAuthentication uInfo.dn password).attempt with
    | .error _ => return none
    | .ok () => do
      let user ← withTx .dbError fun tx => (tx.getUserByDn uInfo.dn).mapErr .dbError
      match user with
      | some user => return some (AuthUser.ofDbUser user uInfo.groups)
      | none => do
        let user ← withTx .dbError fun tx => do
          let _ ← (tx.addUser uInfo.dn none uInfo.email).mapErr .dbError
          let user ← (tx.getUserByDn uInfo.dn).mapErr .dbError
          tx.commit.mapErr .dbError
          match user with
          | none => Task.panic "called `Option::unwrap()` on a `None` value"
          | some user => return user
        return some (AuthUser.ofDbUser user uInfo.groups)

end Tachikoma
