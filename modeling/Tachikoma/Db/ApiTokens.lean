import Tachikoma.Ldap.UsersInfo
import Tachikoma.Lib.Fallible

/-!
# The table of API tokens (`src/db/mod.rs`, `src/db/models.rs`)

The statements on `api_tokens`, and the effects that the functions around them ask for. **Nothing
else of the database is touched by these functions** but one read of `users`, so they have a
database of their own here, with the same transactions as `Tachikoma/Db/Registry.lean`: a token is
a versioned row, and a deletion is a version, too. What a user's row is does not change under them;
it is there, or an administrator has deleted it, and its tokens with it.

The directory is a parameter of `tokenAct`, and the random bytes are the surroundings' choice.
-/

set_option autoImplicit false

namespace Tachikoma

open Versioned Unordered Interleaving

structure ApiTokenId where
  val : Int32
  deriving DecidableEq, Repr

/-- A row of `api_tokens`, without its id. -/
structure ApiTokenRow where
  userId : UserId
  name : Option String
  tokenHash : String
  createdAt : Time
  deriving DecidableEq, Repr

structure ApiToken extends ApiTokenRow where
  id : ApiTokenId
  deriving DecidableEq, Repr

/-- The tables. -/
structure TokenDb where
  users : List User
  tokens : Table ApiTokenId TxId ApiTokenRow
  /-- The sequence behind `api_tokens.id`. -/
  nextTokenId : Nat

namespace TokenDb

/-- The tokens that the transaction `x` sees. -/
def view (x : TxId) (db : TokenDb) : List ApiToken :=
  (db.tokens.rows x).map fun r => { r.2 with id := r.1 }

/-- Some version of the row, committed or pending, has this hash. -/
def hashed (tokenHash : String) (c : Cell TxId ApiTokenRow) : Bool :=
  let hit (r : Option ApiTokenRow) := r.any fun r => r.tokenHash = tokenHash
  hit c.committed || (c.pending.any fun v => hit v.2)

/-- `INSERT INTO api_tokens`: `id` comes from the sequence, which a rollback does not turn back, and
    `created_at` is the time at which the transaction began. A row with the same hash that somebody
    else is writing makes the insert wait; one that is there makes it fail, and so does a user that
    is not. -/
def createApiToken (x : TxId) (createdAt : Time) (userId : UserId) (name : Option String)
    (tokenHash : String) (db : TokenDb) : Option (Except SqlxError ApiToken × TokenDb) :=
  let id : ApiTokenId := ⟨Int32.ofNat db.nextTokenId⟩
  let row : ApiTokenRow := ⟨userId, name, tokenHash, createdAt⟩
  let db' := { db with nextTokenId := db.nextTokenId + 1 }
  if db.tokens.cells.any fun c => c.2.locked x && hashed tokenHash c.2 then none
  else if db.tokens.cells.any fun c => (c.2.view x).any fun r => r.tokenHash = tokenHash then
    some (.error .uniqueViolation, db')
  else if db.users.all fun u => u.id ≠ userId then some (.error .foreignKeyViolation, db')
  else
    match db.tokens.insert x id row with
    | none => some (.error .uniqueViolation, db')
    | some t => some (.ok { row with id := id }, { db' with tokens := t })

/-- `ORDER BY created_at DESC`. -/
def listApiTokensForUser (x : TxId) (order : List Nat) (userId : UserId) (db : TokenDb) :
    List ApiToken :=
  orderBy (fun a b => compare b.createdAt a.createdAt) order
    ((db.view x).filter fun t => t.userId = userId)

def getApiTokenByHash (x : TxId) (order : List Nat) (tokenHash : String) (db : TokenDb) :
    Option ApiToken :=
  (arrange order ((db.view x).filter fun t => t.tokenHash = tokenHash)).head?

/-- The row that `DELETE … WHERE id = $1 AND user_id = $2` hits. -/
def owned (tokenId : ApiTokenId) (userId : UserId) (id : ApiTokenId) (r : ApiTokenRow) : Bool :=
  decide (id = tokenId ∧ r.userId = userId)

/-- Whether a row was there to delete. -/
def deleteApiTokenForUser (x : TxId) (tokenId : ApiTokenId) (userId : UserId) (db : TokenDb) :
    Option (Except SqlxError Bool × TokenDb) :=
  (db.tokens.delete x (owned tokenId userId)).map fun t =>
    (.ok ((db.tokens.rows x).any fun r => owned tokenId userId r.1 r.2), { db with tokens := t })

def getUserById (order : List Nat) (userId : UserId) (db : TokenDb) : Option User :=
  (arrange order (db.users.filter fun u => u.id = userId)).head?

def commit (x : TxId) (db : TokenDb) : TokenDb := { db with tokens := db.tokens.commit x }

def rollback (x : TxId) (db : TokenDb) : TokenDb := { db with tokens := db.tokens.rollback x }

/-- `DELETE FROM users` by hand, `ON DELETE CASCADE`. -/
def deleteUser (userId : UserId) (db : TokenDb) : TokenDb where
  users := db.users.filter fun u => u.id ≠ userId
  tokens := db.tokens.mapCells fun _ c =>
    { c with committed := c.committed.filter fun r => r.userId ≠ userId }
  nextTokenId := db.nextTokenId

end TokenDb

/-! ## Effects -/

inductive TokenEffect where
  /-- `rand::rng().fill_bytes`, of 32 bytes. -/
  | fillBytes
  | begin
  | createApiToken (tx : RegistryTx) (userId : UserId) (name : Option String) (tokenHash : String)
  | listApiTokensForUser (tx : RegistryTx) (userId : UserId)
  | getApiTokenByHash (tx : RegistryTx) (tokenHash : String)
  | deleteApiTokenForUser (tx : RegistryTx) (tokenId : ApiTokenId) (userId : UserId)
  | getUserById (tx : RegistryTx) (userId : UserId)
  | commit (tx : RegistryTx)
  | drop (tx : RegistryTx)
  | getUserInfo (userDn : String)
  deriving DecidableEq

def TokenEffect.Res : TokenEffect → Type
  | .fillBytes => Vector UInt8 32
  | .begin => Except SqlxError RegistryTx
  | .createApiToken _ _ _ _ => Except SqlxError ApiToken
  | .listApiTokensForUser _ _ => Except SqlxError (List ApiToken)
  | .getApiTokenByHash _ _ => Except SqlxError (Option ApiToken)
  | .deleteApiTokenForUser _ _ _ => Except SqlxError Bool
  | .getUserById _ _ => Except SqlxError (Option User)
  | .commit _ => Except SqlxError Unit
  | .drop _ => Unit
  | .getUserInfo _ => Except AnyError (Option AdUserInfo)

structure TokenEnv where
  fails : Bool := false
  time : Time := 0
  order : List Nat := []
  bytes : Vector UInt8 32 := .replicate 32 0
  deriving DecidableEq, Repr

structure TokenWorld where
  db : TokenDb
  nextTx : Nat

/-- One effect of the task `p`, as `act` is one. -/
def tokenAct (dir : Directory) (p : Pid) (e : TokenEffect) (env : TokenEnv) (w : TokenWorld) :
    Option (e.Res × TokenWorld) :=
  match e with
  | .fillBytes => some (env.bytes, w)
  | .begin => some <|
      if env.fails then (.error .io, w) else (.ok ⟨w.nextTx⟩, { w with nextTx := w.nextTx + 1 })
  | .createApiToken tx userId name tokenHash =>
      if env.fails then some (.error .io, w)
      else (w.db.createApiToken ⟨p, tx.no⟩ env.time userId name tokenHash).map fun r =>
        (r.1, { w with db := r.2 })
  | .listApiTokensForUser tx userId => some
      (if env.fails then .error .io
        else .ok (w.db.listApiTokensForUser ⟨p, tx.no⟩ env.order userId), w)
  | .getApiTokenByHash tx tokenHash => some
      (if env.fails then .error .io
        else .ok (w.db.getApiTokenByHash ⟨p, tx.no⟩ env.order tokenHash), w)
  | .deleteApiTokenForUser tx tokenId userId =>
      if env.fails then some (.error .io, w)
      else (w.db.deleteApiTokenForUser ⟨p, tx.no⟩ tokenId userId).map fun r =>
        (r.1, { w with db := r.2 })
  | .getUserById _ userId => some
      (if env.fails then .error .io else .ok (w.db.getUserById env.order userId), w)
  | .commit tx => some <|
      if env.fails then (.error .io, { w with db := w.db.rollback ⟨p, tx.no⟩ })
      else (.ok (), { w with db := w.db.commit ⟨p, tx.no⟩ })
  | .drop tx => some ((), { w with db := w.db.rollback ⟨p, tx.no⟩ })
  | .getUserInfo userDn => some (if env.fails then .error .ldap else dir.getUserInfo userDn, w)

abbrev TokenTask (ε α : Type) : Type := Fallible TokenEffect TokenEffect.Res ε α

/-- A scope with a transaction of its own, which is dropped when the scope is left. -/
def withTokenTx {ε α : Type} (ofSqlx : SqlxError → ε) (scope : RegistryTx → TokenTask ε α) :
    TokenTask ε α :=
  .op .begin fun
    | .error e => .ret (.error (ofSqlx e))
    | .ok tx => Prog.bind (scope tx) fun r => .op (.drop tx) fun _ => .ret r

namespace RegistryTx

def createApiToken (tx : RegistryTx) (userId : UserId) (name : Option String)
    (tokenHash : String) : TokenTask SqlxError ApiToken :=
  Fallible.ask (.createApiToken tx userId name tokenHash) id

def listApiTokensForUser (tx : RegistryTx) (userId : UserId) :
    TokenTask SqlxError (List ApiToken) :=
  Fallible.ask (.listApiTokensForUser tx userId) id

def getApiTokenByHash (tx : RegistryTx) (tokenHash : String) :
    TokenTask SqlxError (Option ApiToken) := Fallible.ask (.getApiTokenByHash tx tokenHash) id

def deleteApiTokenForUser (tx : RegistryTx) (tokenId : ApiTokenId) (userId : UserId) :
    TokenTask SqlxError Bool := Fallible.ask (.deleteApiTokenForUser tx tokenId userId) id

def commitTokens (tx : RegistryTx) : TokenTask SqlxError Unit := Fallible.ask (.commit tx) id

def readUserById (tx : RegistryTx) (userId : UserId) : TokenTask SqlxError (Option User) :=
  Fallible.ask (.getUserById tx userId) id

end RegistryTx

end Tachikoma
