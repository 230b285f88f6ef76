import Tachikoma.Db.ApiTokens
import Tachikoma.Lib.Hex
import Tachikoma.Lib.Text

/-!
# API tokens (`src/logic/api_tokens.rs`)

What a client keeps of a token is its plaintext, and what the table keeps is the digest of that.
SHA-256 is a parameter here, a function from bytes to 32 bytes.
-/

set_option autoImplicit false

namespace Tachikoma

open Interleaving Text

inductive ApiTokenError where
  | databaseError (e : SqlxError)
  | notFound
  | limitExceeded
  deriving DecidableEq, Repr

/-- `Display`. -/
def ApiTokenError.message : ApiTokenError → String
  | .databaseError _ => "Database error"
  | .notFound => "Token not found"
  | .limitExceeded => "API token limit is reached"

structure CreatedApiToken where
  token : ApiToken
  plaintext : String
  deriving DecidableEq, Repr

/-- `name.map(str::trim).filter(|s| !s.is_empty())`. -/
def tokenName (name : Option String) : Option String :=
  (name.map trim).filter fun s => s ≠ ""

/-- What a digest is: 32 bytes for any bytes. -/
abbrev Sha256 : Type := List UInt8 → Vector UInt8 32

def hashToken (sha256 : Sha256) (plaintext : String) : String :=
  Hex.encode (sha256 (asBytes plaintext)).toList

/-- `tk_` and the random bytes in hexadecimal. -/
def tokenPlaintext (bytes : Vector UInt8 32) : String := "tk_" ++ Hex.encode bytes.toList

def generatePlaintext : TokenTask ApiTokenError String :=
  Fallible.ask .fillBytes fun bytes => .ok (tokenPlaintext bytes)

structure ApiTokensService where
  apiTokenLimit : Nat
  deriving DecidableEq

namespace ApiTokensService

def create (sha256 : Sha256) (self : ApiTokensService) (userId : UserId) (name : Option String) :
    TokenTask ApiTokenError CreatedApiToken := do
  let plaintext ← generatePlaintext
  let tokenHash := hashToken sha256 plaintext
  let name := tokenName name
  withTokenTx .databaseError fun tx => do
    let existing ← (tx.listApiTokensForUser userId).mapErr .databaseError
    if self.apiTokenLimit ≤ existing.length then
      Fallible.throw .limitExceeded
    else do
      let token ← (tx.createApiToken userId name tokenHash).mapErr .databaseError
      tx.commitTokens.mapErr .databaseError
      return ⟨token, plaintext⟩

def listForUser (userId : UserId) : TokenTask ApiTokenError (List ApiToken) :=
  withTokenTx .databaseError fun tx => do
    let tokens ← (tx.listApiTokensForUser userId).mapErr .databaseError
    tx.commitTokens.mapErr .databaseError
    return tokens

def findUserIdByPlaintext (sha256 : Sha256) (plaintext : String) :
    TokenTask ApiTokenError (Option UserId) := do
  let tokenHash := hashToken sha256 plaintext
  withTokenTx .databaseError fun tx => do
    let token ← (tx.getApiTokenByHash tokenHash).mapErr .databaseError
    tx.commitTokens.mapErr .databaseError
    return token.map (·.userId)

def revoke (tokenId : ApiTokenId) (userId : UserId) : TokenTask ApiTokenError Unit :=
  withTokenTx .databaseError fun tx => do
    let deleted ← (tx.deleteApiTokenForUser tokenId userId).mapErr .databaseError
    tx.commitTokens.mapErr .databaseError
    if deleted then return () else Fallible.throw .notFound

end ApiTokensService

end Tachikoma
