import Tachikoma.Logic.ApiTokens
import Tachikoma.Web.Auth

/-!
# Requests with an API token (`src/web/auth/bearer.rs`)

A header value is bytes, and only one of visible ASCII characters, blanks and tabs is read as text
(`HeaderValue::to_str`).
-/

set_option autoImplicit false

namespace Tachikoma

open Interleaving Text

/-- `HeaderValue::to_str`. -/
def headerToStr (value : List UInt8) : Option String :=
  if value.all fun b => (32 ≤ b ∧ b < 127) ∨ b = 9 then
    some (String.ofList (value.map fun b => Char.ofNat b.toNat))
  else none

/-- The first half of `authenticate_bearer`: the token in the header, if there is one. -/
def bearerToken (authHeader : Option (List UInt8)) : Option String := do
  let headerValue ← authHeader
  let header ← headerToStr headerValue
  let token ← stripPrefix "Bearer " header
  let token := trim token
  if token = "" then none else some token

def authenticateBearer (sha256 : Sha256) (authHeader : Option (List UInt8)) :
    TokenTask AuthError (Option AuthUser) :=
  match bearerToken authHeader with
  | none => return none
  | some token => do
    match ← (ApiTokensService.findUserIdByPlaintext sha256 token).mapErr
        fun e => .anyhowErr (.context e.message) with
    | none => return none
    | some userId => do
      match ← withTokenTx .dbError fun tx => (tx.readUserById userId).mapErr .dbError with
      | none => return none
      | some user => do
        match ← Fallible.ask (.getUserInfo user.dn) fun info =>
          info.mapError AuthError.anyhowErr with
        | some uInfo => return some (AuthUser.ofDbUser user uInfo.groups)
        | none => return none

end Tachikoma
