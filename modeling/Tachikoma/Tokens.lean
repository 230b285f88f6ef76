import Tachikoma.System
import Tachikoma.Web.Bearer

/-!
# The system of API tokens

The calls on tokens, and the machine of all tasks that make them over one table.
-/

set_option autoImplicit false

namespace Tachikoma

open Interleaving Text LdapFilter

inductive TokenCall where
  | create (service : ApiTokensService) (userId : UserId) (name : Option String)
  | listForUser (userId : UserId)
  | revoke (tokenId : ApiTokenId) (userId : UserId)
  | authenticateBearer (authHeader : Option (List UInt8))
  deriving DecidableEq

/-- What a task keeps between its calls. -/
inductive TokenLocal where
  | idle
  | created (userId : UserId) (result : Except ApiTokenError CreatedApiToken)
  | listed (userId : UserId) (result : Except ApiTokenError (List ApiToken))
  | revoked (tokenId : ApiTokenId) (userId : UserId) (result : Except ApiTokenError Unit)
  | authenticated (result : Except AuthError (Option AuthUser))

def TokenCall.body (sha256 : Sha256) (κ : TokenCall) (_ : TokenLocal) :
    Prog TokenEffect TokenEffect.Res TokenLocal :=
  match κ with
  | .create service userId name =>
    Prog.bind (service.create sha256 userId name) fun r => .ret (.created userId r)
  | .listForUser userId =>
    Prog.bind (ApiTokensService.listForUser userId) fun r => .ret (.listed userId r)
  | .revoke tokenId userId =>
    Prog.bind (ApiTokensService.revoke tokenId userId) fun r => .ret (.revoked tokenId userId r)
  | .authenticateBearer authHeader =>
    Prog.bind (Tachikoma.authenticateBearer sha256 authHeader) fun r => .ret (.authenticated r)

/-- All tasks over one table of tokens. -/
def tokenMachine (sha256 : Sha256) (dir : Directory) :
    Machine Pid TokenEffect TokenEffect.Res TokenEnv TokenWorld TokenCall TokenLocal :=
  ⟨tokenAct dir, TokenCall.body sha256⟩

abbrev TokenTrace : Type := List (Event Pid TokenEffect TokenEffect.Res TokenWorld TokenCall)

abbrev TokenHistory : Type := Hist Pid TokenEffect TokenEffect.Res TokenWorld TokenCall

abbrev TokenSystem : Type := Config Pid TokenEffect TokenEffect.Res TokenWorld TokenCall TokenLocal

/-- The contents of the two tables between transactions, with their keys. -/
structure TokenTables where
  users : List User
  tokens : List ApiToken
  /-- Where the sequence behind `api_tokens.id` stands. -/
  nextTokenId : Nat
  users_pkey : (users.map (·.id)).Nodup
  tokens_pkey : (tokens.map (·.id)).Nodup
  tokens_token_hash_key : (tokens.map (·.tokenHash)).Nodup
  tokens_user_id_fkey : ∀ t ∈ tokens, ∃ u ∈ users, u.id = t.userId

namespace TokenTables

theorem tokens_rows_nodup (t : TokenTables) :
    ((t.tokens.map fun r => (r.id, r.toApiTokenRow)).map Prod.fst).Nodup := by
  simpa [Function.comp_def] using t.tokens_pkey

def world (t : TokenTables) : TokenWorld where
  db :=
    { users := t.users
      tokens := .ofRows (t.tokens.map fun r => (r.id, r.toApiTokenRow)) t.tokens_rows_nodup
      nextTokenId := t.nextTokenId }
  nextTx := 0

/-- Nobody is running. -/
def system (t : TokenTables) : TokenSystem where
  hist := ⟨t.world, []⟩
  threads _ := ⟨0, .ret .idle⟩

end TokenTables

/-! ## A small table

Two users without tokens, the digests of the first two plaintexts that a generator of equal bytes
would draw, and a directory that knows one of the users. -/

/-- SHA-256 of `tk_0000…` and of `tk_0101…`. -/
def smallSha256 : Sha256 := fun bytes =>
  if bytes = asBytes (tokenPlaintext (.replicate 32 0)) then
    #v[0x0f, 0xc7, 0x17, 0x23, 0x19, 0xe0, 0x7a, 0x97,
        0x75, 0x2e, 0x82, 0x7b, 0xa5, 0x10, 0xd9, 0xdc,
        0x86, 0xf4, 0x02, 0xe8, 0x15, 0xf7, 0x51, 0xb2,
        0x29, 0x20, 0xd4, 0x8a, 0x97, 0x23, 0x26, 0x34]
  else
    #v[0x2b, 0xa0, 0x55, 0x31, 0x3f, 0xe2, 0xc5, 0x85,
        0x9c, 0x69, 0x76, 0xa7, 0xf0, 0x8f, 0xa4, 0x13,
        0x09, 0xd3, 0x7b, 0x1a, 0x53, 0x9d, 0x1d, 0x87,
        0xa5, 0xdd, 0x13, 0x19, 0x18, 0x44, 0x0c, 0xbf]

def smallTokens : TokenTables where
  users := [alice, bob]
  tokens := []
  nextTokenId := 1
  users_pkey := nodup_alice_bob
  tokens_pkey := List.nodup_nil
  tokens_token_hash_key := List.nodup_nil
  tokens_user_id_fkey _ h := absurd h List.not_mem_nil

def smallEntry : SearchEntry where
  dn := alice.dn
  attrs attr := if attr = "mail" then some [alice.email]
    else if attr = "memberOf" then some ["CN=staff,DC=example"] else none

/-- A directory with one entry, which answers the search for it. -/
def smallDirectory : Directory where
  search base filter :=
    if base = alice.dn ∧ filter = "(mail=*)" then .ok [smallEntry] else .error ()
  Meets f e :=
    match f with
    | .present attr => (e.attrs (String.ofList attr)).isSome = true
    | _ => False
  meets_or _ _ h := h.elim
  sound base filter entries h := by
    split at h
    · rename_i hsearch
      cases h
      obtain ⟨-, rfl⟩ := hsearch
      refine ⟨.present "mail".toList, .parens (.item (.present attributeDescription_mail)), ?_⟩
      intro e he
      obtain rfl := List.mem_singleton.mp he
      rfl
    · cases h

end Tachikoma
