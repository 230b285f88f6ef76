import Tachikoma.Proof.Bearer
import Tachikoma.Proof.TokenSteps

/-!
# The life of an API token

Operations on tokens one after the other, without errors of the database and of the directory: what
each of them does (`create_outcome`, `revoke_outcome`, …), and from that what a whole run of them
does. **The table holds the hashes of the tokens that are alive**: those that were handed out and
have since been neither revoked by their owner nor deleted with him (`Mirrors`).
-/

set_option autoImplicit false

namespace Tachikoma

open Interleaving Versioned Unordered Text

/-- `tokenAct`, nothing failing. -/
def calmAct (dir : Directory) (p : Pid) (e : TokenEffect) (env : TokenEnv) (w : TokenWorld) :
    Option (e.Res × TokenWorld) :=
  if env.fails then none else tokenAct dir p e env w

/-- No transaction is open. -/
def TokenWorld.Still (w : TokenWorld) : Prop := w.db.tokens.Still

section Outcomes

variable {sha256 : Sha256} {dir : Directory} {p : Pid} {ε α : Type} {w : TokenWorld}

theorem tokenAct_of_calmAct {e : TokenEffect} {env : TokenEnv} {x : e.Res × TokenWorld}
    (h : calmAct dir p e env w = some x) : env.fails = false ∧ tokenAct dir p e env w = some x := by
  unfold calmAct at h
  split at h
  · cases h
  · rename_i hf
    exact ⟨eq_false_of_ne_true hf, h⟩

/-! ## One statement -/

section Statements

variable {tx : RegistryTx} {u : UserId}

/-- An effect that answers without a change. -/
theorem achieves_answer {e : TokenEffect} {g : e.Res → Except ε α}
    {Q : Except ε α → TokenWorld → Prop} (answer : TokenEnv → e.Res)
    (hact : ∀ env : TokenEnv, env.fails = false → tokenAct dir p e env w = some (answer env, w))
    (hQ : ∀ env, Q (g (answer env)) w) : Prog.Achieves (calmAct dir) p Q (Fallible.ask e g) w := by
  refine Fallible.achieves_ask ⟨{}, _, hact {} rfl⟩ ?_
  intro env r w' h
  obtain ⟨hf, h⟩ := tokenAct_of_calmAct h
  rw [hact env hf] at h
  obtain ⟨rfl, rfl⟩ := Prod.mk.inj (Option.some.inj h)
  exact hQ env

theorem achieves_list {Q : Except SqlxError (List ApiToken) → TokenWorld → Prop}
    (hQ : ∀ order, Q (.ok (w.db.listApiTokensForUser ⟨p, tx.no⟩ order u)) w) :
    Prog.Achieves (calmAct dir) p Q (tx.listApiTokensForUser u) w :=
  achieves_answer (fun env => .ok (w.db.listApiTokensForUser ⟨p, tx.no⟩ env.order u))
    (fun env hf => by simp [tokenAct, hf]) fun env => hQ env.order

theorem achieves_getByHash {tokenHash : String}
    {Q : Except SqlxError (Option ApiToken) → TokenWorld → Prop}
    (hQ : ∀ order, Q (.ok (w.db.getApiTokenByHash ⟨p, tx.no⟩ order tokenHash)) w) :
    Prog.Achieves (calmAct dir) p Q (tx.getApiTokenByHash tokenHash) w :=
  achieves_answer (fun env => .ok (w.db.getApiTokenByHash ⟨p, tx.no⟩ env.order tokenHash))
    (fun env hf => by simp [tokenAct, hf]) fun env => hQ env.order

theorem achieves_readUser {Q : Except SqlxError (Option User) → TokenWorld → Prop}
    (hQ : ∀ order, Q (.ok (w.db.getUserById order u)) w) :
    Prog.Achieves (calmAct dir) p Q (tx.readUserById u) w :=
  achieves_answer (fun env => .ok (w.db.getUserById env.order u))
    (fun env hf => by simp [tokenAct, hf]) fun env => hQ env.order

theorem achieves_commitTokens {Q : Except SqlxError Unit → TokenWorld → Prop}
    (hQ : Q (.ok ()) { w with db := w.db.commit ⟨p, tx.no⟩ }) :
    Prog.Achieves (calmAct dir) p Q tx.commitTokens w := by
  refine Fallible.achieves_ask ⟨{}, _, rfl⟩ ?_
  intro env r w' h
  obtain ⟨hf, h⟩ := tokenAct_of_calmAct h
  simp only [tokenAct, hf] at h
  obtain ⟨rfl, rfl⟩ := Prod.mk.inj (Option.some.inj h)
  exact hQ

/-- An insert does not wait for anybody. -/
theorem exists_createApiToken (hw : w.Still) (x : TxId) (createdAt : Time) (name : Option String)
    (tokenHash : String) : ∃ r, w.db.createApiToken x createdAt u name tokenHash = some r := by
  have hfree : ¬ (w.db.tokens.cells.any fun c => c.2.locked x && TokenDb.hashed tokenHash c.2) =
      true := by
    rw [List.any_eq_true]
    intro hyp
    obtain ⟨c, hc, hl⟩ := hyp
    rw [← Table.cell_of_mem hc, Table.Still.not_locked hw] at hl
    cases hl
  unfold TokenDb.createApiToken
  dsimp only
  rw [if_neg hfree]
  split
  · exact ⟨_, rfl⟩
  · split
    · exact ⟨_, rfl⟩
    · split <;> exact ⟨_, rfl⟩

theorem achieves_createToken (hw : w.Still) {name : Option String} {tokenHash : String}
    {Q : Except SqlxError ApiToken → TokenWorld → Prop}
    (herr : ∀ err n, Q (.error err) { w with db := { w.db with nextTokenId := n } })
    (hok : ∀ (token : ApiToken) t n, token.userId = u → token.tokenHash = tokenHash →
      (∃ v ∈ w.db.users, v.id = u) → (∀ id row, w.token id = some row → row.tokenHash ≠ tokenHash) →
      w.db.tokens.insert ⟨p, tx.no⟩ token.id token.toApiTokenRow = some t →
      Q (.ok token) { w with db := { w.db with tokens := t, nextTokenId := n } }) :
    Prog.Achieves (calmAct dir) p Q (tx.createApiToken u name tokenHash) w := by
  refine Fallible.achieves_ask ?_ ?_
  · obtain ⟨r, hr⟩ := exists_createApiToken (u := u) hw ⟨p, tx.no⟩ 0 name tokenHash
    exact ⟨{}, (r.1, { w with db := r.2 }), by simp [calmAct, tokenAct, hr]⟩
  · intro env r w' h
    have hacts := tokenActs_of_act (tokenAct_of_calmAct h).2
    cases r with
    | error err =>
      cases hacts with
      | quiet _ _ _ _ _ hcreate => exact absurd rfl (hcreate tx u name tokenHash)
      | createFails _ _ _ _ _ n => exact herr err n
    | ok token =>
      obtain ⟨hu, hhash, huser, hfree, t, n, hinsert, rfl⟩ := hacts.of_created
      refine hok token t n hu hhash huser (fun id row hrow => hfree id row ?_) hinsert
      rw [Table.Still.view hw]
      exact hrow

/-- Nor does a deletion. -/
theorem exists_deleteApiTokenForUser (hw : w.Still) (x : TxId) (tokenId : ApiTokenId) :
    ∃ r, w.db.deleteApiTokenForUser x tokenId u = some r := by
  obtain ⟨t, ht⟩ := Table.exists_delete (Table.Still.not_locked hw x) (TokenDb.owned tokenId u)
  exact ⟨_, congrArg (Option.map _) ht⟩

theorem achieves_deleteToken (hw : w.Still) {tokenId : ApiTokenId}
    {Q : Except SqlxError Bool → TokenWorld → Prop}
    (hQ : ∀ t b, w.db.tokens.delete ⟨p, tx.no⟩ (TokenDb.owned tokenId u) = some t →
      (b = true ↔ ∃ row, w.token tokenId = some row ∧ row.userId = u) →
      Q (.ok b) { w with db := { w.db with tokens := t } }) :
    Prog.Achieves (calmAct dir) p Q (tx.deleteApiTokenForUser tokenId u) w := by
  -- At rest the transaction sees the committed rows, so it is one of them that it deletes.
  have hany : (w.db.tokens.rows ⟨p, tx.no⟩).any (fun r => TokenDb.owned tokenId u r.1 r.2) = true ↔
      ∃ row, w.token tokenId = some row ∧ row.userId = u := by
    rw [List.any_eq_true]
    constructor
    · intro hyp
      obtain ⟨⟨id, row⟩, hmem, hsel⟩ := hyp
      obtain ⟨rfl, hu⟩ := of_decide_eq_true hsel
      rw [Table.mem_rows, Table.Still.view hw] at hmem
      exact ⟨row, hmem, hu⟩
    · intro hyp
      obtain ⟨row, hrow, hu⟩ := hyp
      refine ⟨(tokenId, row), ?_, decide_eq_true ⟨rfl, hu⟩⟩
      rw [Table.mem_rows, Table.Still.view hw]
      exact hrow
  refine Fallible.achieves_ask ?_ ?_
  · obtain ⟨r, hr⟩ := exists_deleteApiTokenForUser (u := u) hw ⟨p, tx.no⟩ tokenId
    exact ⟨{}, (r.1, { w with db := r.2 }), by simp [calmAct, tokenAct, hr]⟩
  · intro env r w' h
    obtain ⟨hf, h⟩ := tokenAct_of_calmAct h
    simp only [tokenAct, hf, Bool.false_eq_true, if_false] at h
    obtain ⟨⟨r', db⟩, hx, hr⟩ := Option.map_eq_some_iff.mp h
    obtain ⟨rfl, rfl⟩ := Prod.mk.inj hr
    obtain ⟨t, ht, hr⟩ := Option.map_eq_some_iff.mp hx
    obtain ⟨rfl, rfl⟩ := Prod.mk.inj hr
    exact hQ t _ ht hany

/-- A transaction of its own, whose scope ends with its drop. -/
theorem achieves_withTokenTx {f : SqlxError → ε} {scope : RegistryTx → TokenTask ε α}
    {Q : Except ε α → TokenWorld → Prop}
    (hscope : ∀ tx : RegistryTx, Prog.Achieves (calmAct dir) p
      (fun r w' => Q r { w' with db := w'.db.rollback ⟨p, tx.no⟩ }) (scope tx)
      { w with nextTx := w.nextTx + 1 }) :
    Prog.Achieves (calmAct dir) p Q (withTokenTx f scope) w := by
  refine ⟨⟨{}, _, rfl⟩, fun env r w' h => ?_⟩
  obtain ⟨hf, h⟩ := tokenAct_of_calmAct h
  simp only [tokenAct, hf] at h
  obtain ⟨rfl, rfl⟩ := Prod.mk.inj (Option.some.inj h)
  refine Prog.Achieves.bind (calmAct dir) p (hscope ⟨w.nextTx⟩) fun r w' hr => ?_
  refine ⟨⟨{}, _, rfl⟩, fun env r' w'' h => ?_⟩
  obtain ⟨-, h⟩ := tokenAct_of_calmAct h
  obtain ⟨rfl, rfl⟩ := Prod.mk.inj (Option.some.inj h)
  exact hr

end Statements

/-! ## One operation -/

/-- The world after an operation that leaves the tokens `tokens`. -/
structure Leaves (w : TokenWorld) (tokens : ApiTokenId → Option ApiTokenRow) (w' : TokenWorld) :
    Prop where
  still : w'.Still
  users : w'.db.users = w.db.users
  token : w'.token = tokens

/-- What a transaction has changed when it has committed. -/
theorem leaves_of_commit {x : TxId} {t : Table ApiTokenId TxId ApiTokenRow} {n m : Nat}
    (ht : t.Holds fun y _ _ => y = x) :
    Leaves w (fun id => (t.cell id).view x)
      { w with db := ({ w.db with tokens := t.commit x, nextTokenId := n } : TokenDb).rollback x,
               nextTx := m } := by
  have hstill := Table.Still.of_commit ht
  refine ⟨?_, rfl, ?_⟩
  · show ((t.commit x).rollback x).Still
    rw [hstill.rollback]
    exact hstill
  · funext id
    show (((t.commit x).rollback x).cell id).committed = _
    rw [hstill.rollback, Table.cell_commit, Cell.commit_committed]

/-- And when it has only read. -/
theorem leaves_of_rollback (hw : w.Still) {x : TxId} {n m : Nat} :
    Leaves w w.token
      { w with db := ({ w.db with nextTokenId := n } : TokenDb).rollback x, nextTx := m } := by
  refine ⟨?_, rfl, ?_⟩
  · show (w.db.tokens.rollback x).Still
    rw [Table.Still.rollback hw]
    exact hw
  · funext id
    show ((w.db.tokens.rollback x).cell id).committed = _
    rw [Table.Still.rollback hw]
    rfl

/-- What `create` does: it hands out a new token of its user under an id that is free, with a hash
    that no other token has, or it does nothing. -/
def Creates (sha256 : Sha256) (u : UserId) (w : TokenWorld) :
    Except ApiTokenError CreatedApiToken → TokenWorld → Prop
  | .ok c, w' => c.token.userId = u ∧ c.token.tokenHash = hashToken sha256 c.plaintext ∧
      (∃ bytes, c.plaintext = tokenPlaintext bytes) ∧ w.token c.token.id = none ∧
      (∀ id row, w.token id = some row → row.tokenHash ≠ c.token.tokenHash) ∧
      Leaves w (Function.update w.token c.token.id (some c.token.toApiTokenRow)) w'
  | .error _, w' => Leaves w w.token w'

theorem create_outcome (hw : w.Still) (self : ApiTokensService) (u : UserId)
    (name : Option String) :
    Prog.Achieves (calmAct dir) p (Creates sha256 u w) (self.create sha256 u name) w := by
  refine Fallible.achieves_bind (achieves_answer (fun env => env.bytes) (fun env _ => rfl)
    fun env => ?_)
  refine achieves_withTokenTx fun tx => ?_
  have hbegun : ({ w with nextTx := w.nextTx + 1 } : TokenWorld).Still := hw
  refine Fallible.achieves_bind (Fallible.achieves_mapErr (achieves_list fun order => ?_))
  refine Fallible.achieves_ite (fun _ => leaves_of_rollback hw) fun _ => ?_
  refine Fallible.achieves_bind (Fallible.achieves_mapErr (achieves_createToken hbegun ?_ ?_))
  · exact fun err n => leaves_of_rollback hw
  · intro token t n hu hhash _ hfree hinsert
    refine Fallible.achieves_bind (Fallible.achieves_mapErr (achieves_commitTokens ?_))
    refine ⟨hu, hhash, ⟨env.bytes, rfl⟩, ?_, fun id row hrow => ?_, ?_⟩
    · rw [TokenWorld.token, Table.cell_of_insert hinsert]
      rfl
    · rw [hhash]
      exact hfree id row hrow
    · have hleaves := leaves_of_commit (w := w) (n := n) (m := w.nextTx + 1)
        (Table.Still.insert hw hinsert)
      -- The transaction sees the old tokens and the new one, and that is what the commit leaves.
      have hview : (fun id => (t.cell id).view ⟨p, tx.no⟩) =
          Function.update w.token token.id (some token.toApiTokenRow) := by
        funext id
        rw [Table.cell_insert hinsert, Function.update_apply]
        split
        · exact Cell.view_of_held rfl
        · exact Table.Still.view hw _ id
      rw [hview] at hleaves
      exact hleaves

/-- What `revoke` does. -/
structure Revokes (tokenId : ApiTokenId) (u : UserId) (w : TokenWorld)
    (r : Except ApiTokenError Unit) (w' : TokenWorld) : Prop where
  leaves : Leaves w (fun id => (w.token id).filter fun row => !TokenDb.owned tokenId u id row) w'
  ok : (∃ row, w.token tokenId = some row ∧ row.userId = u) → r = .ok ()
  notFound : (∀ row, w.token tokenId = some row → row.userId ≠ u) →
    r = .error .notFound ∧ w'.db = w.db

theorem revoke_outcome (hw : w.Still) (tokenId : ApiTokenId) (u : UserId) :
    Prog.Achieves (calmAct dir) p (Revokes tokenId u w) (ApiTokensService.revoke tokenId u) w := by
  refine achieves_withTokenTx fun tx => ?_
  have hbegun : ({ w with nextTx := w.nextTx + 1 } : TokenWorld).Still := hw
  refine Fallible.achieves_bind (Fallible.achieves_mapErr (achieves_deleteToken hbegun ?_))
  intro t b hdelete hb
  refine Fallible.achieves_bind (Fallible.achieves_mapErr (achieves_commitTokens ?_))
  have hleaves := leaves_of_commit (w := w) (n := w.db.nextTokenId) (m := w.nextTx + 1)
    (Table.Still.delete hw hdelete)
  have hview : (fun id => (t.cell id).view ⟨p, tx.no⟩) =
      fun id => (w.token id).filter fun row => !TokenDb.owned tokenId u id row := by
    funext id
    rw [Table.cell_delete hdelete, Cell.erase_view]
    exact congrArg _ (Table.Still.view hw _ id)
  rw [hview] at hleaves
  refine Fallible.achieves_ite (fun hfound => ?_) fun hnone => ?_
  · refine ⟨hleaves, fun _ => rfl, fun hno => ?_⟩
    obtain ⟨row, hrow, hu⟩ := hb.mp hfound
    exact absurd hu (hno row hrow)
  · refine ⟨hleaves, fun hfound => absurd (hb.mpr hfound) hnone, fun hno => ⟨rfl, ?_⟩⟩
    -- Nothing was hit, and so the table is the same one.
    have hsame : t = w.db.tokens := by
      refine Table.Still.delete_of_none hw hdelete fun id row hrow => ?_
      refine decide_eq_false fun hsel => ?_
      obtain ⟨rfl, hu⟩ := hsel
      exact hno row hrow hu
    subst hsame
    show ({ w.db with tokens := (w.db.tokens.commit ⟨p, tx.no⟩).rollback ⟨p, tx.no⟩ } : TokenDb) =
      w.db
    rw [Table.Still.commit hw, Table.Still.rollback hw]

/-- What an operation that only reads leaves. -/
theorem db_of_read (hw : w.Still) (x : TxId) : (w.db.commit x).rollback x = w.db := by
  show ({ w.db with tokens := (w.db.tokens.commit x).rollback x } : TokenDb) = w.db
  rw [Table.Still.commit hw, Table.Still.rollback hw]

theorem listForUser_outcome (hw : w.Still) (u : UserId) :
    Prog.Achieves (calmAct dir) p (fun _ w' => w'.db = w.db)
      (ApiTokensService.listForUser u) w := by
  refine achieves_withTokenTx fun tx => ?_
  refine Fallible.achieves_bind (Fallible.achieves_mapErr (achieves_list fun order => ?_))
  refine Fallible.achieves_bind (Fallible.achieves_mapErr (achieves_commitTokens ?_))
  exact db_of_read hw _

/-- The token with this hash belongs to `u`. -/
def TokenWorld.HashOf (w : TokenWorld) (tokenHash : String) (u : UserId) : Prop :=
  ∃ id row, w.token id = some row ∧ row.tokenHash = tokenHash ∧ row.userId = u

/-- The hashes of tokens differ. -/
def TokenWorld.Distinct (w : TokenWorld) : Prop :=
  ∀ i j r s, w.token i = some r → w.token j = some s → r.tokenHash = s.tokenHash → i = j

theorem mem_tokenView (hw : w.Still) {x : TxId} {t : ApiToken} :
    t ∈ w.db.view x ↔ w.token t.id = some t.toApiTokenRow := by
  rw [TokenWorld.token, ← Table.Still.view hw x, ← Table.mem_rows, TokenDb.view, List.mem_map]
  constructor
  · intro hyp
    obtain ⟨⟨id, row⟩, hmem, ht⟩ := hyp
    subst ht
    exact hmem
  · intro hmem
    exact ⟨_, hmem, rfl⟩

theorem findUserIdByPlaintext_outcome (hw : w.Still) (hd : w.Distinct) (plaintext : String) :
    Prog.Achieves (calmAct dir) p (fun r w' => w'.db = w.db ∧ ∃ found, r = .ok found ∧
        ∀ u, found = some u ↔ w.HashOf (hashToken sha256 plaintext) u)
      (ApiTokensService.findUserIdByPlaintext sha256 plaintext) w := by
  refine achieves_withTokenTx fun tx => ?_
  refine Fallible.achieves_bind (Fallible.achieves_mapErr (achieves_getByHash fun order => ?_))
  refine Fallible.achieves_bind (Fallible.achieves_mapErr (achieves_commitTokens ?_))
  refine ⟨db_of_read hw _, _, rfl, fun u => ?_⟩
  refine (head?_arrange_map (g := fun t : ApiToken => t.userId) ?_ order u).trans ?_
  · intro a ha b hb
    obtain ⟨ha, hahash⟩ := List.mem_filter.mp ha
    obtain ⟨hb, hbhash⟩ := List.mem_filter.mp hb
    have hhash := (of_decide_eq_true hahash).trans (of_decide_eq_true hbhash).symm
    rw [mem_tokenView hw] at ha hb
    have hid := hd _ _ _ _ ha hb hhash
    rw [hid, hb] at ha
    rw [Option.some.inj ha]
  · constructor
    · intro hyp
      obtain ⟨t, ht, hu⟩ := hyp
      obtain ⟨ht, hhash⟩ := List.mem_filter.mp ht
      exact ⟨t.id, t.toApiTokenRow, (mem_tokenView hw).mp ht, of_decide_eq_true hhash, hu⟩
    · intro hyp
      obtain ⟨id, row, hrow, hhash, hu⟩ := hyp
      refine ⟨{ row with id := id }, List.mem_filter.mpr ⟨(mem_tokenView hw).mpr hrow, ?_⟩, hu⟩
      exact decide_eq_true hhash

theorem getUserById_eq_some (hpk : (w.db.users.map (·.id)).Nodup) (order : List Nat) (u : UserId)
    (user : User) : w.db.getUserById order u = some user ↔ user ∈ w.db.users ∧ user.id = u := by
  have hsame :
      ∀ a ∈ w.db.users.filter (fun v => v.id = u), ∀ b ∈ w.db.users.filter (fun v => v.id = u),
      id a = id b := by
    intro a ha b hb
    obtain ⟨ha, hau⟩ := List.mem_filter.mp ha
    obtain ⟨hb, hbu⟩ := List.mem_filter.mp hb
    exact List.inj_on_of_nodup_map hpk ha hb
      ((of_decide_eq_true hau).trans (of_decide_eq_true hbu).symm)
  have hfirst := head?_arrange_map hsame order user
  rw [Option.map_id_fun, id] at hfirst
  rw [TokenDb.getUserById, hfirst]
  simp

/-- **Who a request is answered as**, as far as the tables say. -/
theorem authenticateBearer_outcome (hw : w.Still) (hd : w.Distinct)
    (hpk : (w.db.users.map (·.id)).Nodup) (authHeader : Option (List UInt8)) :
    Prog.Achieves (calmAct dir) p (fun r w' => w'.db = w.db ∧
        ∀ u, (∃ user, r = .ok (some user) ∧ user.id = u) ↔
          ∃ token, bearerToken authHeader = some token ∧ w.HashOf (hashToken sha256 token) u ∧
            ∃ user ∈ w.db.users, user.id = u ∧ dir.Lists user.dn)
      (authenticateBearer sha256 authHeader) w := by
  unfold authenticateBearer
  cases htoken : bearerToken authHeader with
  | none => exact ⟨rfl, fun u => by simp⟩
  | some token =>
  refine Fallible.achieves_bind (Fallible.achieves_mapErr
    ((findUserIdByPlaintext_outcome hw hd token).mono (calmAct dir) p ?_))
  intro r w₁ hyp
  obtain ⟨hdb, found, hr, hfound⟩ := hyp
  subst hr
  cases found with
  | none =>
    refine ⟨hdb, fun u => ?_⟩
    simp [← hfound]
  | some v =>
  have hhash := (hfound v).mp rfl
  have honly : ∀ u, w.HashOf (hashToken sha256 token) u → u = v := fun u hu =>
    (Option.some.inj ((hfound u).mpr hu)).symm
  refine Fallible.achieves_bind (achieves_withTokenTx fun tx => Fallible.achieves_mapErr
    (achieves_readUser fun order => ?_))
  have hrolled : w₁.db.rollback ⟨p, tx.no⟩ = w.db := by
    rw [hdb]
    show ({ w.db with tokens := w.db.tokens.rollback _ } : TokenDb) = w.db
    rw [Table.Still.rollback hw]
  have hread : ∀ user, w₁.db.getUserById order v = some user ↔ user ∈ w.db.users ∧ user.id = v := by
    rw [hdb]
    exact getUserById_eq_some hpk order v
  show Fallible.andThen _ _ _ _ (.ok (w₁.db.getUserById order v)) _
  cases huser : w₁.db.getUserById order v with
  | none =>
    refine ⟨hrolled, fun u => ?_⟩
    constructor
    · intro hyp
      obtain ⟨user, h, _⟩ := hyp
      cases h
    · intro hyp
      obtain ⟨_, htoken', hu, user, hmem, hid, _⟩ := hyp
      obtain rfl := Option.some.inj htoken'
      rw [honly u hu] at hid
      rw [(hread user).mpr ⟨hmem, hid⟩] at huser
      cases huser
  | some user =>
    obtain ⟨hmem, hid⟩ := (hread user).mp huser
    -- The only user that can be answered is the one that was read.
    have hanswer : ∀ u, (∃ token', some token = some token' ∧
        w.HashOf (hashToken sha256 token') u ∧ ∃ user ∈ w.db.users, user.id = u ∧
          dir.Lists user.dn) ↔
        u = v ∧ dir.Lists user.dn := by
      intro u
      constructor
      · intro hyp
        obtain ⟨_, htoken', hu, user', hmem', hid', hlists⟩ := hyp
        obtain rfl := Option.some.inj htoken'
        obtain rfl := honly u hu
        have hsame := (hread user').mpr ⟨hmem', hid'⟩
        rw [huser] at hsame
        obtain rfl := Option.some.inj hsame
        exact ⟨rfl, hlists⟩
      · intro hyp
        obtain ⟨hu, hlists⟩ := hyp
        subst hu
        exact ⟨token, rfl, hhash, user, hmem, hid, hlists⟩
    refine Fallible.achieves_bind (achieves_answer (fun _ => dir.getUserInfo user.dn)
      (fun env hf => by simp [tokenAct, hf]) fun env => ?_)
    have hlists : dir.Lists user.dn ↔ ∃ info, dir.getUserInfo user.dn = .ok (some info) :=
      Directory.lists_iff
    cases hinfo : dir.getUserInfo user.dn with
    | error e =>
      refine ⟨hrolled, fun u => ?_⟩
      rw [hanswer, hlists, hinfo]
      simp
    | ok info =>
      cases info with
      | none =>
        refine ⟨hrolled, fun u => ?_⟩
        rw [hanswer, hlists, hinfo]
        simp
      | some info =>
        refine ⟨hrolled, fun u => ?_⟩
        rw [hanswer, hlists, hinfo]
        constructor
        · intro hyp
          obtain ⟨au, hau, hauid⟩ := hyp
          obtain rfl := Option.some.inj (Except.ok.inj hau)
          exact ⟨hauid.symm.trans hid, info, rfl⟩
        · intro hyp
          obtain ⟨hu, _⟩ := hyp
          exact ⟨AuthUser.ofDbUser user info.groups, rfl, hid.trans hu.symm⟩

end Outcomes

/-! ## Runs -/

/-- An operation, and how it has ended. -/
inductive TokenEvent where
  | created (u : UserId) (name : Option String) (r : Except ApiTokenError CreatedApiToken)
  | revoked (id : ApiTokenId) (u : UserId) (r : Except ApiTokenError Unit)
  | listed (u : UserId) (r : Except ApiTokenError (List ApiToken))
  | authenticated (authHeader : Option (List UInt8)) (r : Except AuthError (Option AuthUser))
  | userDeleted (u : UserId)

/-- The user that the operation is for. -/
def TokenEvent.user : TokenEvent → Option UserId
  | .created u _ _ => some u
  | .revoked _ u _ => some u
  | .listed u _ => some u
  | .authenticated _ _ => none
  | .userDeleted u => some u

section Runs

variable (sha256 : Sha256) (dir : Directory) (self : ApiTokensService)

/-- One operation, by any task. -/
inductive TokenStep : TokenWorld → TokenEvent → TokenWorld → Prop where
  | create {w w' : TokenWorld} (p : Pid) (u : UserId) (name : Option String)
      (r : Except ApiTokenError CreatedApiToken)
      (h : Prog.Ends (calmAct dir) p (self.create sha256 u name) w r w') :
      TokenStep w (.created u name r) w'
  | revoke {w w' : TokenWorld} (p : Pid) (id : ApiTokenId) (u : UserId)
      (r : Except ApiTokenError Unit)
      (h : Prog.Ends (calmAct dir) p (ApiTokensService.revoke id u) w r w') :
      TokenStep w (.revoked id u r) w'
  | list {w w' : TokenWorld} (p : Pid) (u : UserId) (r : Except ApiTokenError (List ApiToken))
      (h : Prog.Ends (calmAct dir) p (ApiTokensService.listForUser u) w r w') :
      TokenStep w (.listed u r) w'
  | authenticate {w w' : TokenWorld} (p : Pid) (authHeader : Option (List UInt8))
      (r : Except AuthError (Option AuthUser))
      (h : Prog.Ends (calmAct dir) p (authenticateBearer sha256 authHeader) w r w') :
      TokenStep w (.authenticated authHeader r) w'
  | deleteUser {w : TokenWorld} (u : UserId) :
      TokenStep w (.userDeleted u) { w with db := w.db.deleteUser u }

/-- Operations one after the other; the past is listed newest first. -/
inductive TokenRun (w₀ : TokenWorld) : List TokenEvent → TokenWorld → Prop where
  | nil : TokenRun w₀ [] w₀
  | cons {past : List TokenEvent} {w w' : TokenWorld} {ev : TokenEvent} :
      TokenRun w₀ past w → TokenStep sha256 dir self w ev w' → TokenRun w₀ (ev :: past) w'

end Runs

/-- The token was handed out to `u`, who has since neither revoked it nor been deleted. -/
def Live (c : CreatedApiToken) (u : UserId) (past : List TokenEvent) : Prop :=
  ∃ newer older name, past = newer ++ .created u name (.ok c) :: older ∧
    (∀ r, .revoked c.token.id u r ∉ newer) ∧ .userDeleted u ∉ newer

/-- The plaintexts that were handed out. -/
def plaintexts (past : List TokenEvent) : List String :=
  past.filterMap fun
    | .created _ _ (.ok c) => some c.plaintext
    | _ => none

theorem live_cons {c : CreatedApiToken} {u : UserId} {ev : TokenEvent} {past : List TokenEvent} :
    Live c u (ev :: past) ↔ (∃ name, ev = .created u name (.ok c)) ∨
      (Live c u past ∧ (∀ r, ev ≠ .revoked c.token.id u r) ∧ ev ≠ .userDeleted u) := by
  constructor
  · intro hyp
    obtain ⟨newer, older, name, hpast, hrevoked, hdeleted⟩ := hyp
    cases newer with
    | nil => exact .inl ⟨name, (List.cons.inj hpast).1⟩
    | cons ev' newer =>
      obtain ⟨rfl, rfl⟩ := List.cons.inj hpast
      refine .inr ⟨⟨newer, older, name, rfl, ?_, ?_⟩, ?_, ?_⟩
      · exact fun r hr => hrevoked r (List.mem_cons_of_mem _ hr)
      · exact fun hd => hdeleted (List.mem_cons_of_mem _ hd)
      · intro r heq
        exact hrevoked r (heq ▸ List.mem_cons_self)
      · intro heq
        exact hdeleted (heq ▸ List.mem_cons_self)
  · intro h
    rcases h with ⟨name, rfl⟩ | ⟨⟨newer, older, name, rfl, hrevoked, hdeleted⟩, hev, hev'⟩
    · exact ⟨[], past, name, rfl, fun _ => List.not_mem_nil, List.not_mem_nil⟩
    · refine ⟨ev :: newer, older, name, rfl, fun r hr => ?_, fun hd => ?_⟩
      · rcases List.mem_cons.mp hr with heq | hr
        · exact hev r heq.symm
        · exact hrevoked r hr
      · rcases List.mem_cons.mp hd with heq | hd
        · exact hev' heq.symm
        · exact hdeleted hd

theorem mem_of_live {c : CreatedApiToken} {u : UserId} {past : List TokenEvent}
    (h : Live c u past) :
    ∃ name, .created u name (.ok c) ∈ past := by
  obtain ⟨newer, older, name, rfl, -, -⟩ := h
  exact ⟨name, List.mem_append_right _ List.mem_cons_self⟩

/-- **The invariant**: at rest, the table has a row for each token that is alive, and for no
    other. -/
structure Mirrors (sha256 : Sha256) (past : List TokenEvent) (w : TokenWorld) : Prop where
  still : w.Still
  distinct : w.Distinct
  users : (w.db.users.map (·.id)).Nodup
  token : ∀ id row, w.token id = some row ↔
    ∃ c, Live c row.userId past ∧ c.token = { row with id := id }
  created : ∀ u name c, .created u name (.ok c) ∈ past → c.token.userId = u ∧
    c.token.tokenHash = hashToken sha256 c.plaintext ∧ ∃ bytes, c.plaintext = tokenPlaintext bytes

section Steps

variable {sha256 : Sha256} {past : List TokenEvent} {w w' : TokenWorld}

/-- An operation that only takes tokens away: those that are not to keep. -/
theorem Mirrors.of_filter (h : Mirrors sha256 past w) {ev : TokenEvent}
    (keep : ApiTokenId → ApiTokenRow → Bool) (hstill : w'.Still)
    (husers : (w'.db.users.map (·.id)).Nodup)
    (htoken : ∀ id, w'.token id = (w.token id).filter (keep id))
    (hev : ∀ u name c, ev ≠ .created u name (.ok c))
    (hkeep : ∀ c : CreatedApiToken, keep c.token.id c.token.toApiTokenRow = true ↔
      (∀ r, ev ≠ .revoked c.token.id c.token.userId r) ∧ ev ≠ .userDeleted c.token.userId) :
    Mirrors sha256 (ev :: past) w' := by
  have hrow : ∀ id row, w'.token id = some row ↔ w.token id = some row ∧ keep id row = true := by
    intro id row
    rw [htoken, Option.filter_eq_some_iff]
  -- A row that is kept belongs to a token that is still alive, and the other way round.
  refine ⟨hstill, ?_, husers, ?_, ?_⟩
  · intro i j r s hr hs
    exact h.distinct i j r s ((hrow i r).mp hr).1 ((hrow j s).mp hs).1
  · intro id row
    rw [hrow, h.token]
    constructor
    · intro hyp
      obtain ⟨⟨c, hlive, hc⟩, hk⟩ := hyp
      refine ⟨c, live_cons.mpr (.inr ⟨hlive, ?_⟩), hc⟩
      have hboth := (hkeep c).mp (by rw [hc]; exact hk)
      rw [hc] at hboth ⊢
      exact hboth
    · intro hyp
      obtain ⟨c, hlive, hc⟩ := hyp
      rcases live_cons.mp hlive with ⟨name, heq⟩ | ⟨hlive, hboth⟩
      · exact absurd heq (hev _ _ _)
      · refine ⟨⟨c, hlive, hc⟩, ?_⟩
        have hk := (hkeep c).mpr (by rw [hc] at hboth ⊢; exact hboth)
        rw [hc] at hk
        exact hk
  · intro u name c hmem
    rcases List.mem_cons.mp hmem with heq | hmem
    · exact absurd heq.symm (hev u name c)
    · exact h.created u name c hmem

/-- A new token. -/
theorem Mirrors.create (h : Mirrors sha256 past w) {u : UserId} (name : Option String)
    {c : CreatedApiToken} (hc : Creates sha256 u w (.ok c) w') :
    Mirrors sha256 (.created u name (.ok c) :: past) w' := by
  obtain ⟨hu, hhash, hbytes, hfree, hdistinct, hleaves⟩ := hc
  have htoken : ∀ id, w'.token id =
      if id = c.token.id then some c.token.toApiTokenRow else w.token id := by
    intro id
    rw [hleaves.token, Function.update_apply]
  have hlive : ∀ c' v, Live c' v (.created u name (.ok c) :: past) ↔ (c' = c ∧ v = u) ∨
      Live c' v past := by
    intro c' v
    rw [live_cons]
    constructor
    · intro h
      rcases h with ⟨name', heq⟩ | ⟨hlive, -⟩
      · cases heq
        exact .inl ⟨rfl, rfl⟩
      · exact .inr hlive
    · intro h
      rcases h with ⟨rfl, rfl⟩ | hlive
      · exact .inl ⟨name, rfl⟩
      · exact .inr ⟨hlive, nofun, nofun⟩
  -- No token that is alive has the id of the new one.
  have hid : ∀ c' v, Live c' v past → c'.token.id ≠ c.token.id := by
    intro c' v hlive' heq
    obtain ⟨name', hmem⟩ := mem_of_live hlive'
    have hrow := (h.token c'.token.id c'.token.toApiTokenRow).mpr
      ⟨c', by rw [(h.created _ _ _ hmem).1]; exact hlive', rfl⟩
    rw [heq, hfree] at hrow
    cases hrow
  refine ⟨hleaves.still, ?_, by rw [hleaves.users]; exact h.users, ?_, ?_⟩
  · intro i j r s hr hs hcol
    rw [htoken] at hr hs
    split at hr
    · rename_i hi
      obtain rfl := Option.some.inj hr
      split at hs
      · rename_i hj
        rw [hi, hj]
      · exact absurd hcol.symm (hdistinct j s hs)
    · split at hs
      · obtain rfl := Option.some.inj hs
        exact absurd hcol (hdistinct i r hr)
      · exact h.distinct i j r s hr hs hcol
  · intro id row
    rw [htoken]
    split
    · rename_i heq
      subst heq
      constructor
      · intro hrow
        obtain rfl := Option.some.inj hrow
        exact ⟨c, (hlive c _).mpr (.inl ⟨rfl, hu⟩), rfl⟩
      · intro hyp
        obtain ⟨c', hlive', hc'⟩ := hyp
        rcases (hlive c' _).mp hlive' with ⟨rfl, -⟩ | hlive'
        · rw [hc']
        · exact absurd (congrArg ApiToken.id hc') (hid c' _ hlive')
    · rename_i hne
      rw [h.token]
      constructor
      · intro hyp
        obtain ⟨c', hlive', hc'⟩ := hyp
        exact ⟨c', (hlive c' _).mpr (.inr hlive'), hc'⟩
      · intro hyp
        obtain ⟨c', hlive', hc'⟩ := hyp
        rcases (hlive c' _).mp hlive' with ⟨rfl, -⟩ | hlive'
        · exact absurd (congrArg ApiToken.id hc').symm hne
        · exact ⟨c', hlive', hc'⟩
  · intro v name' c' hmem
    rcases List.mem_cons.mp hmem with heq | hmem
    · cases heq
      exact ⟨hu, hhash, hbytes⟩
    · exact h.created v name' c' hmem

/-- An operation that leaves all tokens. -/
theorem Mirrors.quiet (h : Mirrors sha256 past w) {ev : TokenEvent} (hleaves : Leaves w w.token w')
    (hev : ∀ u name c, ev ≠ .created u name (.ok c)) (hrevoked : ∀ id u r, ev ≠ .revoked id u r)
    (hdeleted : ∀ u, ev ≠ .userDeleted u) : Mirrors sha256 (ev :: past) w' := by
  refine h.of_filter (fun _ _ => true) hleaves.still (by rw [hleaves.users]; exact h.users)
    (fun id => ?_) hev fun c => ?_
  · rw [hleaves.token]
    cases w.token id <;> rfl
  · simp only [true_iff]
    exact ⟨fun r => hrevoked _ _ r, hdeleted _⟩

theorem leaves_of_db (hw : w.Still) (h : w'.db = w.db) : Leaves w w.token w' := by
  refine ⟨?_, by rw [h], ?_⟩
  · rw [TokenWorld.Still, h]
    exact hw
  · funext id
    rw [TokenWorld.token, h]
    rfl

/-- **Every operation keeps the table a mirror of the tokens that are alive.** -/
theorem Mirrors.step {dir : Directory} {self : ApiTokensService} {ev : TokenEvent}
    (h : Mirrors sha256 past w) (hstep : TokenStep sha256 dir self w ev w') :
    Mirrors sha256 (ev :: past) w' := by
  -- By the kind of the step: three of them change the table, and each has its outcome.
  cases hstep with
  | create p u name r hends =>
    have hout := (create_outcome h.still self u name).of_ends (calmAct dir) p hends
    cases r with
    | ok c => exact h.create name hout
    | error e => exact h.quiet hout nofun nofun nofun
  | revoke p id u r hends =>
    have hout := (revoke_outcome h.still id u).of_ends (calmAct dir) p hends
    refine h.of_filter (fun i row => !TokenDb.owned id u i row) hout.leaves.still
      (by rw [hout.leaves.users]; exact h.users) (fun i => by rw [hout.leaves.token])
      (fun _ _ _ heq => by cases heq) ?_
    intro c
    simp only [TokenDb.owned, Bool.not_eq_true', decide_eq_false_iff_not]
    constructor
    · intro hno
      refine ⟨fun r' heq => ?_, fun heq => by cases heq⟩
      cases heq
      exact hno ⟨rfl, rfl⟩
    · intro hyp hyp'
      obtain ⟨hno, _⟩ := hyp
      obtain ⟨hid, hu⟩ := hyp'
      subst hid
      subst hu
      exact hno r rfl
  | list p u r hends =>
    have hdb := (listForUser_outcome h.still u).of_ends (calmAct dir) p hends
    exact h.quiet (leaves_of_db h.still hdb) nofun nofun nofun
  | authenticate p authHeader r hends =>
    have hout := (authenticateBearer_outcome h.still h.distinct h.users authHeader).of_ends
      (calmAct dir) p hends
    exact h.quiet (leaves_of_db h.still hout.1) nofun nofun nofun
  | deleteUser u =>
    have hcell : ∀ id, (w.db.deleteUser u).tokens.cell id =
        { w.db.tokens.cell id with
          committed := (w.token id).filter fun row => decide (row.userId ≠ u) } :=
      fun id => Table.cell_mapCells (fun _ => rfl) w.db.tokens id
    refine h.of_filter (fun _ row => decide (row.userId ≠ u)) ?_ ?_ ?_
      (fun _ _ _ heq => by cases heq) fun c => ?_
    · intro id x v hp
      refine h.still id x v ?_
      rw [hcell id] at hp
      exact hp
    · exact (List.filter_sublist.map _).nodup h.users
    · intro id
      rw [TokenWorld.token, hcell id]
    · rw [decide_eq_true_iff]
      constructor
      · intro hne
        refine ⟨fun _ h' => (by cases h'), fun heq => ?_⟩
        cases heq
        exact hne rfl
      · intro hyp heq
        obtain ⟨_, hno⟩ := hyp
        exact hno (by rw [heq])

/-- An operation for one user leaves the tokens of all others. -/
theorem Mirrors.others {dir : Directory} {self : ApiTokensService} {ev : TokenEvent}
    (h : Mirrors sha256 past w) (hstep : TokenStep sha256 dir self w ev w') {v : UserId}
    (hv : ev.user ≠ some v) (id : ApiTokenId) (row : ApiTokenRow) (hrow : row.userId = v) :
    w'.token id = some row ↔ w.token id = some row := by
  have h' := h.step hstep
  rw [h'.token, h.token]
  refine exists_congr fun c => and_congr_left fun hc => ?_
  rw [live_cons, hrow]
  constructor
  · intro hlive
    rcases hlive with ⟨name, rfl⟩ | ⟨hlive, -⟩
    · exact absurd rfl hv
    · exact hlive
  · intro hlive
    refine .inr ⟨hlive, fun r heq => ?_, fun heq => ?_⟩
    · rw [heq] at hv
      exact hv rfl
    · rw [heq] at hv
      exact hv rfl

theorem Mirrors.run {dir : Directory} {self : ApiTokensService} {w₀ : TokenWorld}
    (h : Mirrors sha256 [] w₀) (hrun : TokenRun sha256 dir self w₀ past w) :
    Mirrors sha256 past w := by
  induction hrun with
  | nil => exact h
  | cons _ hstep ih => exact ih.step hstep

theorem mirrors_of_empty {t : TokenTables} (ht : t.tokens = []) : Mirrors sha256 [] t.world := by
  have hnone : ∀ id, t.world.token id = none := by
    intro id
    rw [Option.eq_none_iff_forall_ne_some]
    intro row hrow
    rw [TokenWorld.token] at hrow
    have hmem := (Table.ofRows_committed (h := t.tokens_rows_nodup)).mp hrow
    rw [ht] at hmem
    cases hmem
  refine ⟨Table.ofRows_holds _ _ t.tokens_rows_nodup, ?_, t.users_pkey, ?_,
    fun _ _ _ h => by cases h⟩
  · intro i j r s hr
    rw [hnone] at hr
    cases hr
  · intro id row
    rw [hnone]
    constructor
    · intro hrow
      cases hrow
    · intro hyp
      obtain ⟨c, hlive, _⟩ := hyp
      obtain ⟨name, hmem⟩ := mem_of_live hlive
      cases hmem

end Steps

/-! ## The life cycle -/

/-- No two of the texts have one digest. -/
def NoCollision (sha256 : Sha256) (texts : List String) : Prop :=
  ∀ a ∈ texts, ∀ b ∈ texts, sha256 (asBytes a) = sha256 (asBytes b) → a = b

/-- The header is `Bearer ` and, between blanks, the plaintext of a token of `u` that is alive, and
    `u` is there and in the directory. -/
def Admits (dir : Directory) (past : List TokenEvent) (w : TokenWorld)
    (authHeader : Option (List UInt8)) (u : UserId) : Prop :=
  (∃ l r c, Blank l ∧ Blank r ∧ Live c u past ∧
    authHeader = some (asBytes ("Bearer " ++ l ++ c.plaintext ++ r))) ∧
  ∃ user ∈ w.db.users, user.id = u ∧ dir.Lists user.dn

/-- The rows that belong to a hash are those of the tokens with the plaintext. -/
theorem Mirrors.hashOf {sha256 : Sha256} {past : List TokenEvent} {w : TokenWorld}
    (h : Mirrors sha256 past w) {p : String} (hcol : NoCollision sha256 (p :: plaintexts past))
    (u : UserId) : w.HashOf (hashToken sha256 p) u ↔ ∃ c, Live c u past ∧ c.plaintext = p := by
  constructor
  · intro hyp
    obtain ⟨id, row, hrow, hhash, hu⟩ := hyp
    subst hu
    obtain ⟨c, hlive, hc⟩ := (h.token id row).mp hrow
    obtain ⟨name, hmem⟩ := mem_of_live hlive
    obtain ⟨-, hchash, -⟩ := h.created _ _ _ hmem
    have hdigest : hashToken sha256 c.plaintext = hashToken sha256 p := by
      rw [← hchash, hc]
      exact hhash
    have hbytes := Vector.toList_inj.mp (Hex.encode_injective hdigest)
    refine ⟨c, hlive, hcol _ (List.mem_cons_of_mem _ ?_) _ List.mem_cons_self hbytes⟩
    exact List.mem_filterMap.mpr ⟨_, hmem, rfl⟩
  · intro hyp
    obtain ⟨c, hlive, hp⟩ := hyp
    obtain ⟨name, hmem⟩ := mem_of_live hlive
    obtain ⟨hu, hchash, -⟩ := h.created _ _ _ hmem
    refine ⟨c.token.id, c.token.toApiTokenRow, (h.token _ _).mpr ⟨c, ?_, rfl⟩, ?_, hu⟩
    · rw [hu]
      exact hlive
    · rw [← hp]
      exact hchash

theorem Mirrors.admits_iff {sha256 : Sha256} {dir : Directory} {past : List TokenEvent}
    {w : TokenWorld} (h : Mirrors sha256 past w) {authHeader : Option (List UInt8)}
    (hcol : NoCollision sha256 ((bearerToken authHeader).toList ++ plaintexts past)) (u : UserId) :
    (∃ token, bearerToken authHeader = some token ∧ w.HashOf (hashToken sha256 token) u ∧
      ∃ user ∈ w.db.users, user.id = u ∧ dir.Lists user.dn) ↔ Admits dir past w authHeader u := by
  -- A plaintext that was handed out is one of those that a header can carry.
  have hcarried : ∀ c, Live c u past → (bearerToken authHeader = some c.plaintext ↔
      ∃ l r, Blank l ∧ Blank r ∧
        authHeader = some (asBytes ("Bearer " ++ l ++ c.plaintext ++ r))) := by
    intro c hlive
    obtain ⟨name, hmem⟩ := mem_of_live hlive
    obtain ⟨-, -, bytes, hbytes⟩ := h.created _ _ _ hmem
    rw [hbytes]
    exact bearerToken_eq_some (tokenPlaintext_ne_empty bytes) (graphic_tokenPlaintext bytes)
  constructor
  · intro hyp
    obtain ⟨token, htoken, hhash, hknown⟩ := hyp
    rw [htoken] at hcol
    obtain ⟨c, hlive, rfl⟩ := (h.hashOf hcol u).mp hhash
    obtain ⟨l, r, hl, hr, hheader⟩ := (hcarried c hlive).mp htoken
    exact ⟨⟨l, r, c, hl, hr, hlive, hheader⟩, hknown⟩
  · intro hyp
    obtain ⟨⟨l, r, c, hl, hr, hlive, hheader⟩, hknown⟩ := hyp
    have htoken := (hcarried c hlive).mpr ⟨l, r, hl, hr, hheader⟩
    rw [htoken] at hcol
    exact ⟨c.plaintext, htoken, (h.hashOf hcol u).mpr ⟨c, hlive, rfl⟩, hknown⟩

/-- **The life of a token**, in every run from an empty table: a request is answered as `u` exactly
    when its header carries a token of `u` that is alive and `u` is known; nobody but its owner can
    revoke a token; and what is done for one user does not touch the tokens of another. -/
theorem lifeCycle_of_run (sha256 : Sha256) (dir : Directory) (self : ApiTokensService)
    (t : TokenTables) (ht : t.tokens = []) {past : List TokenEvent} {w : TokenWorld}
    (hrun : TokenRun sha256 dir self t.world past w) :
    (∀ p authHeader,
      NoCollision sha256 ((bearerToken authHeader).toList ++ plaintexts past) →
      Prog.Achieves (calmAct dir) p (fun r _ => ∀ u,
        (∃ user, r = .ok (some user) ∧ user.id = u) ↔ Admits dir past w authHeader u)
        (authenticateBearer sha256 authHeader) w) ∧
    (∀ p id v, (∀ row, w.token id = some row → row.userId ≠ v) →
      Prog.Achieves (calmAct dir) p (fun r w' => r = .error .notFound ∧ w'.db = w.db)
        (ApiTokensService.revoke id v) w) ∧
    (∀ ev w', TokenStep sha256 dir self w ev w' → ∀ v, ev.user ≠ some v →
      ∀ id row, row.userId = v → (w'.token id = some row ↔ w.token id = some row)) := by
  have hmirrors := (mirrors_of_empty ht).run hrun
  refine ⟨fun p authHeader hcol => ?_, fun p id v hno => ?_, fun ev w' hstep v hv => ?_⟩
  · refine (authenticateBearer_outcome hmirrors.still hmirrors.distinct hmirrors.users
      authHeader).mono (calmAct dir) p fun r w' hr u => (hr.2 u).trans ?_
    exact hmirrors.admits_iff hcol u
  · exact (revoke_outcome hmirrors.still id v).mono (calmAct dir) p fun r w' hr => hr.notFound hno
  · exact hmirrors.others hstep hv

/-- `alice` creates a token, and a header with it is answered as her. -/
theorem lifeCycle_of_run_small : ∃ c w,
    TokenRun smallSha256 smallDirectory ⟨1⟩ smallTokens.world [.created alice.id none (.ok c)] w ∧
      Prog.Achieves (calmAct smallDirectory) (.task 0)
        (fun r _ => ∃ user, r = .ok (some user) ∧ user.id = alice.id)
        (authenticateBearer smallSha256 (some (asBytes ("Bearer " ++ "\t" ++ c.plaintext ++ " "))))
          w := by
  obtain ⟨r, w, hends, hr⟩ := Prog.exists_ends_of_exec (calmAct smallDirectory) (.task 0)
    (x := ApiTokensService.create smallSha256 ⟨1⟩ alice.id none) (s := smallTokens.world)
    [{}, {}, {}, {}, {}, {}] (fun r => match r with | .ok _ => true | .error _ => false)
    (by decide +kernel)
  cases r with
  | error e => cases hr
  | ok c =>
  have hrun : TokenRun smallSha256 smallDirectory ⟨1⟩ smallTokens.world
      [.created alice.id none (.ok c)] w := .cons .nil (.create (.task 0) alice.id none _ hends)
  have hempty : Mirrors smallSha256 [] smallTokens.world := mirrors_of_empty rfl
  obtain ⟨-, -, ⟨bytes, hbytes⟩, -, -, hleaves⟩ :=
    (create_outcome hempty.still ⟨1⟩ alice.id none).of_ends (calmAct smallDirectory) (.task 0) hends
  have hblank : Blank "\t" ∧ Blank " " := by simp [Blank]
  have htoken : bearerToken (some (asBytes ("Bearer " ++ "\t" ++ c.plaintext ++ " "))) =
      some c.plaintext := by
    rw [hbytes]
    exact (bearerToken_eq_some (tokenPlaintext_ne_empty bytes) (graphic_tokenPlaintext bytes)).mpr
      ⟨"\t", " ", hblank.1, hblank.2, rfl⟩
  refine ⟨c, w, hrun, ?_⟩
  refine ((lifeCycle_of_run smallSha256 smallDirectory ⟨1⟩ smallTokens rfl hrun).1 (.task 0) _
    ?_).mono _ _ fun r _ hr => (hr alice.id).mpr ?_
  · rw [htoken]
    intro a ha b hb _
    simp only [plaintexts, Option.toList_some, List.filterMap_cons, List.filterMap_nil,
      List.singleton_append, List.mem_cons, List.not_mem_nil, or_false, or_self] at ha hb
    rw [ha, hb]
  · refine ⟨⟨"\t", " ", c, hblank.1, hblank.2, ⟨[], [], none, rfl, nofun, nofun⟩, rfl⟩, alice, ?_,
      rfl, smallEntry, [], ⟨alice.dn, alice.email, ["staff"]⟩, rfl, rfl⟩
    rw [hleaves.users]
    exact List.mem_cons_self

end Tachikoma
