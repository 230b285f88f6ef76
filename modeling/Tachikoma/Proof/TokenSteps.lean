import Tachikoma.Tokens

/-!
# What one effect does to the tokens

`TokenActs` is for `tokenAct` what `Acts` is for `act`: everything an effect may do, said once. A
committed token comes or goes at a **commit** and nowhere else, and what a task has pending is its
own.
-/

set_option autoImplicit false

namespace Tachikoma

open Interleaving Versioned

abbrev TokenEv : Type := Event Pid TokenEffect TokenEffect.Res TokenWorld TokenCall

/-- The committed row of a token. -/
def TokenWorld.token (w : TokenWorld) (id : ApiTokenId) : Option ApiTokenRow :=
  (w.db.tokens.cell id).committed

/-- What an effect of `p` in the world `w` may answer and lead to. -/
inductive TokenActs (p : Pid) (w : TokenWorld) : (e : TokenEffect) → e.Res → TokenWorld → Prop where
  | quiet (e : TokenEffect) (r : e.Res) (n : Nat) (hcommit : ∀ tx, e ≠ .commit tx)
      (hdrop : ∀ tx, e ≠ .drop tx) (hcreate : ∀ tx u name hash, e ≠ .createApiToken tx u name hash)
      (hdelete : ∀ tx id u, e ≠ .deleteApiTokenForUser tx id u) :
      TokenActs p w e r { w with nextTx := n }
  /-- An insert that fails; a number taken from the sequence is gone. -/
  | createFails (tx : RegistryTx) (userId : UserId) (name : Option String) (tokenHash : String)
      (err : SqlxError) (n : Nat) :
      TokenActs p w (.createApiToken tx userId name tokenHash) (.error err)
        { w with db := { w.db with nextTokenId := n } }
  | deleteFails (tx : RegistryTx) (tokenId : ApiTokenId) (userId : UserId) (err : SqlxError) :
      TokenActs p w (.deleteApiTokenForUser tx tokenId userId) (.error err) w
  | created (tx : RegistryTx) (token : ApiToken) (t : Table ApiTokenId TxId ApiTokenRow) (n : Nat)
      (hinsert : w.db.tokens.insert ⟨p, tx.no⟩ token.id token.toApiTokenRow = some t)
      (huser : ∃ u ∈ w.db.users, u.id = token.userId)
      (hfree : ∀ id r, (w.db.tokens.cell id).view ⟨p, tx.no⟩ = some r →
        r.tokenHash ≠ token.tokenHash) :
      TokenActs p w (.createApiToken tx token.userId token.name token.tokenHash) (.ok token)
        { w with db := { w.db with tokens := t, nextTokenId := n } }
  | deleted (tx : RegistryTx) (tokenId : ApiTokenId) (userId : UserId)
      (t : Table ApiTokenId TxId ApiTokenRow)
      (hdelete : w.db.tokens.delete ⟨p, tx.no⟩ (TokenDb.owned tokenId userId) = some t) :
      TokenActs p w (.deleteApiTokenForUser tx tokenId userId)
        (.ok ((w.db.tokens.rows ⟨p, tx.no⟩).any fun r => TokenDb.owned tokenId userId r.1 r.2))
        { w with db := { w.db with tokens := t } }
  | commit (tx : RegistryTx) :
      TokenActs p w (.commit tx) (.ok ()) { w with db := w.db.commit ⟨p, tx.no⟩ }
  | commitFails (tx : RegistryTx) :
      TokenActs p w (.commit tx) (.error .io) { w with db := w.db.rollback ⟨p, tx.no⟩ }
  | drop (tx : RegistryTx) : TokenActs p w (.drop tx) () { w with db := w.db.rollback ⟨p, tx.no⟩ }

theorem tokenActs_of_create {p : Pid} {w : TokenWorld} {tx : RegistryTx} {createdAt : Time}
    {userId : UserId} {name : Option String} {tokenHash : String} {r : Except SqlxError ApiToken}
    {db : TokenDb}
    (h : w.db.createApiToken ⟨p, tx.no⟩ createdAt userId name tokenHash = some (r, db)) :
    TokenActs p w (.createApiToken tx userId name tokenHash) r { w with db := db } := by
  unfold TokenDb.createApiToken at h
  dsimp only at h
  split at h
  · cases h
  · split at h
    · obtain ⟨rfl, rfl⟩ := Prod.mk.inj (Option.some.inj h)
      exact .createFails tx userId name tokenHash .uniqueViolation _
    · rename_i hseen
      split at h
      · obtain ⟨rfl, rfl⟩ := Prod.mk.inj (Option.some.inj h)
        exact .createFails tx userId name tokenHash .foreignKeyViolation _
      · rename_i huser
        split at h
        · obtain ⟨rfl, rfl⟩ := Prod.mk.inj (Option.some.inj h)
          exact .createFails tx userId name tokenHash .uniqueViolation _
        · rename_i t ht
          obtain ⟨rfl, rfl⟩ := Prod.mk.inj (Option.some.inj h)
          refine .created tx ⟨⟨userId, name, tokenHash, createdAt⟩, _⟩ t _ ht ?_ ?_
          · simpa using huser
          · intro id r hr hhash
            rcases w.db.tokens.cell_cases id with hmem | ⟨_, hempty⟩
            · refine hseen ?_
              rw [List.any_eq_true]
              exact ⟨_, hmem, by simp [hr, hhash]⟩
            · rw [hempty] at hr
              cases hr

/-- `tokenAct` does nothing that `TokenActs` does not say. -/
theorem tokenActs_of_act {dir : Directory} {p : Pid} {e : TokenEffect} {env : TokenEnv}
    {w w' : TokenWorld} {r : e.Res} (h : tokenAct dir p e env w = some (r, w')) :
    TokenActs p w e r w' := by
  cases e with
  | createApiToken tx userId name tokenHash =>
    simp only [tokenAct] at h
    split at h
    · obtain ⟨rfl, rfl⟩ := Prod.mk.inj (Option.some.inj h)
      exact .createFails tx userId name tokenHash .io w.db.nextTokenId
    · obtain ⟨⟨r', db⟩, hx, hr⟩ := Option.map_eq_some_iff.mp h
      obtain ⟨rfl, rfl⟩ := Prod.mk.inj hr
      exact tokenActs_of_create hx
  | deleteApiTokenForUser tx tokenId userId =>
    simp only [tokenAct] at h
    split at h
    · obtain ⟨rfl, rfl⟩ := Prod.mk.inj (Option.some.inj h)
      exact .deleteFails tx tokenId userId .io
    · obtain ⟨⟨r', db⟩, hx, hr⟩ := Option.map_eq_some_iff.mp h
      obtain ⟨rfl, rfl⟩ := Prod.mk.inj hr
      obtain ⟨t, ht, hr⟩ := Option.map_eq_some_iff.mp hx
      obtain ⟨rfl, rfl⟩ := Prod.mk.inj hr
      exact .deleted tx tokenId userId t ht
  | commit tx =>
    have h := Option.some.inj h
    split at h
    · obtain ⟨rfl, rfl⟩ := Prod.mk.inj h
      exact .commitFails tx
    · obtain ⟨rfl, rfl⟩ := Prod.mk.inj h
      exact .commit tx
  | drop tx =>
    obtain ⟨rfl, rfl⟩ := Prod.mk.inj (Option.some.inj h)
    exact .drop tx
  | begin =>
    have h := Option.some.inj h
    split at h
    · obtain ⟨rfl, rfl⟩ := Prod.mk.inj h
      exact .quiet .begin _ w.nextTx (by simp) (by simp) (by simp) (by simp)
    · obtain ⟨rfl, rfl⟩ := Prod.mk.inj h
      exact .quiet .begin _ (w.nextTx + 1) (by simp) (by simp) (by simp) (by simp)
  | _ =>
    obtain ⟨rfl, rfl⟩ := Prod.mk.inj (Option.some.inj h)
    exact .quiet _ _ w.nextTx (by simp) (by simp) (by simp) (by simp)

/-- An insert that has succeeded: what it returns is what it has inserted. -/
theorem TokenActs.of_created {p : Pid} {w w' : TokenWorld} {tx : RegistryTx} {userId : UserId}
    {name : Option String} {tokenHash : String} {token : ApiToken}
    (h : TokenActs p w (.createApiToken tx userId name tokenHash) (.ok token) w') :
    token.userId = userId ∧ token.tokenHash = tokenHash ∧ (∃ u ∈ w.db.users, u.id = userId) ∧
      (∀ id r, (w.db.tokens.cell id).view ⟨p, tx.no⟩ = some r → r.tokenHash ≠ tokenHash) ∧
      ∃ t n, w.db.tokens.insert ⟨p, tx.no⟩ token.id token.toApiTokenRow = some t ∧
        w' = { w with db := { w.db with tokens := t, nextTokenId := n } } := by
  cases h with
  | quiet _ _ _ _ _ hcreate => exact absurd rfl (hcreate tx userId name tokenHash)
  | created _ _ t n hinsert huser hfree => exact ⟨rfl, rfl, huser, hfree, t, n, hinsert, rfl⟩

theorem tokenActs_of_machine {sha256 : Sha256} {dir : Directory} {p : Pid} {e : TokenEffect}
    {env : TokenEnv} {w w' : TokenWorld} {r : e.Res}
    (h : (tokenMachine sha256 dir).act p e env w = some (r, w')) : TokenActs p w e r w' :=
  tokenActs_of_act (show tokenAct dir p e env w = some (r, w') from h)

theorem tokenActs_of_legal {sha256 : Sha256} {dir : Directory} {h : TokenHistory} {p : Pid}
    {n : Nat} {e : TokenEffect} {r : e.Res} {w w' : TokenWorld}
    (hl : (tokenMachine sha256 dir).Legal h (.did p n e r w w')) :
    w = h.state ∧ TokenActs p h.state e r w' := by
  obtain ⟨rfl, env, ha⟩ := hl
  exact ⟨rfl, tokenActs_of_machine ha⟩

/-- A statement that reads changes nothing. -/
theorem tokenAct_list (dir : Directory) {p : Pid} {tx : RegistryTx} {u : UserId} {env : TokenEnv}
    {w w' : TokenWorld} {r : Except SqlxError (List ApiToken)}
    (h : tokenAct dir p (.listApiTokensForUser tx u) env w = some (r, w')) :
    w' = w ∧ (r = .error .io ∨ r = .ok (w.db.listApiTokensForUser ⟨p, tx.no⟩ env.order u)) := by
  obtain ⟨rfl, rfl⟩ := Prod.mk.inj (Option.some.inj h)
  refine ⟨rfl, ?_⟩
  by_cases hf : env.fails = true
  · exact .inl (if_pos hf)
  · exact .inr (if_neg hf)

/-! ## Pending rows -/

/-- Pending rows satisfy what is inserted, and what stands for a deleted row. -/
theorem TokenActs.holds {p : Pid} {w w' : TokenWorld} {e : TokenEffect} {r : e.Res}
    (h : TokenActs p w e r w') {P : TxId → ApiTokenId → Option ApiTokenRow → Prop}
    (hP : w.db.tokens.Holds P)
    (hcreate : ∀ tx (token : ApiToken),
      e = .createApiToken tx token.userId token.name token.tokenHash →
      P ⟨p, tx.no⟩ token.id (some token.toApiTokenRow))
    (hdelete : ∀ tx id u, e = .deleteApiTokenForUser tx id u → P ⟨p, tx.no⟩ id none) :
    w'.db.tokens.Holds P := by
  cases h with
  | quiet => exact hP
  | createFails => exact hP
  | deleteFails => exact hP
  | created tx token t n hinsert => exact hP.insert hinsert (hcreate tx token rfl)
  | deleted tx tokenId userId t ht =>
    refine hP.delete ht fun id row hrow hsel => ?_
    obtain ⟨rfl, -⟩ := of_decide_eq_true hsel
    exact hdelete tx id userId rfl
  | commit tx => exact (hP.commit _).mono fun _ _ _ hv => hv.2
  | commitFails tx => exact (hP.rollback _).mono fun _ _ _ hv => hv.2
  | drop tx => exact (hP.rollback _).mono fun _ _ _ hv => hv.2

/-- The task has no token pending. -/
def TokenClean (p : Pid) (w : TokenWorld) : Prop := w.db.tokens.Holds fun x _ _ => x.pid ≠ p

/-- What the task has pending belongs to the transaction `tx`. -/
def TokenWithin (p : Pid) (tx : RegistryTx) (w : TokenWorld) : Prop :=
  w.db.tokens.Holds fun x _ _ => x.pid = p → x = ⟨p, tx.no⟩

theorem TokenClean.within {p : Pid} {w : TokenWorld} (h : TokenClean p w) (tx : RegistryTx) :
    TokenWithin p tx w := h.mono fun _ _ _ hne he => absurd he hne

/-- A clean task sees the committed rows. -/
theorem TokenClean.view {p : Pid} {w : TokenWorld} (h : TokenClean p w) (tx : RegistryTx)
    (id : ApiTokenId) : (w.db.tokens.cell id).view ⟨p, tx.no⟩ = w.token id :=
  Table.view_of_holds (h.mono fun _ _ _ hne he => hne (by rw [he])) id

/-- The effect writes, if it does, as the transaction `tx`. -/
def TokenWritesIn (tx : RegistryTx) : TokenEffect → Prop
  | .createApiToken tx' _ _ _ => tx' = tx
  | .deleteApiTokenForUser tx' _ _ => tx' = tx
  | _ => True

/-- The effect does not write. -/
def TokenReads : TokenEffect → Prop
  | .createApiToken _ _ _ _ => False
  | .deleteApiTokenForUser _ _ _ => False
  | _ => True

theorem TokenActs.clean_of_ne {p q : Pid} {w w' : TokenWorld} {e : TokenEffect} {r : e.Res}
    (h : TokenActs q w e r w') (hq : q ≠ p) (hc : TokenClean p w) : TokenClean p w' :=
  h.holds hc (fun _ _ _ => hq) fun _ _ _ _ => hq

theorem TokenActs.within_of_ne {p q : Pid} {tx : RegistryTx} {w w' : TokenWorld} {e : TokenEffect}
    {r : e.Res} (h : TokenActs q w e r w') (hq : q ≠ p) (hc : TokenWithin p tx w) :
    TokenWithin p tx w' :=
  h.holds hc (fun _ _ _ he => absurd he hq) fun _ _ _ _ he => absurd he hq

theorem TokenActs.clean {p : Pid} {w w' : TokenWorld} {e : TokenEffect} {r : e.Res}
    (h : TokenActs p w e r w') (he : TokenReads e) (hc : TokenClean p w) : TokenClean p w' := by
  refine h.holds hc ?_ ?_
  · intro tx token heq
    rw [heq] at he
    exact he.elim
  · intro tx id u heq
    rw [heq] at he
    exact he.elim

theorem TokenActs.within {p : Pid} {tx : RegistryTx} {w w' : TokenWorld} {e : TokenEffect}
    {r : e.Res} (h : TokenActs p w e r w') (he : TokenWritesIn tx e) (hc : TokenWithin p tx w) :
    TokenWithin p tx w' := by
  refine h.holds hc ?_ ?_
  · intro tx' token heq _
    rw [heq] at he
    rw [show tx' = tx from he]
  · intro tx' id u heq _
    rw [heq] at he
    rw [show tx' = tx from he]

/-- A task that has dropped its transaction is clean. -/
theorem TokenActs.clean_of_drop {p : Pid} {tx : RegistryTx} {w w' : TokenWorld} {r : Unit}
    (h : TokenActs p w (.drop tx) r w') (hc : TokenWithin p tx w) : TokenClean p w' := by
  cases h with
  | quiet _ _ _ _ hdrop => exact absurd rfl (hdrop tx)
  | drop => exact (hc.rollback ⟨p, tx.no⟩).mono fun _ _ _ hv he => hv.1 (hv.2 he)

/-! ## Committed rows -/

/-- A commit leaves committed what its transaction saw; no other effect touches what is
    committed. -/
theorem TokenActs.token {p : Pid} {w w' : TokenWorld} {e : TokenEffect} {r : e.Res}
    (h : TokenActs p w e r w') (id : ApiTokenId) :
    w'.token id = w.token id ∨
      ∃ tx v, e = .commit tx ∧ (w.db.tokens.cell id).pending = some (⟨p, tx.no⟩, v) ∧
        w'.token id = v := by
  cases h with
  | quiet => exact .inl rfl
  | createFails => exact .inl rfl
  | deleteFails => exact .inl rfl
  | created tx token t n hinsert =>
    left
    show (t.cell id).committed = _
    rw [Table.cell_insert hinsert]
    split
    · rename_i hid
      rw [hid, TokenWorld.token, Table.cell_of_insert hinsert]
      rfl
    · rfl
  | deleted tx tokenId userId t ht =>
    left
    show (t.cell id).committed = _
    rw [Table.cell_delete ht, Cell.erase_committed]
    rfl
  | commit tx =>
    by_cases hheld : ∃ v, (w.db.tokens.cell id).pending = some (⟨p, tx.no⟩, v)
    · obtain ⟨v, hv⟩ := hheld
      refine .inr ⟨tx, v, rfl, hv, ?_⟩
      simp [TokenWorld.token, TokenDb.commit, Cell.commit_committed_held hv]
    · left
      simp [TokenWorld.token, TokenDb.commit, Cell.commit_committed_not_held (not_exists.mp hheld)]
  | commitFails tx => exact .inl (by simp [TokenWorld.token, TokenDb.rollback])
  | drop tx => exact .inl (by simp [TokenWorld.token, TokenDb.rollback])

end Tachikoma
