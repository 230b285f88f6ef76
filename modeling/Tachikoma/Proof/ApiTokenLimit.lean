import Mathlib.Data.Finset.Card
import Tachikoma.Proof.TokenTasks

/-!
# The limit on API tokens

`create` lists the tokens of its user, compares their number with the limit, and inserts one with a
later statement. Two of them for one user may list the same tokens, and their inserts do not
conflict, for they have different hashes; so both commit. The limit holds as long as, at every
commit that adds a token, its user has no more tokens than the call has listed (`ListHolds`).
-/

set_option autoImplicit false

namespace Tachikoma

open Interleaving Versioned Unordered

/-! ## The tokens of a user -/

/-- The tokens that the user has, for everybody. -/
def tokensOf (u : UserId) (w : TokenWorld) : Finset ApiTokenId :=
  ((w.db.tokens.committedRows.filter fun r => r.2.userId = u).map Prod.fst).toFinset

@[simp] theorem mem_tokensOf {u : UserId} {w : TokenWorld} {id : ApiTokenId} :
    id ∈ tokensOf u w ↔ ∃ r, w.token id = some r ∧ r.userId = u := by
  simp [tokensOf, Table.mem_committedRows, TokenWorld.token]

/-- A clean transaction lists as many tokens as its user has. -/
theorem length_listApiTokensForUser {p : Pid} {w : TokenWorld} (hc : TokenClean p w)
    (tx : RegistryTx) (order : List Nat) (u : UserId) :
    (w.db.listApiTokensForUser ⟨p, tx.no⟩ order u).length = (tokensOf u w).card := by
  have hrows : w.db.tokens.rows ⟨p, tx.no⟩ = w.db.tokens.committedRows := by
    refine List.filterMap_congr fun c hcell => ?_
    have hview := hc.view tx c.1
    rw [TokenWorld.token, Table.cell_of_mem hcell] at hview
    rw [hview]
  have hnodup : ((w.db.tokens.committedRows.filter fun r => r.2.userId = u).map Prod.fst).Nodup :=
    (List.filter_sublist.map _).nodup (Table.rowsBy_keys_nodup _ _)
  rw [tokensOf, List.toFinset_card_of_nodup hnodup]
  simp only [TokenDb.listApiTokensForUser, orderBy, List.length_insertionSort,
    (arrange_perm order _).length_eq, TokenDb.view, hrows, List.filter_map, List.length_map]
  rfl

/-- The event commits a new token of the user. -/
def addsToken (u : UserId) : TokenEv → Bool
  | .did p _ (.commit tx) (.ok ()) w _ => w.db.tokens.cells.any fun c =>
    match c.2.pending with
    | some (x, some r) => x = ⟨p, tx.no⟩ ∧ r.userId = u
    | _ => false
  | _ => false

theorem addsToken_of_pending {u : UserId} {p : Pid} {n : Nat} {tx : RegistryTx} {w w' : TokenWorld}
    {id : ApiTokenId} {r : ApiTokenRow}
    (hp : (w.db.tokens.cell id).pending = some (⟨p, tx.no⟩, some r)) (hu : r.userId = u) :
    addsToken u (.did p n (.commit tx) (.ok ()) w w') = true := by
  rcases w.db.tokens.cell_cases id with hmem | ⟨_, hempty⟩
  · show List.any _ _ = true
    rw [List.any_eq_true]
    exact ⟨_, hmem, by simp [hp, hu]⟩
  · rw [hempty] at hp
    cases hp

/-- The world in which the `n`-th call of `p` lists the tokens of its user. -/
def listing (p : Pid) (n : Nat) : TokenEv → Option TokenWorld
  | .did q m (.listApiTokensForUser _ _) _ w _ => if q = p ∧ m = n then some w else none
  | _ => none

/-- The world that the `n`-th call of `p` has listed the tokens in. -/
def listedIn (p : Pid) (n : Nat) (tr : TokenTrace) : Option TokenWorld :=
  (tr.filterMap (listing p n)).getLast?

/-- When a commit adds a token of the user, the user has no more tokens than the call has listed. -/
def ListHolds (u : UserId) (h : TokenHistory) (ev : TokenEv) : Prop :=
  addsToken u ev = true → ∀ w ∈ listedIn ev.pid ev.calls h.trace,
    (tokensOf u h.state).card ≤ (tokensOf u w).card

instance (u : UserId) (h : TokenHistory) (ev : TokenEv) : Decidable (ListHolds u h ev) := by
  unfold ListHolds
  infer_instance

/-- All tokens are created by one service. -/
def createdBy (service : ApiTokensService) (_ : Pid) : TokenCall → Prop
  | .create self _ _ => self = service
  | _ => True

instance (service : ApiTokensService) : ∀ p κ, Decidable (createdBy service p κ)
  | _, .create .. => inferInstanceAs (Decidable (_ = _))
  | _, .listForUser .. => inferInstanceAs (Decidable True)
  | _, .revoke .. => inferInstanceAs (Decidable True)
  | _, .authenticateBearer .. => inferInstanceAs (Decidable True)

/-- The steps of runs in which the gaps of `u`'s calls are harmless. -/
def TokenLimitCond (service : ApiTokensService) (u : UserId) (h : TokenHistory) (ev : TokenEv) :
    Prop :=
  Machine.Calling (createdBy service) h ev ∧ ListHolds u h ev

instance (service : ApiTokensService) (u : UserId) (h : TokenHistory) (ev : TokenEv) :
    Decidable (TokenLimitCond service u h ev) :=
  inferInstanceAs (Decidable (_ ∧ _))

theorem listedIn_push {p : Pid} {n : Nat} {w : TokenWorld} {h : TokenHistory}
    (hw : listedIn p n h.trace = some w) (ev : TokenEv) : listedIn p n (h.push ev).trace = some w :=
  getLast?_filterMap_push hw ev

theorem listing_of_ne {p : Pid} {n : Nat} {ev : TokenEv} (h : ev.pid ≠ p) :
    listing p n ev = none := by
  unfold listing
  split
  · exact if_neg fun hp => h hp.1
  · rfl

/-! ## One effect -/

section Effect

variable {u : UserId} {L : Nat} {p : Pid} {n : Nat}

/-- What the task has pending for `u` is among `S`, which fits under the limit on top of what the
    call has listed. -/
structure Adding (u : UserId) (L : Nat) (p : Pid) (n : Nat) (S : Finset ApiTokenId)
    (h : TokenHistory) : Prop where
  pending : h.state.db.tokens.Holds fun x id v =>
    x.pid = p → ∀ r, v = some r → r.userId = u → id ∈ S
  fits : S = ∅ ∨ ∃ w, listedIn p n h.trace = some w ∧ (tokensOf u w).card + S.card ≤ L

theorem Adding.stable {sha256 : Sha256} {dir : Directory} {Cond : TokenHistory → TokenEv → Prop}
    {Inv : TokenHistory → Prop} {S : Finset ApiTokenId} :
    (tokenMachine sha256 dir).Stable Cond Inv p (Adding u L p n S) := by
  intro h ev _ hA hne hl _
  refine ⟨?_, hA.fits.imp_right fun ⟨w, hw, hle⟩ => ⟨w, listedIn_push hw ev, hle⟩⟩
  cases ev with
  | called q m κ => exact hA.pending
  | did q m e r w w' =>
    obtain ⟨rfl, hacts⟩ := tokenActs_of_legal hl
    exact hacts.holds hA.pending (fun _ _ _ hp => absurd hp hne) fun _ _ _ _ hp => absurd hp hne

/-- The effect creates no token of the user. -/
def CreatesNone (u : UserId) (e : TokenEffect) : Prop :=
  ∀ tx name tokenHash, e ≠ .createApiToken tx u name tokenHash

theorem Adding.did {S : Finset ApiTokenId} {h : TokenHistory} (hA : Adding u L p n S h)
    {e : TokenEffect} {r : e.Res} {w' : TokenWorld} (hacts : TokenActs p h.state e r w')
    (he : CreatesNone u e) : Adding u L p n S (h.push (.did p n e r h.state w')) := by
  refine ⟨?_, hA.fits.imp_right fun ⟨w, hw, hle⟩ => ⟨w, listedIn_push hw _, hle⟩⟩
  refine hacts.holds hA.pending (fun tx token heq _ row hrow hu => ?_) fun _ _ _ _ _ _ => nofun
  obtain rfl := Option.some.inj hrow
  rw [show token.userId = u from hu] at heq
  exact absurd heq (he tx _ _)

/-- After any effect the user has no more tokens than the limit. -/
theorem Adding.card_le {S : Finset ApiTokenId} {h : TokenHistory} (hA : Adding u L p n S h)
    (hle : (tokensOf u h.state).card ≤ L) {e : TokenEffect} {r : e.Res} {w' : TokenWorld}
    (hacts : TokenActs p h.state e r w') (hc : ListHolds u h (.did p n e r h.state w')) :
    (tokensOf u w').card ≤ L := by
  -- What is new was pending for the task, and so it is in `S`.
  have hnew : ∀ id ∈ tokensOf u w', id ∈ tokensOf u h.state ∨
      id ∈ S ∧ addsToken u (.did p n e r h.state w') = true := by
    intro id hid
    obtain ⟨row, hrow, hu⟩ := mem_tokensOf.mp hid
    rcases hacts.token id with heq | ⟨tx, v, rfl, hp, heq⟩
    · exact .inl (mem_tokensOf.mpr ⟨row, heq ▸ hrow, hu⟩)
    · rw [heq] at hrow
      subst hrow
      cases hacts with
      | quiet _ _ _ hcommit => exact absurd rfl (hcommit tx)
      | commitFails =>
        refine .inl (mem_tokensOf.mpr ⟨row, ?_, hu⟩)
        rw [← heq]
        simp [TokenWorld.token, TokenDb.rollback]
      | commit => exact .inr ⟨hA.pending id _ _ hp rfl row rfl hu, addsToken_of_pending hp hu⟩
  by_cases hadds : addsToken u (.did p n e r h.state w') = true
  · rcases hA.fits with rfl | ⟨w, hw, hfits⟩
    · refine (Finset.card_le_card fun id hid => ?_).trans hle
      exact (hnew id hid).resolve_right fun hS => absurd hS.1 (Finset.notMem_empty id)
    · have hlist := hc hadds w hw
      have hsub : tokensOf u w' ⊆ tokensOf u h.state ∪ S := fun id hid =>
        Finset.mem_union.mpr ((hnew id hid).imp_right (·.1))
      have hunion := (Finset.card_le_card hsub).trans (Finset.card_union_le _ _)
      omega
  · refine (Finset.card_le_card fun id hid => ?_).trans hle
    exact (hnew id hid).resolve_right fun hS => hadds hS.2

end Effect

/-! ## The calls -/

section Calls

variable {sha256 : Sha256} {dir : Directory} {service : ApiTokensService} {u : UserId} {p : Pid}
  {n : Nat}

/-- The invariant. -/
def WithinLimit (service : ApiTokensService) (u : UserId) (h : TokenHistory) : Prop :=
  (tokensOf u h.state).card ≤ service.apiTokenLimit

theorem Adding.of_clean {L : Nat} {h : TokenHistory} (hc : TokenClean p h.state) :
    Adding u L p n ∅ h :=
  ⟨hc.mono fun _ _ _ hne hp => absurd hp hne, .inl rfl⟩

/-- Before the call has listed. -/
def Unlisted (p : Pid) (n : Nat) (h : TokenHistory) : Prop :=
  TokenClean p h.state ∧ h.trace.filterMap (listing p n) = []

/-- After it has listed `k` tokens of `u`. -/
def Lists (u : UserId) (k : Nat) (p : Pid) (n : Nat) (h : TokenHistory) : Prop :=
  TokenClean p h.state ∧ ∃ w, listedIn p n h.trace = some w ∧ (tokensOf u w).card = k

theorem Unlisted.stable {Cond : TokenHistory → TokenEv → Prop} {Inv : TokenHistory → Prop} :
    (tokenMachine sha256 dir).Stable Cond Inv p (Unlisted p n) := by
  refine stable_tokenClean.and fun h ev _ hA hne _ _ => ?_
  rw [filterMap_push (listing_of_ne hne)]
  exact hA

theorem Lists.stable {k : Nat} {Cond : TokenHistory → TokenEv → Prop} {Inv : TokenHistory → Prop} :
    (tokenMachine sha256 dir).Stable Cond Inv p (Lists u k p n) :=
  stable_tokenClean.and (.of_mono fun _ ev ⟨w, hw, hcard⟩ => ⟨w, listedIn_push hw ev, hcard⟩)

/-- An effect before the listing. -/
theorem Unlisted.did {h : TokenHistory} (hA : Unlisted p n h) {e : TokenEffect} {r : e.Res}
    {w' : TokenWorld} (hacts : TokenActs p h.state e r w') (he : TokenReads e)
    (hlist : ∀ tx v, e ≠ .listApiTokensForUser tx v) :
    Unlisted p n (h.push (.did p n e r h.state w')) := by
  refine ⟨hacts.clean he hA.1, ?_⟩
  rw [filterMap_push, hA.2]
  cases e with
  | listApiTokensForUser tx v => exact absurd rfl (hlist tx v)
  | _ => rfl

/-- Whatever the task has pending for `u` fits. -/
def TokensFit (service : ApiTokensService) (u : UserId) (p : Pid) (n : Nat) (h : TokenHistory) :
    Prop := ∃ S, Adding u service.apiTokenLimit p n S h

theorem TokensFit.stable {Cond : TokenHistory → TokenEv → Prop} {Inv : TokenHistory → Prop} :
    (tokenMachine sha256 dir).Stable Cond Inv p (TokensFit service u p n) :=
  fun h ev hI ⟨S, hA⟩ hne hl hc => ⟨S, Adding.stable h ev hI hA hne hl hc⟩

/-- A program that creates no token of `u`. -/
theorem sketch_tokensFit {α : Type} {x : Prog TokenEffect TokenEffect.Res α}
    (hx : x.Emits (CreatesNone u)) :
    (tokenMachine sha256 dir).Sketch (TokenLimitCond service u) (WithinLimit service u) p n
      (fun _ => TokensFit service u p n) x (TokensFit service u p n) :=
  Machine.Sketch.keep hx TokensFit.stable fun _ _ _ _ _ he hI ⟨S, hA⟩ ha hc =>
    ⟨hA.card_le hI (tokenActs_of_machine ha) hc.2, S, hA.did (tokenActs_of_machine ha) he⟩

/-- How the parts of `create` end: well under `A`, and otherwise with what fits. -/
def fittingTokens {ε α : Type} (service : ApiTokensService) (u : UserId) (p : Pid) (n : Nat)
    (A : α → TokenHistory → Prop) : Except ε α → TokenHistory → Prop :=
  Fallible.outcome A (TokensFit service u p n)

/-- The listing. -/
theorem sketch_listTokens {tx : RegistryTx} :
    (tokenMachine sha256 dir).Sketch (TokenLimitCond service u) (WithinLimit service u) p n
      (fittingTokens service u p n fun (existing : List ApiToken) => Lists u existing.length p n)
      (tx.listApiTokensForUser u) (Unlisted p n) := by
  refine Fallible.sketch_ask (fun _ => Lists.stable) TokensFit.stable ?_
  intro h env r w' hI hA ha hc
  have hI' := (Adding.of_clean hA.1).card_le hI (tokenActs_of_machine ha) hc.2
  obtain ⟨rfl, hr⟩ := tokenAct_list dir ha
  rcases hr with rfl | rfl
  · exact ⟨hI', ∅, .of_clean hA.1⟩
  · refine ⟨hI', hA.1, h.state, ?_, (length_listApiTokensForUser hA.1 tx env.order u).symm⟩
    have hlisting : listing p n (.did p n (.listApiTokensForUser tx u)
        (.ok (h.state.db.listApiTokensForUser ⟨p, tx.no⟩ env.order u)) h.state h.state) =
        some h.state := if_pos ⟨rfl, rfl⟩
    rw [listedIn, Hist.push_trace, List.filterMap_cons_some hlisting, hA.2]
    rfl

/-- The insert. -/
theorem sketch_insertToken {tx : RegistryTx} {name : Option String} {tokenHash : String} {k : Nat}
    (hk : k < service.apiTokenLimit) :
    (tokenMachine sha256 dir).Sketch (TokenLimitCond service u) (WithinLimit service u) p n
      (fittingTokens service u p n fun _ => TokensFit service u p n)
      (tx.createApiToken u name tokenHash) (Lists u k p n) := by
  refine Fallible.sketch_ask (fun _ => TokensFit.stable) TokensFit.stable ?_
  intro h env r w' hI hA ha hc
  have hacts := tokenActs_of_machine ha
  have hI' := (Adding.of_clean hA.1).card_le hI hacts hc.2
  cases r with
  | error err =>
    refine ⟨hI', ∅, .of_clean ?_⟩
    cases hacts with
    | quiet _ _ _ _ _ hcreate => exact absurd rfl (hcreate tx u name tokenHash)
    | createFails => exact hA.1
  | ok token =>
    obtain ⟨hclean, w, hw, hcard⟩ := hA
    obtain ⟨-, -, -, -, t, m, hinsert, rfl⟩ := hacts.of_created
    refine ⟨hI', {token.id}, ?_, .inr ⟨w, listedIn_push hw _, ?_⟩⟩
    · refine Table.Holds.insert (hclean.mono fun _ _ _ hne hp => absurd hp hne) hinsert ?_
      exact fun _ _ _ _ => Finset.mem_singleton_self _
    · rw [hcard, Finset.card_singleton]
      omega

theorem createsNone_of_reads {e : TokenEffect} (h : TokenReads e) : CreatesNone u e := by
  intro tx name tokenHash he
  rw [he] at h
  exact h

/-- A call that creates a token of `u`. -/
theorem create_withinLimit (name : Option String) :
    (tokenMachine sha256 dir).Sketch (TokenLimitCond service u) (WithinLimit service u) p n
      (fun _ _ => True) (service.create sha256 u name) (Unlisted p n) := by
  refine Machine.Sketch.bind (Q := fun _ => Unlisted p n) ?_ fun r => ?_
  · refine Machine.Sketch.effect (fun _ => Unlisted.stable) fun h env r w' hI hA ha hc => ?_
    have hacts := tokenActs_of_machine ha
    exact ⟨(Adding.of_clean hA.1).card_le hI hacts hc.2, hA.did hacts trivial (by simp)⟩
  cases r with
  | error e => exact fun _ _ _ => trivial
  | ok plaintext =>
  refine sketch_withTokenTx (fun _ => Unlisted p n)
    (fun _ => fittingTokens service u p n fun _ => TokensFit service u p n)
    (fun _ => Unlisted.stable) (fun _ => .true) ?_ ?_ ?_ ?_
  · intro h tx w' hI hA ha hc
    exact ⟨(Adding.of_clean hA.1).card_le hI ha hc.2, hA.did ha trivial (by simp)⟩
  · intro h err w' hI hA ha hc
    exact ⟨(Adding.of_clean hA.1).card_le hI ha hc.2, trivial⟩
  · intro tx
    refine Fallible.sketch_bind (Fallible.sketch_mapErr sketch_listTokens) fun existing => ?_
    split
    · exact Fallible.sketch_throw fun h _ hA => ⟨∅, .of_clean hA.1⟩
    rename_i hlt
    refine Fallible.sketch_bind (Fallible.sketch_mapErr (sketch_insertToken (by omega)))
      fun token => ?_
    -- After its insert the call adds nothing more.
    have hcommit : Prog.Emits (CreatesNone u) (do
        tx.commitTokens.mapErr .databaseError
        return ⟨token, plaintext⟩ : TokenTask ApiTokenError CreatedApiToken) :=
      emits_fallibleBind (createsNone_of_reads trivial) fun _ => trivial
    refine (sketch_tokensFit hcommit).post fun r h _ hfits => ?_
    cases r <;> exact hfits
  · intro tx r h w' hI hr ha hc
    obtain ⟨S, hA⟩ : TokensFit service u p n h := by cases r <;> exact hr
    exact ⟨hA.card_le hI ha hc.2, trivial⟩

/-- A call that begins has not listed. -/
theorem unlisted_of_call {h : TokenHistory} (hpast : ∀ ev ∈ h.trace, ev.pid = p → ev.calls ≤ n)
    (hclean : TokenClean p h.state) {κ : TokenCall} :
    Unlisted p (n + 1) (h.push (.called p (n + 1) κ)) := by
  refine ⟨hclean, ?_⟩
  rw [filterMap_push rfl, List.filterMap_eq_nil_iff]
  intro ev hev
  unfold listing
  split
  · refine if_neg fun hp => ?_
    have hle := hpast _ hev hp.1
    simp only [Event.calls] at hle
    omega
  · rfl

end Calls

theorem tokensOf_world (t : TokenTables) (u : UserId) :
    (tokensOf u t.world).card = (t.tokens.filter fun r => r.userId = u).length := by
  have hids : ((t.world.db.tokens.committedRows.filter fun r => r.2.userId = u).map Prod.fst) =
      (t.tokens.filter fun r => r.userId = u).map (·.id) := by
    simp [TokenTables.world, List.filter_map, Function.comp_def]
  have hnodup : ((t.tokens.filter fun r => r.userId = u).map (·.id)).Nodup :=
    (List.filter_sublist.map _).nodup t.tokens_pkey
  rw [tokensOf, hids, List.toFinset_card_of_nodup hnodup, List.length_map]

/-- **The limit is a limit**, in every run in which the gaps of the user's calls are harmless:
    started with no more tokens than the limit, the user never has more. -/
theorem tokens_le_of_run (sha256 : Sha256) (dir : Directory) (t : TokenTables)
    (service : ApiTokensService) (u : UserId)
    (h₀ : (t.tokens.filter fun r => r.userId = u).length ≤ service.apiTokenLimit) {c : TokenSystem}
    (hrun : (tokenMachine sha256 dir).Run (TokenLimitCond service u) t.system c) :
    (tokensOf u c.hist.state).card ≤ service.apiTokenLimit := by
  refine (Machine.Run.sound (WithinLimit service u) (fun p _ _ h => TokenClean p h.state) hrun
    (fun _ hev => absurd hev List.not_mem_nil) ?_ ?_ ?_).1
  · exact (tokensOf_world t u).le.trans h₀
  · intro p
    exact ⟨fun h => TokenClean p h.state, stable_tokenClean,
      Table.ofRows_holds _ _ t.tokens_rows_nodup, fun _ _ hc => hc⟩
  · intro p n κ l h hpast hI hclean hc
    refine ⟨hI, Unlisted p (n + 1), Unlisted.stable, unlisted_of_call hpast hclean, ?_⟩
    suffices hsk : (tokenMachine sha256 dir).Sketch (TokenLimitCond service u)
        (WithinLimit service u) p (n + 1) (fun _ _ => True) (κ.body sha256 l)
          (Unlisted p (n + 1)) by
      exact (((κ.tidy l _ p (n + 1)).and hsk).pre fun _ _ hA => ⟨hA.1, hA⟩).post
        fun _ _ _ hpost => hpost.1
    -- Only a create of this user can bring one more token.
    by_cases hκ : ∃ self name, κ = .create self u name
    · obtain ⟨self, name, rfl⟩ := hκ
      obtain rfl : self = service := hc.1
      exact .bind (create_withinLimit name) fun _ _ _ _ => trivial
    · refine ((sketch_tokensFit (κ.emits (fun _ => createsNone_of_reads) ?_ ?_ l)).pre
        fun _ _ hA => ⟨∅, .of_clean hA.1⟩).post fun _ _ _ _ => trivial
      · intro tx id v tx' name tokenHash
        simp
      · intro self v name heq tx name' tokenHash tx' name'' tokenHash'' he
        cases he
        exact hκ ⟨self, name, heq⟩

/-- With a limit of one, `alice` creates a token while a second call of hers is refused. -/
theorem tokens_le_of_run_small : ∃ c,
    (tokenMachine smallSha256 smallDirectory).Run (TokenLimitCond ⟨1⟩ alice.id)
      smallTokens.system c ∧ (tokensOf alice.id c.hist.state).card ≤ 1 := by
  obtain ⟨c, hrun, -⟩ := (tokenMachine smallSha256 smallDirectory).exists_run_of_exec
    (TokenLimitCond ⟨1⟩ alice.id) smallTokens.system
    [.call (.task 0) (.create ⟨1⟩ alice.id none), .call (.task 1) (.create ⟨1⟩ alice.id none),
      .act (.task 0) {}, .act (.task 1) {}, .act (.task 0) {}, .act (.task 1) {},
      .act (.task 0) {}, .act (.task 0) {}, .act (.task 0) {}, .act (.task 1) {},
      .act (.task 1) {}]
    (fun c => (tokensOf alice.id c.hist.state).card == 1) (by decide +kernel)
  exact ⟨c, hrun, tokens_le_of_run _ _ smallTokens ⟨1⟩ alice.id (by decide) hrun⟩

/-- With a limit of one, two calls of `alice` overlap, and she has two tokens. -/
theorem not_tokens_le : ∃ c,
    (tokenMachine smallSha256 smallDirectory).Run (Machine.Calling (createdBy ⟨1⟩))
      smallTokens.system c ∧
      (∀ u, (smallTokens.tokens.filter fun r => r.userId = u).length ≤ 1) ∧
      ¬ (tokensOf alice.id c.hist.state).card ≤ 1 := by
  obtain ⟨c, hrun, hc⟩ := (tokenMachine smallSha256 smallDirectory).exists_run_of_exec
    (Machine.Calling (createdBy ⟨1⟩)) smallTokens.system
    [.call (.task 0) (.create ⟨1⟩ alice.id none), .call (.task 1) (.create ⟨1⟩ alice.id none),
      .act (.task 0) {}, .act (.task 1) { bytes := .replicate 32 1 }, .act (.task 0) {},
      .act (.task 1) {}, .act (.task 0) {}, .act (.task 1) {}, .act (.task 0) {},
      .act (.task 1) {}, .act (.task 0) {}, .act (.task 1) {}]
    (fun c => decide (¬ (tokensOf alice.id c.hist.state).card ≤ 1)) (by decide +kernel)
  exact ⟨c, hrun, fun _ => Nat.zero_le 1, of_decide_eq_true hc⟩

end Tachikoma
