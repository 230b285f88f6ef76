import Tachikoma.Proof.TokenSteps

/-!
# Rules for tasks on tokens

The rule for a transaction (`sketch_withTokenTx`), and the fact that holds of all calls on tokens: a
task that is not in a transaction has no token pending (`TokenCall.tidy`).
-/

set_option autoImplicit false

namespace Tachikoma

open Interleaving Versioned

variable {sha256 : Sha256} {dir : Directory} {ε α : Type}
  {Cond : TokenHistory → TokenEv → Prop} {Inv : TokenHistory → Prop} {p : Pid} {n : Nat}

/-- A transaction: what holds when its scope is left must survive the drop that follows. -/
theorem sketch_withTokenTx {A : TokenHistory → Prop} {f : SqlxError → ε}
    {scope : RegistryTx → TokenTask ε α} {Q : Except ε α → TokenHistory → Prop}
    (B : RegistryTx → TokenHistory → Prop) (Q' : RegistryTx → Except ε α → TokenHistory → Prop)
    (hB : ∀ tx, (tokenMachine sha256 dir).Stable Cond Inv p (B tx))
    (hQ : ∀ r, (tokenMachine sha256 dir).Stable Cond Inv p (Q r))
    (hbegin : ∀ h tx w', Inv h → A h → TokenActs p h.state .begin (.ok tx) w' →
      Cond h (.did p n .begin (.ok tx) h.state w') →
      Inv (h.push (.did p n .begin (.ok tx) h.state w')) ∧
        B tx (h.push (.did p n .begin (.ok tx) h.state w')))
    (herr : ∀ h err w', Inv h → A h → TokenActs p h.state .begin (.error err) w' →
      Cond h (.did p n .begin (.error err) h.state w') →
      Inv (h.push (.did p n .begin (.error err) h.state w')) ∧
        Q (.error (f err)) (h.push (.did p n .begin (.error err) h.state w')))
    (hscope : ∀ tx, (tokenMachine sha256 dir).Sketch Cond Inv p n (Q' tx) (scope tx) (B tx))
    (hdrop : ∀ tx r h w', Inv h → Q' tx r h → TokenActs p h.state (.drop tx) () w' →
      Cond h (.did p n (.drop tx) () h.state w') →
      Inv (h.push (.did p n (.drop tx) () h.state w')) ∧
        Q r (h.push (.did p n (.drop tx) () h.state w'))) :
    (tokenMachine sha256 dir).Sketch Cond Inv p n Q (withTokenTx f scope) A := by
  refine ⟨fun r => Except.rec (fun err => Q (.error (f err))) B r, ?_, ?_, ?_⟩
  · intro r
    cases r with
    | error err => exact hQ _
    | ok tx => exact hB tx
  · intro h env r w' hI hA ha hc
    cases r with
    | error err => exact herr h err w' hI hA (tokenActs_of_machine ha) hc
    | ok tx => exact hbegin h tx w' hI hA (tokenActs_of_machine ha) hc
  · intro r
    cases r with
    | error err => exact fun _ _ h => h
    | ok tx =>
      refine Machine.Sketch.bind (hscope tx) fun r => ?_
      refine Machine.Sketch.effect (e := .drop tx) (g := fun _ => r) (fun _ => hQ r) ?_
      intro h env u w' hI hQ' ha hc
      cases u
      exact hdrop tx r h w' hI hQ' (tokenActs_of_machine ha) hc

/-! ## A clean slate -/

theorem stable_tokenClean :
    (tokenMachine sha256 dir).Stable Cond Inv p fun h => TokenClean p h.state := by
  intro h ev _ hc hne hl _
  cases ev with
  | called q m κ => exact hc
  | did q m e r w w' =>
    obtain ⟨rfl, hacts⟩ := tokenActs_of_legal hl
    exact hacts.clean_of_ne hne hc

theorem stable_tokenWithin {tx : RegistryTx} :
    (tokenMachine sha256 dir).Stable Cond Inv p fun h => TokenWithin p tx h.state := by
  intro h ev _ hc hne hl _
  cases ev with
  | called q m κ => exact hc
  | did q m e r w w' =>
    obtain ⟨rfl, hacts⟩ := tokenActs_of_legal hl
    exact hacts.within_of_ne hne hc

/-- The program, started by a clean task, leaves it clean. -/
def Tidy (sha256 : Sha256) (dir : Directory) (x : Prog TokenEffect TokenEffect.Res α) : Prop :=
  ∀ (Cond : TokenHistory → TokenEv → Prop) (p : Pid) (n : Nat),
    (tokenMachine sha256 dir).Sketch Cond (fun _ => True) p n (fun _ h => TokenClean p h.state) x
      fun h => TokenClean p h.state

theorem tidy_bind {β : Type} {x : Prog TokenEffect TokenEffect.Res α}
    {f : α → Prog TokenEffect TokenEffect.Res β} (hx : Tidy sha256 dir x)
    (hf : ∀ a, Tidy sha256 dir (f a)) : Tidy sha256 dir (x.bind f) :=
  fun Cond p n => .bind (hx Cond p n) fun a => hf a Cond p n

theorem tidy_ret (a : α) : Tidy sha256 dir (.ret a) := fun _ _ _ _ _ h => h

/-- A program that writes nothing. -/
theorem tidy_of_reads {x : Prog TokenEffect TokenEffect.Res α} (h : x.Emits TokenReads) :
    Tidy sha256 dir x := fun _ _ _ =>
  Machine.Sketch.keep h stable_tokenClean fun _ _ _ _ _ he _ hc ha _ =>
    ⟨trivial, (tokenActs_of_machine ha).clean he hc⟩

/-- A transaction whose scope writes as the transaction. -/
theorem tidy_withTokenTx {f : SqlxError → ε} {scope : RegistryTx → TokenTask ε α}
    (hscope : ∀ tx, Prog.Emits (TokenWritesIn tx) (scope tx)) :
    Tidy sha256 dir (withTokenTx f scope) := by
  intro Cond p n
  refine sketch_withTokenTx (fun tx h => TokenWithin p tx h.state)
    (fun tx _ h => TokenWithin p tx h.state) (fun _ => stable_tokenWithin)
    (fun _ => stable_tokenClean) ?_ ?_ ?_ ?_
  · intro h tx w' _ hc ha _
    exact ⟨trivial, (ha.clean trivial hc).within tx⟩
  · intro h err w' _ hc ha _
    exact ⟨trivial, ha.clean trivial hc⟩
  · exact fun tx => Machine.Sketch.keep (hscope tx) stable_tokenWithin
      fun _ _ _ _ _ he _ hc ha _ => ⟨trivial, (tokenActs_of_machine ha).within he hc⟩
  · intro tx r h w' _ hc ha _
    exact ⟨trivial, ha.clean_of_drop hc⟩

theorem tidy_fallibleBind {β : Type} {x : TokenTask ε α} {f : α → TokenTask ε β}
    (hx : Tidy sha256 dir x) (hf : ∀ a, Tidy sha256 dir (f a)) :
    Tidy sha256 dir (x >>= f : TokenTask ε β) := by
  refine tidy_bind hx fun r => ?_
  cases r with
  | ok a => exact hf a
  | error e => exact tidy_ret _

theorem tidy_mapErr {ε' : Type} {f : ε → ε'} {x : TokenTask ε α} (hx : Tidy sha256 dir x) :
    Tidy sha256 dir (x.mapErr f) := tidy_bind hx fun _ => tidy_ret _

/-- What a scope asks for, one exchange after the other. -/
theorem emits_fallibleBind {β : Type} {Φ : TokenEffect → Prop} {e : TokenEffect}
    {g : e.Res → Except SqlxError α} {f : SqlxError → ε} {k : α → TokenTask ε β} (he : Φ e)
    (hk : ∀ a, Prog.Emits Φ (k a)) :
    Prog.Emits Φ ((Fallible.ask e g : TokenTask SqlxError α).mapErr f >>= k : TokenTask ε β) :=
  Fallible.emits_bind (Fallible.emits_mapErr (Fallible.emits_ask he)) hk

/-! ## The calls -/

section Emits

variable {Φ : TokenEffect → Prop}

theorem emits_withTokenTx {f : SqlxError → ε} {scope : RegistryTx → TokenTask ε α}
    (hreads : ∀ e, TokenReads e → Φ e) (hscope : ∀ tx, Prog.Emits Φ (scope tx)) :
    Prog.Emits Φ (withTokenTx f scope) := by
  refine ⟨hreads _ trivial, fun r => ?_⟩
  cases r with
  | error e => trivial
  | ok tx => exact Prog.Emits.bind (hscope tx) fun _ => ⟨hreads _ trivial, fun _ => trivial⟩

/-- What a call asks for: only `create` inserts, and only for its user. -/
theorem TokenCall.emits (hreads : ∀ e, TokenReads e → Φ e)
    (hdelete : ∀ tx id u, Φ (.deleteApiTokenForUser tx id u)) (κ : TokenCall)
    (hcreate : ∀ service u name, κ = .create service u name →
      ∀ tx name tokenHash, Φ (.createApiToken tx u name tokenHash)) (l : TokenLocal) :
    (κ.body sha256 l).Emits Φ := by
  cases κ with
  | create service userId name =>
    refine Prog.Emits.bind (Fallible.emits_bind (Fallible.emits_ask (hreads _ trivial))
      fun plaintext => emits_withTokenTx hreads fun tx => ?_) fun _ => trivial
    refine emits_fallibleBind (hreads _ trivial) fun existing => ?_
    split
    · trivial
    · exact emits_fallibleBind (hcreate service userId name rfl tx _ _) fun token =>
        emits_fallibleBind (hreads _ trivial) fun _ => trivial
  | listForUser userId =>
    exact Prog.Emits.bind (emits_withTokenTx hreads fun tx =>
      emits_fallibleBind (hreads _ trivial) fun _ => emits_fallibleBind (hreads _ trivial)
        fun _ => trivial) fun _ => trivial
  | revoke tokenId userId =>
    refine Prog.Emits.bind (emits_withTokenTx hreads fun tx =>
      emits_fallibleBind (hdelete tx tokenId userId) fun deleted =>
        emits_fallibleBind (hreads _ trivial) fun _ => ?_) fun _ => trivial
    split <;> trivial
  | authenticateBearer authHeader =>
    refine Prog.Emits.bind ?_ fun _ => trivial
    unfold Tachikoma.authenticateBearer
    split
    · trivial
    refine Fallible.emits_bind (Fallible.emits_mapErr (emits_withTokenTx hreads fun tx =>
      emits_fallibleBind (hreads _ trivial) fun _ => emits_fallibleBind (hreads _ trivial)
        fun _ => trivial)) fun userId => ?_
    split
    · trivial
    refine Fallible.emits_bind (emits_withTokenTx hreads fun _ => Fallible.emits_mapErr
      (Fallible.emits_ask (hreads _ trivial))) fun user => ?_
    split
    · trivial
    refine Fallible.emits_bind (Fallible.emits_ask (hreads _ trivial)) fun info => ?_
    split <;> trivial

end Emits

theorem tidy_create (self : ApiTokensService) (userId : UserId) (name : Option String) :
    Tidy sha256 dir (self.create sha256 userId name) := by
  refine tidy_fallibleBind (tidy_of_reads (Fallible.emits_ask trivial)) fun plaintext => ?_
  refine tidy_withTokenTx fun tx => emits_fallibleBind trivial fun existing => ?_
  split
  · trivial
  · exact emits_fallibleBind rfl fun token => emits_fallibleBind trivial fun _ => trivial

theorem tidy_listForUser (userId : UserId) :
    Tidy sha256 dir (ApiTokensService.listForUser userId) :=
  tidy_withTokenTx fun _ => emits_fallibleBind trivial fun _ => emits_fallibleBind trivial
    fun _ => trivial

theorem tidy_findUserIdByPlaintext (plaintext : String) :
    Tidy sha256 dir (ApiTokensService.findUserIdByPlaintext sha256 plaintext) :=
  tidy_withTokenTx fun _ => emits_fallibleBind trivial fun _ => emits_fallibleBind trivial
    fun _ => trivial

theorem tidy_revoke (tokenId : ApiTokenId) (userId : UserId) :
    Tidy sha256 dir (ApiTokensService.revoke tokenId userId) := by
  refine tidy_withTokenTx fun tx => emits_fallibleBind rfl fun deleted =>
    emits_fallibleBind trivial fun _ => ?_
  split <;> trivial

theorem tidy_authenticateBearer (authHeader : Option (List UInt8)) :
    Tidy sha256 dir (authenticateBearer sha256 authHeader) := by
  unfold authenticateBearer
  split
  · exact tidy_ret _
  refine tidy_fallibleBind (tidy_mapErr (tidy_findUserIdByPlaintext _)) fun userId => ?_
  split
  · exact tidy_ret _
  refine tidy_fallibleBind (tidy_withTokenTx fun _ => Fallible.emits_mapErr
    (Fallible.emits_ask trivial)) fun user => ?_
  split
  · exact tidy_ret _
  refine tidy_fallibleBind (tidy_of_reads (Fallible.emits_ask trivial)) fun info => ?_
  split <;> exact tidy_ret _

/-- **A task between two calls has no token pending.** -/
theorem TokenCall.tidy (κ : TokenCall) (l : TokenLocal) : Tidy sha256 dir (κ.body sha256 l) := by
  cases κ with
  | create service userId name =>
      exact tidy_bind (tidy_create service userId name) fun _ => tidy_ret _
  | listForUser userId => exact tidy_bind (tidy_listForUser userId) fun _ => tidy_ret _
  | revoke tokenId userId => exact tidy_bind (tidy_revoke tokenId userId) fun _ => tidy_ret _
  | authenticateBearer authHeader =>
    exact tidy_bind (tidy_authenticateBearer authHeader) fun _ => tidy_ret _

end Tachikoma
