import Tachikoma.Lib.Drain
import Tachikoma.Proof.Atomic

/-!
# The server comes to rest

A statement that writes waits while another transaction has the row, so the tasks could wait for one
another for ever. They do not: an entry writes once (`transactions`), and so who waits for a row
holds none. From every configuration that the server reaches, whatever has failed before and whoever
was stopped where, there is a way on which nothing fails and nobody starts anything new, and which
ends with every task idle and every row free.

A statement has all of its rows at once here. That two updates of several rows may lock them in
different orders, and one of them be ended by the database, is an error of that statement.
-/

set_option autoImplicit false

namespace Tachikoma

open Interleaving Versioned

/-- An effect that goes well; nobody starts anything. -/
def Unhindered (_ : ServerHistory) : ServerEvent → Prop
  | .called .. => False
  | .did p _ e r before after =>
      ∃ env : Env, env.fails = false ∧ act p e env before = some (r, after)

/-! ## Who does not wait -/

/-- Only a statement that writes can have to wait. -/
theorem exists_act_of_ne_execute {e : Effect} (he : ∀ tx x, e ≠ .execute tx x) (p : Pid)
    (w : World) : ∃ r w', act p e {} w = some (r, w') := by
  cases e with
  | execute tx x => exact absurd rfl (he tx x)
  | _ => exact ⟨_, _, rfl⟩

/-- The tables are at rest if nobody has anything pending. -/
theorem still_of_clean {w : World} (h : ∀ p, Clean p w) :
    w.db.hosts.Still ∧ w.db.users.Still := by
  constructor
  · intro k x v hv
    exact (h x.pid).hosts k x v hv rfl
  · intro k x v hv
    exact (h x.pid).users k x v hv rfl

theorem exists_insertUser {db : Db} (hstill : db.users.Still) (x : TxId) (uuid dn : String)
    (tgHandle : Option String) (email : String) :
    ∃ r, db.insertUser x uuid dn tgHandle email = some r := by
  have hfree : ¬ (db.users.cells.any fun c => c.2.locked x && Db.clashes dn uuid c.2) = true := by
    rw [List.any_eq_true]
    intro hany
    obtain ⟨⟨k, c⟩, hc, hl⟩ := hany
    have hcell : c.locked x = false := by
      rw [← Table.cell_of_mem hc]
      exact hstill.not_locked x k
    rw [hcell] at hl
    cases hl
  unfold Db.insertUser
  simp only [if_neg hfree]
  split
  · exact ⟨_, rfl⟩
  · split
    · exact ⟨_, rfl⟩
    · exact ⟨_, rfl⟩

/-- A statement runs on tables that are at rest. -/
theorem exists_execute {db : Db} (hhosts : db.hosts.Still) (husers : db.users.Still) (x : TxId)
    (uuid : String) (y : Write) : ∃ r, db.execute x uuid y = some r := by
  cases y with
  | hosts y =>
    obtain ⟨t, ht⟩ := Table.exists_update (fun k => hhosts.not_locked x k) y.sel y.set
    show ∃ r, db.updateHosts x y = some r
    unfold Db.updateHosts
    split
    · exact ⟨_, rfl⟩
    · exact ⟨_, Option.map_eq_some_iff.mpr ⟨t, ht, rfl⟩⟩
  | setUserTgHandle u tgHandle =>
    obtain ⟨t, ht⟩ := Table.exists_update (fun k => husers.not_locked x k) (fun id _ => id = u)
      fun r => { r with tgHandle := some tgHandle }
    exact ⟨_, Option.map_eq_some_iff.mpr ⟨t, ht, rfl⟩⟩
  | addUser dn tgHandle email => exact exists_insertUser husers x uuid dn tgHandle email

theorem exists_act_of_still {w : World} (hhosts : w.db.hosts.Still) (husers : w.db.users.Still)
    (p : Pid) (e : Effect) : ∃ r w', act p e {} w = some (r, w') := by
  by_cases he : ∃ tx x, e = .execute tx x
  · obtain ⟨tx, x, rfl⟩ := he
    obtain ⟨r, hr⟩ := exists_execute hhosts husers ⟨p, tx.no⟩ "" x
    exact ⟨r.1, { w with db := r.2 }, Option.map_eq_some_iff.mpr ⟨r, hr, rfl⟩⟩
  · exact exists_act_of_ne_execute (fun tx x he' => he ⟨tx, x, he'⟩) p w

/-! ## All tasks -/

section Runs

variable {cfg : ServerConfig} {p : Pid} {n : Nat} {κ : Entry} {h : ServerHistory}

theorem exists_act {e : Effect} (hact : ∃ r w', act p e {} h.state = some (r, w')) :
    ∃ env r w', (server cfg).act p e env h.state = some (r, w') ∧
      Unhindered h (.did p n e r h.state w') := by
  obtain ⟨r, w', hact⟩ := hact
  exact ⟨{}, r, w', hact, {}, rfl, hact⟩

theorem server_drainable : (server cfg).Drainable Unhindered transactions
    (fun p h => Clean p h.state ∧ Uncalled p h) (fun p n κ s => s.Means cfg p n κ) (Entry.Ends cfg)
    Clean where
  idle := fun hz => hz.1
  ended := fun hs hends => hs.clean_of_ends hends
  others := fun hact hq hclean => (acts_of_act hact).clean_of_ne (Ne.symm hq) hclean
  holds := by
    intro p n κ s h e hs hallows hheld
    rcases hs.clean_or_wrote with hclean | ⟨tx, x, rfl⟩
    · exact absurd hclean hheld
    · exact exists_act (exists_act_of_ne_execute (fun tx' x' he => by subst he; exact hallows) p _)
  alone := by
    intro p n κ s h e hs hallows hothers
    rcases hs.clean_or_wrote with hclean | ⟨tx, x, rfl⟩
    · have hall : ∀ q, Clean q h.state := by
        intro q
        by_cases hq : q = p
        · exact hq ▸ hclean
        · exact hothers q hq
      obtain ⟨hhosts, husers⟩ := still_of_clean hall
      exact exists_act (exists_act_of_still hhosts husers p e)
    · exact exists_act (exists_act_of_ne_execute (fun tx' x' he => by subst he; exact hallows) p _)

/-- **The server comes to rest** from wherever it has come to: nobody waits for ever. -/
theorem rest_of_run {Cond : ServerHistory → ServerEvent → Prop} {t : Tables} {timer : ReleaseTimer}
    {c : Server} (hrun : (server cfg).Run Cond (t.serverWith timer) c) :
    ∃ c', (server cfg).Run Unhindered c c' ∧ (∀ p, ∃ l, (c'.threads p).prog = .ret l) ∧
      c'.hist.state.db.hosts.Still ∧ c'.hist.state.db.users.Still := by
  have hidle₀ : ∀ p, ∃ l, ((t.serverWith timer).threads p).prog = .ret l := by
    intro p
    cases p with
    | timer => exact ⟨_, rfl⟩
    | task i => exact ⟨_, rfl⟩
  have hstaged : ∀ c', (server cfg).Run Unhindered c c' → ∀ p, Staged cfg c' p := by
    intro c' hrun'
    have hany : (server cfg).Run (fun _ _ => True) (t.serverWith timer) c' :=
      (hrun.mono _ fun _ _ _ => trivial).trans _ (hrun'.mono _ fun _ _ _ => trivial)
    exact (atomic_of_run hany).2
  obtain ⟨c', hrun', hidle, hclean⟩ := server_drainable.drain hrun hidle₀ hstaged
  exact ⟨c', hrun', hidle, still_of_clean hclean⟩

/-- `bob` waits for a host that `alice` is giving back, and she is stopped before her commit. -/
theorem rest_of_run_small : ∃ c, (server smallConfig).Run (Machine.Calling Entry.proper)
      ((small (some (true, 5))).serverWith .new) c ∧
    (¬ ∃ r w', act (.task 2) (.execute ⟨1⟩ (.hosts (.leaseHosts bob.id [⟨1⟩] 9))) {}
      c.hist.state = some (r, w')) ∧
    ∃ c', (server smallConfig).Run Unhindered c c' ∧ (∀ p, ∃ l, (c'.threads p).prog = .ret l) ∧
      c'.hist.state.db.hosts.Still ∧ c'.hist.state.db.users.Still := by
  obtain ⟨c, hrun, hc⟩ := (server smallConfig).exists_run_of_exec (Machine.Calling Entry.proper)
    ((small (some (true, 5))).serverWith .new)
    (List.flatten [[.call (.task 1) (.request aliceUser .apiReleaseAll),
      .call (.task 2) (.request bobUser (.apiLeaseRandom randomBody))],
      acting (.task 1) 2, acting (.task 2) 1])
    (fun c => (act (.task 2) (.execute ⟨1⟩ (.hosts (.leaseHosts bob.id [⟨1⟩] 9))) {}
      c.hist.state).isNone) (by decide +kernel)
  refine ⟨c, hrun, fun h => ?_, rest_of_run hrun⟩
  obtain ⟨r, w', h⟩ := h
  rw [h] at hc
  cases hc

end Runs

end Tachikoma
