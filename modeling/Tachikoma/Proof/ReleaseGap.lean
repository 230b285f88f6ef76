import Tachikoma.Proof.Gap

/-!
# The timer frees what it has read as expired

`release` reads which hosts have expired and frees them by id. What it frees has expired, as long
as no host it is about to free was renewed in between (`NoneRenewed`); a lease that was extended or
newly granted in the gap is lost.
-/

set_option autoImplicit false

namespace Tachikoma

open Interleaving

/-- An update by which the timer freed hosts: the pass and its transaction, the ids, and the world
    that the update found. -/
structure Freeing where
  call : Nat
  tx : TxId
  ids : List HostId
  before : World

def freeing : Ev → Option Freeing
  | .did .timer n (.execute tx (.hosts (.freeHosts ids))) (.ok ()) w _ =>
    some ⟨n, ⟨.timer, tx.no⟩, ids, w⟩
  | _ => none

/-- What the timer's `n`-th call read from the clock. -/
def clock (n : Nat) : Ev → Option Time
  | .did .timer m .now now _ _ => if m = n then some now else none
  | _ => none

/-- Whatever the timer's updates hit had a deadline before the `now` that the same pass had read. -/
def FreesExpired (tr : Trace) : Prop :=
  ∀ f ∈ tr.filterMap freeing, ∃ now ∈ tr.filterMap (clock f.call), ∀ id ∈ f.ids,
    ((f.before.db.hosts.cell id).view f.tx).all (expiresBefore now) = true

instance (tr : Trace) : Decidable (FreesExpired tr) := by
  unfold FreesExpired
  infer_instance

theorem FreesExpired.push {h : History} {ev : Ev} (hf : FreesExpired h.trace)
    (hev : freeing ev = none) : FreesExpired (h.push ev).trace := by
  intro f hmem
  rw [filterMap_push hev] at hmem
  obtain ⟨now, hnow, hrows⟩ := hf f hmem
  exact ⟨now, mem_filterMap_push hnow, hrows⟩

theorem freeing_of_writes {n : Nat} {W : Write → Prop} {e : Effect} {r : e.Res} {w w' : World}
    (he : Writes W e) (hW : ∀ ids, ¬ W (.hosts (.freeHosts ids))) :
    freeing (.did .timer n e r w w') = none := by
  unfold freeing
  split
  · rename_i heq
    cases heq
    exact absurd (he _ _ rfl) (hW _)
  · rfl

/-- When the timer frees hosts, the ones that were committed to since it read them as expired still
    are. -/
def NoneRenewed (h : History) (ev : Ev) : Prop :=
  ∀ f ∈ freeing ev, ∀ id ∈ f.ids, ∀ r ∈ committedSince isTimerQuery id h.trace,
    ∀ now ∈ h.trace.findSome? timerQuery, expiresBefore now r = true

instance (h : History) (ev : Ev) : Decidable (NoneRenewed h ev) := by
  unfold NoneRenewed
  infer_instance

/-- The steps of runs in which the timer's gap is harmless. -/
def ReleaseCond (h : History) (ev : Ev) : Prop := Machine.Calling proper h ev ∧ NoneRenewed h ev

instance (h : History) (ev : Ev) : Decidable (ReleaseCond h ev) :=
  inferInstanceAs (Decidable (_ ∧ _))

/-- Between the timer's read at `now` and its update. -/
structure ReadExpired (n : Nat) (now : Time) (expired : List LeasedHost) (h : History) : Prop where
  clean : Clean .timer h.state
  clock : now ∈ h.trace.filterMap (clock n)
  query : h.trace.findSome? timerQuery = some now
  rows : ∀ l ∈ expired, Tracked isTimerQuery (fun r => expiresBefore now r = true) l.id h

theorem ReadExpired.stable {Cond : History → Ev → Prop} {Inv : History → Prop} {n : Nat}
    {now : Time} {expired : List LeasedHost} :
    machine.Stable Cond Inv .timer (ReadExpired n now expired) := by
  intro h ev hI hA hne hl hc
  refine ⟨stable_clean h ev hI hA.clean hne hl hc, mem_filterMap_push hA.clock, ?_, fun l hl' => ?_⟩
  · rw [Hist.push_trace, List.findSome?_cons, timerQuery_of_ne hne]
    exact hA.query
  · exact Tracked.stable (fun _ => pid_of_isTimerQuery) h ev hI (hA.rows l hl') hne hl hc

/-- The update that frees what was read. -/
theorem ReadExpired.frees {n : Nat} {now : Time} {expired : List LeasedHost} {h : History}
    (hA : ReadExpired n now expired h) (hI : FreesExpired h.trace) {tx : RegistryTx} {w' : World}
    (hc : NoneRenewed h
      (.did .timer n (.execute tx (.hosts (.freeHosts (expired.map (·.id))))) (.ok ()) h.state
        w')) :
    FreesExpired (h.push (.did .timer n
      (.execute tx (.hosts (.freeHosts (expired.map (·.id))))) (.ok ()) h.state w')).trace := by
  intro f hmem
  rcases mem_filterMap_push_iff.mp hmem with heq | hmem
  · cases heq
    refine ⟨now, mem_filterMap_push hA.clock, fun id hid => ?_⟩
    obtain ⟨l, hl, rfl⟩ := List.mem_map.mp hid
    rw [Option.all_eq_true]
    intro row hrow
    rw [hA.clean.view] at hrow
    rcases hA.rows l hl row hrow with hsince | ⟨_, hexp⟩
    · exact hc _ rfl l.id (List.mem_map_of_mem hl) row hsince now hA.query
    · exact hexp
  · obtain ⟨now', hnow, hrows⟩ := hI f hmem
    exact ⟨now', mem_filterMap_push hnow, hrows⟩

theorem release_sketch (self : ReleaseTimer) (n : Nat) :
    machine.Sketch ReleaseCond (fun h => FreesExpired h.trace) .timer n (fun _ _ => True)
      self.release fun h => Clean .timer h.state := by
  refine Task.sketch_withTx (fun _ h => Clean .timer h.state) (fun _ _ _ => True)
    (fun _ => stable_clean) (fun _ => .true) ?_ ?_ ?_ ?_
  · intro h tx w' hI hc ha _
    exact ⟨hI.push rfl, ha.clean (by simp) hc⟩
  · intro h err w' hI _ _ _
    exact ⟨hI.push rfl, trivial⟩
  · intro tx
    refine sketch_of_onOk (Q := fun _ _ => True) (Task.sketch_bind (B := fun now h =>
      Clean .timer h.state ∧ now ∈ h.trace.filterMap (clock n)) ?_ fun now => ?_)
    · refine Task.sketch_utcNow (fun now => stable_clean.and stable_mem_filterMap) ?_
      intro h now hI hc _
      exact ⟨hI.push rfl, hc, mem_filterMap_push_iff.mpr (.inl (if_pos rfl))⟩
    -- From its read on the pass tracks the hosts: each was over at the time it had asked for.
    refine Task.sketch_bind (B := fun expired h => ReadExpired n now (expired : List LeasedHost) h)
      (Task.sketch_mapErr ?_) fun expired => ?_
    · refine Task.sketch_fetch (fun _ => ReadExpired.stable) .true ?_ ?_
      · intro h order expired hI hA hrun _
        obtain ⟨hclean, hclock⟩ := hA
        have hdec := decoded_getLeasedUntilHosts hrun
        refine ⟨hI.push rfl, hclean, mem_filterMap_push hclock, rfl,
          fun l hl => tracked_of_mark rfl ?_⟩
        intro row hrow
        obtain ⟨r, hr, hexp, -⟩ := hdec.sound l hl
        rw [hclean.view, hrow] at hr
        cases hr
        exact hexp
      · intro h err hI _ _
        exact ⟨hI.push rfl, trivial⟩
    · split
      · exact Task.sketch_pure fun _ _ _ => trivial
      · refine Task.sketch_bind (B := fun _ _ => True) (Task.sketch_mapErr ?_) fun _ =>
          sketch_onOk ?_
        · refine Task.sketch_execute (fun _ => .true) .true ?_ ?_
          · intro h a w' hI hA _ hc
            cases a
            exact ⟨hA.frees hI hc.2, trivial⟩
          · intro h err w' hI _ _ _
            exact ⟨hI.push rfl, trivial⟩
        -- After the update nothing is written any more.
        · refine sketch_silent (writes_of_writesIn <|
            Task.emits_bind (Task.emits_mapErr emits_commit_in) fun _ =>
              Task.emits_bind emits_hashOrder_in fun _ => Task.emits_pure _) ?_
          exact fun h e env r w' he hI _ _ => hI.push (freeing_of_writes he fun _ hf => hf)
  · intro tx r h w' hI _ _ _
    exact ⟨hI.push rfl, trivial⟩

/-- **The timer frees what has expired**, in every run whose gaps are harmless: whatever an update
    of `release` hits still has a deadline before the time that this pass read from the clock. -/
theorem freesExpired_of_run (t : Tables) (timer : ReleaseTimer) {c : System}
    (hrun : machine.Run ReleaseCond (t.systemWith timer) c) : FreesExpired c.hist.trace := by
  refine run_of_sketches (fun h => FreesExpired h.trace) (fun _ _ hc => hc.1) nofun
    (fun h p n κ hI => hI.push rfl) ?_ hrun
  intro p n κ l hok
  cases p with
  | task i => exact sketch_rest (emits_true _) fun h e env r w' _ hI _ _ => hI.push rfl
  | timer =>
    -- The passes that announce something write nothing.
    have hsilent : (∀ x, ¬ κ.writes x) → machine.Sketch ReleaseCond
        (fun h => FreesExpired h.trace) .timer n (fun _ _ => True) (κ.body l)
        fun h => Clean .timer h.state := fun hw =>
      sketch_rest (κ.emits l) fun h e env r w' he hI _ _ =>
        hI.push (freeing_of_writes he fun _ => hw _)
    cases κ with
    | release =>
      rcases Call.body_cases .release l with hb | hb
      · rw [hb]; exact fun _ _ _ => trivial
      · rw [hb]
        exact .bind (release_sketch _ n) fun _ _ _ _ => trivial
    | notifyReleasedHosts => exact hsilent fun _ hx => hx
    | notifySoonRelease => exact hsilent fun _ hx => hx
    | _ => cases hok

/-- `bob`'s lease has ended, `bob`'s host is freed, and `alice` leases it a moment later. -/
theorem freesExpired_of_run_small : ∃ c,
    machine.Run ReleaseCond ((small (some (false, 5))).systemWith .new) c ∧
      FreesExpired c.hist.trace := by
  obtain ⟨c, hrun, -⟩ := machine.exists_run_of_exec ReleaseCond
    ((small (some (false, 5))).systemWith .new)
    [.call .timer .release, .act .timer {}, .act .timer { time := 9 }, .act .timer {},
      .act .timer {}, .act .timer {}, .call (.task 0) (.lease ⟨3⟩ alice.id [] [⟨1⟩] 100),
      .act (.task 0) {}, .act (.task 0) {}, .act (.task 0) {}, .act (.task 0) { time := 9 },
      .act (.task 0) {}, .act (.task 0) {}, .act (.task 0) {}]
    (fun c => c.hist.state.host ⟨1⟩ == some (host1 (some (true, 109))).toHostRow)
    (by decide +kernel)
  exact ⟨c, hrun, freesExpired_of_run _ _ hrun⟩

/-- `alice`'s lease has ended when the timer reads it; `alice` extends it before the timer frees
    what it has read. -/
theorem not_freesExpired : ∃ c,
    machine.Run (Machine.Calling proper) ((small (some (true, 5))).systemWith .new) c ∧
      ¬ FreesExpired c.hist.trace := by
  obtain ⟨c, hrun, hc⟩ := machine.exists_run_of_exec (Machine.Calling proper)
    ((small (some (true, 5))).systemWith .new)
    [.call .timer .release, .act .timer {}, .act .timer { time := 9 }, .act .timer {},
      .call (.task 0) (.extendUserHosts "7" 1), .act (.task 0) {}, .act (.task 0) {},
      .act (.task 0) { time := 9 }, .act (.task 0) {}, .act (.task 0) {}, .act (.task 0) {},
      .act (.task 0) {}, .act .timer {}, .act .timer {}]
    (fun c => decide (¬ FreesExpired c.hist.trace)) (by decide +kernel)
  exact ⟨c, hrun, of_decide_eq_true hc⟩

end Tachikoma
