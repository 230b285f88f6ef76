import Tachikoma.Proof.Extension

/-!
# Extending a lease that is over

`extend_user_hosts` adds its hours to the old deadline, however long ago that was, while the timer
frees whatever has a deadline before now. A lease that is reported as extended is therefore alive
exactly if every lease of the user that expires soon, or is over, is over by **less than the hours**
that are added.
-/

set_option autoImplicit false

namespace Tachikoma

open Interleaving Versioned

variable {p : Pid} {s : Setting} {w w' w₁ : World}

/-! ## A release pass that runs alone -/

/-- The hosts whose lease is not over at `now` are as they were. -/
def Spares (now : Time) (w w' : World) : Prop :=
  ∀ id r, w.host id = some r → expiresBefore now r = false → w'.host id = some r

theorem SameHosts.spares {now : Time} (h : SameHosts w w') : Spares now w w' :=
  fun id _ hr _ => (h id).trans hr

/-- Whatever the surroundings do, a pass frees only what is over. -/
theorem ReleaseTimer.records_release_spares (self : ReleaseTimer) {now : Time}
    (hclock : s.clock = some now) (hc : Clean p w) :
    self.release.Records s p w fun _ _ w' => Spares now w w' := by
  set w₀ : World := { w with nextTx := w.nextTx + 1 }
  have hbegun : Uncommitted p ⟨w.nextTx⟩ w w₀ := .begun hc _ _
  have hc₀ : Clean p w₀ := ⟨hc.hosts, hc.users⟩
  refine Task.records_withTx ?_ fun _ => fun _ _ hr _ => hr
  refine Task.records_bind (Task.records_utcNow fun now' hnow => ?_)
  obtain rfl : now' = now := hnow now hclock
  refine Task.records_bind (Task.records_mapErr (Task.records_fetch (fun order => ?_) fun _ =>
    hbegun.sameHosts_drop.spares))
  cases hrun : Select.run order (w₀.db.view ⟨p, w.nextTx⟩) (.getLeasedUntilHosts now') with
  | error e => exact hbegun.sameHosts_drop.spares
  | ok expiredHosts =>
    change List LeasedHost at expiredHosts
    dsimp only [Exit.ofExcept]
    refine Task.records_ite (fun _ => Task.records_pure (hbegun.sameHosts_drop.spares)) fun _ => ?_
    refine Task.records_bind (Task.records_mapErr (Task.records_execute
      (fun uuid a db hexecute => ?_) fun _ => hbegun.sameHosts_drop.spares))
    have hacts := @acts_of_updateHosts p _ ⟨w.nextTx⟩ _ _ _ hexecute
    have hupdated := hbegun.updateHosts hacts
    cases a with
    | error e => exact hupdated.sameHosts_drop.spares
    | ok a =>
      dsimp only [Exit.ofExcept]
      refine Task.records_bind (Task.records_mapErr (Task.records_commit ?_ fun _ =>
        hupdated.rollback.sameHosts_drop.spares))
      refine Task.records_bind (Task.records_hashOrder fun order' => Task.records_pure ?_)
      -- The update picks the ids that were read, and those are over at this time.
      intro id r hr hnot
      have hrow := (hupdated.commit.2 id).trans (hacts.view_updateHosts hc₀ id)
      refine hrow.trans ?_
      have hr₀ : w₀.host id = some r := hr
      have hsel : (HostWrite.freeHosts (expiredHosts.map (·.id))).sel id r = false := by
        refine decide_eq_false fun hid => ?_
        obtain ⟨l, hl, rfl⟩ := List.mem_map.mp hid
        obtain ⟨r', hr', hexp, -⟩ := (decoded_getLeasedUntilHosts hrun).sound l hl
        rw [hc₀.view ⟨w.nextTx⟩, hr₀] at hr'
        cases hr'
        rw [hexp] at hnot
        cases hnot
      rw [hr₀, Option.map_some, hsel]
      rfl

/-! ## Idle tasks -/

/-- Between its calls a task has nothing pending. -/
theorem clean_of_idle {t : Tables} {timer : ReleaseTimer} {c : System}
    (hrun : machine.Run (Machine.Calling proper) (t.systemWith timer) c) {l : Local}
    (hidle : (c.threads p).prog = .ret l) : Clean p c.hist.state :=
  (run_sound (fun _ => True) (fun p _ _ h => Clean p h.state) (fun _ _ hc => hc) trivial
    (fun p _ _ => t.world_clean p) (fun _ _ _ => stable_clean) (fun _ _ _ _ _ _ => trivial)
    (fun _ _ κ l _ => ⟨_, stable_clean, fun _ _ _ hc _ => hc, κ.sketch_clean l⟩) hrun).2 p l hidle

/-! ## Leases that were reported as extended -/

/-- The hosts of the answer are alive: their leases end after `now`, and no release pass that runs
    next, at `now`, frees one of them. -/
structure Alive (now : Time) (hosts : List Host) (w : World) : Prop where
  ahead : ∀ h ∈ hosts, ∃ d, h.leasedUntil = some d ∧ now < d
  spared : ∀ (self : ReleaseTimer) r w', Prog.Ends (actIn (.at now)) .timer self.release w r w' →
    ∀ h ∈ hosts, w'.host h.id = some h.toHostRow

/-- None of the leases that the press extends has been over for as many hours as it adds. -/
def InTime (u : UserId) (now : Time) (hours : Int32) (w : World) : Prop :=
  ∀ id r d, w.host id = some r → pressed u now r = true → r.leasedUntil = some d →
    now < d + TimeDelta.hours hours.toInt

/-- The hosts that the answer to a press lists: the user's, with the deadlines that they have
    now. -/
structure Answers (tgHandle : String) (hours : Int32) (now : Time) (w : World) (u : UserId)
    (lines : List Line) (hosts : List Host) (w' : World) : Prop where
  linked : ∃ row, w.user u = some row ∧ row.tgHandle = some tgHandle
  shown : lines = linesAt now 1 hosts
  mem : ∀ h, h ∈ hosts ↔ ∃ r, w.host h.id = some r ∧ pressed u now r = true ∧
    h.toHostRow = r.extended hours
  rows : ∀ h ∈ hosts, w'.host h.id = some h.toHostRow

/-- **When a lease that is reported as extended is alive.** -/
theorem Answers.alive_iff {tgHandle : String} {hours : Int32} {now : Time} {u : UserId}
    {lines : List Line} {hosts : List Host} (h : Answers tgHandle hours now w u lines hosts w')
    (hc : Clean .timer w') : Alive now hosts w' ↔ InTime u now hours w := by
  constructor
  · intro halive id r d hr hpressed hd
    obtain ⟨d', hd', hlt⟩ := halive.ahead { r.extended hours with id := id }
      ((h.mem _).mpr ⟨r, hr, hpressed, rfl⟩)
    have hsum : d + TimeDelta.hours hours.toInt = d' := by
      simpa [HostRow.extended, hd] using hd'
    rw [hsum]
    exact hlt
  · intro hintime
    have hahead : ∀ x ∈ hosts, ∃ d, x.leasedUntil = some d ∧ now < d := by
      intro x hx
      obtain ⟨r, hr, hpressed, hrow⟩ := (h.mem x).mp hx
      obtain ⟨d, hd, -⟩ := expiresBefore_iff.mp ((Bool.and_eq_true _ _).mp hpressed).2
      refine ⟨d + TimeDelta.hours hours.toInt, ?_, hintime x.id r d hr hpressed hd⟩
      rw [hrow]
      simp [HostRow.extended, hd]
    refine ⟨hahead, fun self r w'' hends x hx => ?_⟩
    obtain ⟨log, hlogs⟩ := Prog.exists_logs _ _ hends
    refine self.records_release_spares (s := .at now) rfl hc log r w'' hlogs x.id x.toHostRow
      (h.rows x hx) ?_
    obtain ⟨d, hd, hlt⟩ := hahead x hx
    have hnot : ¬ d < now := not_lt.mpr hlt.le
    simp [expiresBefore, hd, hnot]

/-- **A lease that is reported as extended is alive exactly if it was extended in time**: in every
    reachable state, for a task and a timer that are between two calls, whatever the other tasks are
    in the middle of. -/
theorem extended_alive_iff (t : Tables) (timer : ReleaseTimer) (c : System)
    (hrun : machine.Run (Machine.Calling proper) (t.systemWith timer) c) (i : Nat) (l l' : Local)
    (hidle : (c.threads (.task i)).prog = .ret l) (htimer : (c.threads .timer).prog = .ret l')
    (tgHandle : String) (hours : Int32) (now : Time) (lines : List Line) (w' : World)
    (hends : Prog.Ends (actIn (.at now)) (.task i) (extendUserHosts tgHandle hours) c.hist.state
      (.ok (.leaseExtended hours lines)) w') :
    ∃ u hosts, Answers tgHandle hours now c.hist.state u lines hosts w' ∧
      (Alive now hosts w' ↔ InTime u now hours c.hist.state) := by
  obtain ⟨log, hlogs⟩ := Prog.exists_logs _ _ hends
  obtain ⟨hpress, hover⟩ := records_extendUserHosts (s := .at now) tgHandle hours rfl
    (clean_of_idle hrun hidle) log _ w' hlogs
  have hclean : Clean .timer w' := hover.others .timer nofun (clean_of_idle hrun htimer)
  cases hpress with
  | extended w' u row hosts huser hcarries hextends hlisted =>
    have hlists : Answers tgHandle hours now c.hist.state u (linesAt now 1 hosts) hosts w' := by
      refine ⟨⟨row, huser, hcarries⟩, rfl, hlisted, fun h hh => ?_⟩
      obtain ⟨r, hr, hpressed, hrow⟩ := (hlisted h).mp hh
      rw [hextends, hr, Option.map_some, if_pos hpressed, hrow]
    exact ⟨u, hosts, hlists, hlists.alive_iff hclean⟩

/-- `alice`'s lease has half an hour to go, and she extends it by an hour. -/
theorem extended_alive_iff_alice : ∃ lines w',
    Prog.Ends (actIn (.at 5)) (.task 0) (extendUserHosts "7" 1)
        (small (some (true, 1800000004))).world (.ok (.leaseExtended 1 lines)) w' ∧
      ∃ u hosts, Answers "7" 1 5 (small (some (true, 1800000004))).world u lines hosts w' ∧
        (Alive 5 hosts w' ↔ InTime u 5 1 (small (some (true, 1800000004))).world) := by
  obtain ⟨r, w', hends, hr⟩ := Prog.exists_ends_of_exec (actIn (.at 5)) (.task 0)
    (x := extendUserHosts "7" 1) (s := (small (some (true, 1800000004))).world)
    (List.replicate 9 { time := 5 })
    (fun r => r == .ok (.leaseExtended 1 [⟨1, "host1", ⟨false, 1, 32⟩, some 89⟩]))
    (by decide +kernel)
  obtain rfl := eq_of_beq hr
  exact ⟨_, w', hends, extended_alive_iff (small (some (true, 1800000004))) .new
    ((small (some (true, 1800000004))).systemWith .new) .refl 0 .idle (.timer .new) rfl rfl
    "7" 1 5 _ w' hends⟩

/-- The timer was down for three hours. `alice` extends a lease that ended two hours ago by one, the
    answer says so, and the next pass takes the host away. -/
theorem not_extended_alive : ∃ r w' r' w'',
    Prog.Ends (actIn (.at 7200000005)) (.task 0) (extendUserHosts "7" 1)
        (small (some (true, 5))).world r w' ∧
      Prog.Ends (actIn (.at 7200000005)) .timer ReleaseTimer.new.release w' r' w'' ∧
      r = .ok (.leaseExtended 1 [⟨1, "host1", ⟨false, 1, 32⟩, some (-60)⟩]) ∧
      w'.host ⟨1⟩ = some (host1 (some (true, 3600000005))).toHostRow ∧
      w''.host ⟨1⟩ = some (host1 none).toHostRow := by
  have hexec : ((Prog.exec (actIn (.at 7200000005)) (.task 0) (extendUserHosts "7" 1)
      (List.replicate 9 { time := 7200000005 }) (small (some (true, 5))).world).bind fun x =>
        (Prog.exec (actIn (.at 7200000005)) .timer ReleaseTimer.new.release
          (List.replicate 7 { time := 7200000005 }) x.2).map fun y => (x, y)).any (fun z =>
            z.1.1 == .ok (.leaseExtended 1 [⟨1, "host1", ⟨false, 1, 32⟩, some (-60)⟩]) &&
              z.1.2.host ⟨1⟩ == some (host1 (some (true, 3600000005))).toHostRow &&
              z.2.2.host ⟨1⟩ == some (host1 none).toHostRow) = true := by
    decide +kernel
  obtain ⟨⟨⟨r, w'⟩, r', w''⟩, hz, htest⟩ := (Option.any_eq_true _ _).mp hexec
  obtain ⟨⟨r₁, w₁⟩, hfirst, hsecond⟩ := Option.bind_eq_some_iff.mp hz
  obtain ⟨⟨r₂, w₂⟩, hpass, heq⟩ := Option.map_eq_some_iff.mp hsecond
  obtain ⟨hfst, hsnd⟩ := Prod.mk.inj heq
  obtain ⟨rfl, rfl⟩ := Prod.mk.inj hfst
  obtain ⟨rfl, rfl⟩ := Prod.mk.inj hsnd
  simp only [Bool.and_eq_true, beq_iff_eq] at htest
  exact ⟨_, _, _, _, Prog.ends_of_exec _ _ hfirst, Prog.ends_of_exec _ _ hpass, htest.1.1,
    htest.1.2, htest.2⟩

end Tachikoma
