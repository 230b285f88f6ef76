import Tachikoma.Proof.Extension
import Tachikoma.Proof.Settled

/-!
# Repeated presses of the extend button

Presses of one user's button, one after another, any number of them and at any times. What keeps
them from stacking is a single fact: a lease that was extended while it ran ends **an hour or more**
after the press, and the presses of the next half hour look half an hour ahead (`late_of_chain`).
-/

set_option autoImplicit false

namespace Tachikoma

open Interleaving

/-- A press, from the world it found to the one it left. The clock stands still while it runs. -/
structure Press where
  pid : Pid
  now : Time
  hours : Int32
  result : Exit AnyError Extended
  before : World
  after : World

/-- The press is a run of `extend_user_hosts` with nobody else running; anything may fail. -/
def Press.Runs (tgHandle : String) (x : Press) : Prop :=
  Prog.Ends (actIn (.at x.now)) x.pid (extendUserHosts tgHandle x.hours) x.before x.result x.after

/-- Presses, one after the other. -/
def Chain (tgHandle : String) : World → List Press → World → Prop
  | w, [], w' => w' = w
  | w, x :: xs, w' => x.before = w ∧ x.Runs tgHandle ∧ Chain tgHandle x.after xs w'

/-- What the presses of the user `u` have come to, from the world `w` to the world `w'`. -/
structure NoStacking (u : UserId) (w : World) (xs : List Press) (w' : World) : Prop where
  /-- A lease that had not ended when a press extended it is left alone by the presses of the next
      half hour. -/
  once : xs.Pairwise fun x y => y.now ≤ x.now + EXPIRATION_NOTIFY_WINDOW → ∀ id r d,
    x.before.host id = some r → r.leasedUntil = some d → x.now ≤ d →
      x.after.host id ≠ x.before.host id → y.after.host id = y.before.host id
  /-- A deadline is at most what it was, or what one of the presses could make of it. -/
  bounded : ∀ id r' d', w'.host id = some r' → r'.leasedUntil = some d' →
    ∃ r d, w.host id = some r ∧ r.leasedUntil = some d ∧
      (d' ≤ d ∨ ∃ x ∈ xs, d' ≤ x.now + EXPIRATION_NOTIFY_WINDOW + TimeDelta.hours x.hours.toInt)
  /-- Other users' hosts, and hosts with a later deadline or none, are left alone. -/
  untouched : ∀ x ∈ xs, ∀ id r, x.before.host id = some r →
    (r.userId ≠ some u ∨ ∀ d, r.leasedUntil = some d → x.now + EXPIRATION_NOTIFY_WINDOW ≤ d) →
      x.after.host id = some r
  /-- A press that reports no extension has changed nothing. -/
  reported : ∀ x ∈ xs, (∀ hours lines, x.result ≠ .ok (.leaseExtended hours lines)) →
    ∀ id, x.after.host id = x.before.host id
  users : ∀ x ∈ xs, ∀ id, x.after.user id = x.before.user id

/-! ## One press -/

/-- The row `r'` is the row `r`, or the row `r` with an extended lease. -/
def Stretched (u : UserId) (x : Press) (r r' : HostRow) : Prop :=
  r' = r ∨ pressed u x.now r = true ∧ r' = r.extended x.hours

theorem deadline_of_pressed {u : UserId} {now : Time} {r : HostRow} (h : pressed u now r = true) :
    r.userId = some u ∧ ∃ d, r.leasedUntil = some d ∧ d < now + EXPIRATION_NOTIFY_WINDOW := by
  obtain ⟨hheld, hexp⟩ := (Bool.and_eq_true _ _).mp h
  exact ⟨of_decide_eq_true hheld, expiresBefore_iff.mp hexp⟩

/-- A user that nobody shares a Telegram account with: the account leads to nobody else. -/
def OnlyUser (u : UserId) (tgHandle : String) (w : World) : Prop :=
  ∀ id row, w.user id = some row → row.tgHandle = some tgHandle → id = u

/-- What one press does, as a relation between the rows before and after. -/
structure Steps (u : UserId) (x : Press) : Prop where
  rows : ∀ id, ∃ f : HostRow → HostRow, x.after.host id = (x.before.host id).map f ∧
    ∀ r, Stretched u x r (f r)
  reported : (∀ hours lines, x.result ≠ .ok (.leaseExtended hours lines)) →
    ∀ id, x.after.host id = x.before.host id
  users : ∀ id, x.after.user id = x.before.user id
  clean : (∀ q, Clean q x.before) → ∀ q, Clean q x.after

theorem steps_of_runs {u : UserId} {tgHandle : String} {x : Press} (hruns : x.Runs tgHandle)
    (hclean : ∀ q, Clean q x.before) (honly : OnlyUser u tgHandle x.before) : Steps u x := by
  obtain ⟨log, hlogs⟩ := Prog.exists_logs (actIn (.at x.now)) x.pid hruns
  obtain ⟨hpress, hover⟩ := records_extendUserHosts (s := .at x.now) tgHandle x.hours rfl
    (hclean x.pid) log x.result x.after hlogs
  have hcleaned : (∀ q, Clean q x.before) → ∀ q, Clean q x.after := by
    intro hc q
    by_cases hq : q = x.pid
    · subst hq
      exact hover.clean
    · exact hover.others q hq (hc q)
  obtain ⟨pid, now, hours, result, before, after⟩ := x
  dsimp only at hpress
  have hsame : SameHosts before after → ∀ id, ∃ f : HostRow → HostRow,
      after.host id = (before.host id).map f ∧
        ∀ r, Stretched u ⟨pid, now, hours, result, before, after⟩ r (f r) := by
    intro h id
    exact ⟨fun r => r, by rw [Option.map_id']; exact h id, fun r => .inl rfl⟩
  -- By the answer: only a press that finds a host to extend changes a row.
  cases hpress with
  | failed e w' h => exact ⟨hsame h, fun _ => h, hover.users, hcleaned⟩
  | noExpiringHosts w' h => exact ⟨hsame h, fun _ => h, hover.users, hcleaned⟩
  | extended w' v row hosts huser hcarries hextends hlisted =>
    obtain rfl : v = u := honly v row huser hcarries
    refine ⟨fun id => ⟨_, hextends id, fun r => ?_⟩, fun hno => absurd rfl (hno _ _), hover.users,
      hcleaned⟩
    by_cases hpressed : pressed v now r = true
    · exact .inr ⟨hpressed, if_pos hpressed⟩
    · exact .inl (if_neg hpressed)

namespace Steps

variable {u : UserId} {x : Press} {id : HostId}

/-- No row comes or goes. -/
theorem exists_before (h : Steps u x) {r' : HostRow} (hr' : x.after.host id = some r') :
    ∃ r, x.before.host id = some r ∧ Stretched u x r r' := by
  obtain ⟨f, hf, hstretched⟩ := h.rows id
  rw [hf] at hr'
  obtain ⟨r, hr, rfl⟩ := Option.map_eq_some_iff.mp hr'
  exact ⟨r, hr, hstretched r⟩

theorem exists_after (h : Steps u x) {r : HostRow} (hr : x.before.host id = some r) :
    ∃ r', x.after.host id = some r' ∧ Stretched u x r r' := by
  obtain ⟨f, hf, hstretched⟩ := h.rows id
  exact ⟨f r, by rw [hf, hr]; rfl, hstretched r⟩

/-- A row that the press does not extend stays. -/
theorem untouched (h : Steps u x) {r : HostRow} (hr : x.before.host id = some r)
    (hno : r.userId ≠ some u ∨
      ∀ d, r.leasedUntil = some d → x.now + EXPIRATION_NOTIFY_WINDOW ≤ d) :
    x.after.host id = some r := by
  obtain ⟨r', hr', rfl | ⟨hpressed, -⟩⟩ := h.exists_after hr
  · exact hr'
  · obtain ⟨hheld, d, hd, hlt⟩ := deadline_of_pressed hpressed
    rcases hno with hother | hlate
    · exact absurd hheld hother
    · exact absurd hlt (not_lt.mpr (hlate d hd))

/-- A deadline is what it was, or within the hours of the press. -/
theorem bounded (h : Steps u x) {r' : HostRow} {d' : Time} (hr' : x.after.host id = some r')
    (hd' : r'.leasedUntil = some d') : ∃ r d, x.before.host id = some r ∧ r.leasedUntil = some d ∧
      (d' ≤ d ∨ d' ≤ x.now + EXPIRATION_NOTIFY_WINDOW + TimeDelta.hours x.hours.toInt) := by
  obtain ⟨r, hr, rfl | ⟨hpressed, rfl⟩⟩ := h.exists_before hr'
  · exact ⟨r', d', hr, hd', .inl le_rfl⟩
  · obtain ⟨-, d, hd, hlt⟩ := deadline_of_pressed hpressed
    refine ⟨r, d, hr, hd, .inr ?_⟩
    have hsum : d + TimeDelta.hours x.hours.toInt = d' := by
      simpa [HostRow.extended, hd] using hd'
    rw [← hsum]
    exact Int.add_le_add_right hlt.le _

end Steps

/-- The deadline of the host is `bound` or later, or there is none. -/
def Late (bound : Time) (id : HostId) (w : World) : Prop :=
  ∀ r, w.host id = some r → ∀ d, r.leasedUntil = some d → bound ≤ d

section Hours

variable {u : UserId} {x : Press} {id : HostId}

theorem one_hour_le {hours : Int32} (h : 1 ≤ hours) :
    TimeDelta.hours 1 ≤ TimeDelta.hours hours.toInt := by
  have hle : (1 : Int) ≤ hours.toInt := Int32.le_iff_toInt_le.mp h
  exact Int.mul_le_mul_of_nonneg_right hle (by decide)

/-- A press for an hour or more moves no deadline back. -/
theorem Steps.late (h : Steps u x) (hhours : 1 ≤ x.hours) {bound : Time}
    (hlate : Late bound id x.before) : Late bound id x.after := by
  intro r' hr' d' hd'
  obtain ⟨r, hr, rfl | ⟨hpressed, rfl⟩⟩ := h.exists_before hr'
  · exact hlate r' hr d' hd'
  · obtain ⟨-, d, hd, -⟩ := deadline_of_pressed hpressed
    have hsum : d + TimeDelta.hours x.hours.toInt = d' := by
      simpa [HostRow.extended, hd] using hd'
    have hnonneg : 0 ≤ TimeDelta.hours x.hours.toInt :=
      le_trans (by decide) (one_hour_le hhours)
    rw [← hsum]
    exact le_trans (hlate r hr d hd) (Int.le_add_of_nonneg_right hnonneg)

/-- A lease that the press extended while it ran goes on for an hour. -/
theorem Steps.late_of_ne (h : Steps u x) (hhours : 1 ≤ x.hours) {r : HostRow} {d : Time}
    (hr : x.before.host id = some r) (hd : r.leasedUntil = some d) (hnow : x.now ≤ d)
    (hne : x.after.host id ≠ x.before.host id) :
    Late (x.now + TimeDelta.hours 1) id x.after := by
  intro r' hr' d' hd'
  obtain ⟨r₀, hr₀, rfl | ⟨-, rfl⟩⟩ := h.exists_before hr'
  · exact absurd (hr'.trans hr₀.symm) hne
  · obtain rfl : r₀ = r := Option.some.inj (hr₀.symm.trans hr)
    have hsum : d + TimeDelta.hours x.hours.toInt = d' := by
      simpa [HostRow.extended, hd] using hd'
    rw [← hsum]
    exact Int.add_le_add hnow (one_hour_le hhours)

end Hours

/-! ## A chain of presses -/

section Chains

variable {u : UserId} {tgHandle : String} {w w' : World} {xs : List Press}

/-- Every press of a chain is a step. -/
theorem steps_of_chain (hchain : Chain tgHandle w xs w') (hclean : ∀ q, Clean q w)
    (honly : OnlyUser u tgHandle w) : ∀ x ∈ xs, Steps u x := by
  induction xs generalizing w with
  | nil => exact fun x hx => absurd hx List.not_mem_nil
  | cons x xs ih =>
    obtain ⟨rfl, hruns, hrest⟩ := hchain
    have hstep := steps_of_runs hruns hclean honly
    have honly' : OnlyUser u tgHandle x.after := by
      intro id row hrow
      rw [hstep.users] at hrow
      exact honly id row hrow
    intro y hy
    rcases List.mem_cons.mp hy with rfl | hy
    · exact hstep
    · exact ih hrest (hstep.clean hclean) honly' y hy

/-- Once late, always late: every press of the chain finds the host so. -/
theorem late_of_chain {bound : Time} {id : HostId} (hchain : Chain tgHandle w xs w')
    (hsteps : ∀ x ∈ xs, Steps u x) (hhours : ∀ x ∈ xs, 1 ≤ x.hours) (hlate : Late bound id w) :
    ∀ x ∈ xs, Late bound id x.before := by
  induction xs generalizing w with
  | nil => exact fun x hx => absurd hx List.not_mem_nil
  | cons x xs ih =>
    obtain ⟨rfl, -, hrest⟩ := hchain
    intro y hy
    rcases List.mem_cons.mp hy with rfl | hy
    · exact hlate
    · exact ih hrest (fun z hz => hsteps z (List.mem_cons_of_mem _ hz))
        (fun z hz => hhours z (List.mem_cons_of_mem _ hz))
        ((hsteps x List.mem_cons_self).late (hhours x List.mem_cons_self) hlate) y hy

theorem once_of_chain (hchain : Chain tgHandle w xs w') (hsteps : ∀ x ∈ xs, Steps u x)
    (hhours : ∀ x ∈ xs, 1 ≤ x.hours) :
    xs.Pairwise fun x y => y.now ≤ x.now + EXPIRATION_NOTIFY_WINDOW → ∀ id r d,
      x.before.host id = some r → r.leasedUntil = some d → x.now ≤ d →
        x.after.host id ≠ x.before.host id → y.after.host id = y.before.host id := by
  induction xs generalizing w with
  | nil => exact .nil
  | cons x xs ih =>
    obtain ⟨-, -, hrest⟩ := hchain
    have hsteps' := fun z hz => hsteps z (List.mem_cons_of_mem _ hz)
    have hhours' := fun z hz => hhours z (List.mem_cons_of_mem _ hz)
    refine List.pairwise_cons.mpr
      ⟨fun y hy hsoon id r d hr hd hnow hne => ?_, ih hrest hsteps' hhours'⟩
    have hlate := late_of_chain hrest hsteps' hhours'
      ((hsteps x List.mem_cons_self).late_of_ne (hhours x List.mem_cons_self) hr hd hnow hne) y hy
    cases hrow : y.before.host id with
    | none =>
      obtain ⟨f, hf, -⟩ := (hsteps' y hy).rows id
      rw [hf, hrow, Option.map_none]
    | some r' =>
      refine (hsteps' y hy).untouched hrow (.inr fun d' hd' => ?_)
      -- Half an hour after half an hour is within the hour.
      calc y.now + EXPIRATION_NOTIFY_WINDOW
          ≤ x.now + EXPIRATION_NOTIFY_WINDOW + EXPIRATION_NOTIFY_WINDOW :=
            Int.add_le_add_right hsoon _
        _ = x.now + TimeDelta.hours 1 := by
            rw [Int.add_assoc]
            rfl
        _ ≤ d' := hlate r' hrow d' hd'

theorem bounded_of_chain (hchain : Chain tgHandle w xs w') (hsteps : ∀ x ∈ xs, Steps u x)
    (id : HostId) {r' : HostRow} {d' : Time} (hr' : w'.host id = some r')
    (hd' : r'.leasedUntil = some d') : ∃ r d, w.host id = some r ∧ r.leasedUntil = some d ∧
      (d' ≤ d ∨ ∃ x ∈ xs,
        d' ≤ x.now + EXPIRATION_NOTIFY_WINDOW + TimeDelta.hours x.hours.toInt) := by
  induction xs generalizing w with
  | nil =>
    obtain rfl : w' = w := hchain
    exact ⟨r', d', hr', hd', .inl le_rfl⟩
  | cons x xs ih =>
    obtain ⟨rfl, -, hrest⟩ := hchain
    obtain ⟨r₁, d₁, hr₁, hd₁, hle | ⟨y, hy, hle⟩⟩ :=
      ih hrest fun z hz => hsteps z (List.mem_cons_of_mem _ hz)
    · obtain ⟨r, d, hr, hd, hle' | hle'⟩ := (hsteps x List.mem_cons_self).bounded hr₁ hd₁
      · exact ⟨r, d, hr, hd, .inl (le_trans hle hle')⟩
      · exact ⟨r, d, hr, hd, .inr ⟨x, List.mem_cons_self, le_trans hle hle'⟩⟩
    · obtain ⟨r, d, hr, hd, -⟩ := (hsteps x List.mem_cons_self).bounded hr₁ hd₁
      exact ⟨r, d, hr, hd, .inr ⟨y, List.mem_cons_of_mem _ hy, hle⟩⟩

end Chains

/-- **Repeated presses do not stack**, for any tables, any user whose Telegram account no other user
    carries, and any number of presses at any times, whatever fails in them. -/
theorem presses_do_not_stack (t : Tables) (n : Nat) (u : UserId) (tgHandle : String)
    (honly : ∀ x ∈ t.users, x.tgHandle = some tgHandle → x.id = u) (xs : List Press) (w' : World)
    (hchain : Chain tgHandle ⟨t.db, n⟩ xs w') (hhours : ∀ x ∈ xs, 1 ≤ x.hours) :
    NoStacking u ⟨t.db, n⟩ xs w' := by
  have hclean : ∀ q, Clean q ⟨t.db, n⟩ := fun q => ⟨t.hosts_holds _, t.users_holds _⟩
  have honly' : OnlyUser u tgHandle ⟨t.db, n⟩ := by
    intro id row hrow hcarries
    obtain ⟨x, hx, rfl, rfl⟩ := t.world_user.mp hrow
    exact honly x hx hcarries
  have hsteps := steps_of_chain hchain hclean honly'
  exact {
    once := once_of_chain hchain hsteps hhours
    bounded := fun id r' d' => bounded_of_chain hchain hsteps id
    untouched := fun x hx id r => (hsteps x hx).untouched
    reported := fun x hx => (hsteps x hx).reported
    users := fun x hx => (hsteps x hx).users }

/-- `alice` presses twice a few moments before the lease ends, and the second press finds nothing to
    extend. -/
theorem presses_do_not_stack_alice : ∃ xs w', xs.map (·.result) =
      [.ok (.leaseExtended 1 [⟨1, "host1", ⟨false, 1, 32⟩, some 60⟩]), .ok .noExpiringHosts] ∧
    Chain "7" (small (some (true, 5))).world xs w' ∧
      NoStacking alice.id (small (some (true, 5))).world xs w' := by
  obtain ⟨⟨r, r'⟩, w', hends, hr⟩ := Prog.exists_ends_of_exec (actIn (.at 3)) (.task 0)
    (x := Prog.bind (extendUserHosts "7" 1) fun r =>
      Prog.bind (extendUserHosts "7" 1) fun r' => .ret (r, r'))
    (s := (small (some (true, 5))).world) (List.replicate 14 { time := 3 })
    (fun x => x == (.ok (.leaseExtended 1 [⟨1, "host1", ⟨false, 1, 32⟩, some 60⟩]),
      .ok .noExpiringHosts)) (by decide +kernel)
  obtain ⟨rfl, rfl⟩ := Prod.mk.inj (eq_of_beq hr)
  obtain ⟨r₁, w₁, hfirst, hrest⟩ := (Prog.ends_bind _ _).mp hends
  obtain ⟨r₂, w₂, hsecond, hret⟩ := (Prog.ends_bind _ _).mp hrest
  obtain ⟨heq, rfl⟩ := hret
  obtain ⟨rfl, rfl⟩ := Prod.mk.inj heq
  have hchain : Chain "7" (small (some (true, 5))).world
      [⟨.task 0, 3, 1, _, _, w₁⟩, ⟨.task 0, 3, 1, _, _, w₂⟩] w₂ :=
    ⟨rfl, hfirst, rfl, hsecond, rfl⟩
  exact ⟨_, w₂, rfl, hchain, presses_do_not_stack (small (some (true, 5))) 0 alice.id "7"
    (by decide) _ w₂ hchain (by simp)⟩

end Tachikoma
