import Mathlib.Data.List.Induction
import Tachikoma.Ldap.Supervision

/-!
# What ends the process

Every failure on the way to a connection is logged, slept on and tried again, with one exception:
the two `?` after the bind. A bind that the server refuses ends the loop by design; **a bind request
that does not get through ends it as well**, with it `UsersInfo::work`, and with that the process.
All other outcomes keep both loops going for ever, and the authorized connection is there to be used
from its bind to the end of its drive and at no other time.
-/

set_option autoImplicit false

namespace Tachikoma

namespace LdapTask

/-- The connection was made, then bound, and its drive has not ended since. -/
def Usable (conn : Nat) (ls : List LdapLabel) : Prop :=
  ∃ ls₁ ls₂ ls₃,
    ls = ls₁ ++ .authorized (.connects conn) :: ls₂ ++ .authorized .bindSucceeds :: ls₃ ∧
    (∀ c, .authorized (.connects c) ∉ ls₂) ∧ ∀ how, .authorized (.driveEnds how) ∉ ls₃

/-- The connection was made, and nothing has become of it yet. -/
def Unbound (conn : Nat) (ls : List LdapLabel) : Prop :=
  ∃ ls₁ ls₂, ls = ls₁ ++ .authorized (.connects conn) :: ls₂ ∧
    ∀ c, .authorized (.connects c) ∉ ls₂

/-- What holds after the outcomes `ls`, wherever the loop waits. -/
def Inv (ls : List LdapLabel) (t : LdapTask) : Prop :=
  match t.authorized with
  | .binding conn => t.state.authorizedLdap = none ∧ Unbound conn ls
  | .driving conn => t.state.authorizedLdap = some conn ∧ Usable conn ls
  | _ => t.state.authorizedLdap = none

theorem Unbound.append {conn : Nat} {ls : List LdapLabel} (h : Unbound conn ls)
    {outcome : LdapOutcome} : Unbound conn (ls ++ [.plain outcome]) := by
  obtain ⟨ls₁, ls₂, rfl, hno⟩ := h
  refine ⟨ls₁, ls₂ ++ [.plain outcome], by simp, fun c hc => ?_⟩
  rcases List.mem_append.mp hc with hc | hc
  · exact hno c hc
  · cases List.mem_singleton.mp hc

theorem Usable.append {conn : Nat} {ls : List LdapLabel} (h : Usable conn ls)
    {outcome : LdapOutcome} : Usable conn (ls ++ [.plain outcome]) := by
  obtain ⟨ls₁, ls₂, ls₃, rfl, hconn, hno⟩ := h
  refine ⟨ls₁, ls₂, ls₃ ++ [.plain outcome], by simp, hconn, fun how hhow => ?_⟩
  rcases List.mem_append.mp hhow with hhow | hhow
  · exact hno how hhow
  · cases List.mem_singleton.mp hhow

theorem Unbound.bound {conn : Nat} {ls : List LdapLabel} (h : Unbound conn ls) :
    Usable conn (ls ++ [.authorized .bindSucceeds]) := by
  obtain ⟨ls₁, ls₂, rfl, hno⟩ := h
  exact ⟨ls₁, ls₂, [], by simp, hno, fun _ => nofun⟩

theorem unbound_connects (conn : Nat) (ls : List LdapLabel) :
    Unbound conn (ls ++ [.authorized (.connects conn)]) := ⟨ls, [], rfl, fun _ => nofun⟩

/-- What one outcome does. -/
theorem step_cases {t t' : LdapTask} {l : LdapLabel} (h : t.step l = some t') :
    (t.workFinished = true ∧ t' = t) ∨
    (t.workFinished = false ∧ ∃ outcome a s, l = .authorized outcome ∧
      UsersInfo.keepAuthorizedLdapConn t.authorized outcome t.state = some (a, s) ∧
      t' = { t with authorized := a, state := s }) ∨
    (t.workFinished = false ∧ ∃ outcome a s, l = .plain outcome ∧
      UsersInfo.keepLdapConn t.plain outcome t.state = some (a, s) ∧
      t' = { t with plain := a, state := s }) := by
  unfold step at h
  split at h
  · rename_i hf
    exact .inl ⟨hf, (Option.some.inj h).symm⟩
  · rename_i hf
    rw [Bool.not_eq_true] at hf
    cases l with
    | authorized outcome =>
      obtain ⟨⟨a, s⟩, hstep, ht⟩ := Option.map_eq_some_iff.mp h
      exact .inr (.inl ⟨hf, outcome, a, s, rfl, hstep, ht.symm⟩)
    | plain outcome =>
      obtain ⟨⟨a, s⟩, hstep, ht⟩ := Option.map_eq_some_iff.mp h
      exact .inr (.inr ⟨hf, outcome, a, s, rfl, hstep, ht.symm⟩)

/-- What one outcome makes of `keep_authorized_ldap_conn`. -/
inductive Kept (s : UsersInfoState) :
    KeepAuthorizedLdapConn → LdapOutcome → KeepAuthorizedLdapConn → UsersInfoState → Prop where
  | connects (conn : Nat) : Kept s .connecting (.connects conn) (.binding conn) s
  | connectFails : Kept s .connecting .connectFails .sleeping { s with authorizedLdap := none }
  | bindFails (conn : Nat) (err : String) : Kept s (.binding conn) .bindFails (.returned err) s
  | bindRejected (conn : Nat) (err : String) :
      Kept s (.binding conn) .bindRejected (.returned err) s
  | bindSucceeds (conn : Nat) :
      Kept s (.binding conn) .bindSucceeds (.driving conn) { s with authorizedLdap := some conn }
  | driveEnds (conn : Nat) (how : DriveEnd) :
      Kept s (.driving conn) (.driveEnds how) .sleeping { s with authorizedLdap := none }
  | wakes : Kept s .sleeping .wakes .connecting s

theorem kept_of_keepAuthorizedLdapConn {k k' : KeepAuthorizedLdapConn} {outcome : LdapOutcome}
    {s s' : UsersInfoState} (h : UsersInfo.keepAuthorizedLdapConn k outcome s = some (k', s')) :
    Kept s k outcome k' s' := by
  unfold UsersInfo.keepAuthorizedLdapConn at h
  split at h
  case h_8 => cases h
  all_goals
    cases h
    constructor

/-- What one outcome makes of `keep_ldap_conn` touches nothing of the other loop. -/
theorem authorizedLdap_of_keepLdapConn {k k' : KeepLdapConn} {outcome : LdapOutcome}
    {s s' : UsersInfoState} (h : UsersInfo.keepLdapConn k outcome s = some (k', s')) :
    s'.authorizedLdap = s.authorizedLdap := by
  unfold UsersInfo.keepLdapConn at h
  split at h <;> cases h <;> rfl

theorem Inv.step {ls : List LdapLabel} {t t' : LdapTask} {l : LdapLabel} (h : Inv ls t)
    (hs : t.step l = some t') : Inv (ls ++ [l]) t' := by
  obtain ⟨hf, rfl⟩ | ⟨-, outcome, a, s, rfl, hk, rfl⟩ | ⟨-, outcome, a, s, rfl, hk, rfl⟩ :=
    step_cases hs
  · -- Nothing happens any more, and nothing is said of the outcomes.
    unfold workFinished at hf
    split at hf
    · rename_i heq
      unfold Inv at h ⊢
      rw [heq] at h ⊢
      exact h
    · cases hf
  · have hkept := kept_of_keepAuthorizedLdapConn hk
    unfold Inv at h
    generalize t.authorized = k at h hkept
    cases hkept with
    | connects conn => exact ⟨h, unbound_connects conn ls⟩
    | connectFails => rfl
    | bindFails => exact h.1
    | bindRejected => exact h.1
    | bindSucceeds => exact ⟨rfl, h.2.bound⟩
    | driveEnds => rfl
    | wakes => exact h
  · have hsame := authorizedLdap_of_keepLdapConn hk
    unfold Inv at h ⊢
    dsimp only at h ⊢
    rw [hsame]
    split at h
    · exact ⟨h.1, h.2.append⟩
    · exact ⟨h.1, h.2.append⟩
    · exact h

theorem inv_of_run {ls : List LdapLabel} {t : LdapTask} (h : run ls = some t) : Inv ls t := by
  induction ls using List.reverseRecOn generalizing t with
  | nil =>
    cases h
    rfl
  | append_singleton ls l ih =>
    rw [run_append_singleton] at h
    obtain ⟨t₀, h₀, hs⟩ := Option.bind_eq_some_iff.mp h
    exact (ih h₀).step hs

/-! ## What ends the loop -/

/-- The loop returns from a bind, and in no other way. -/
theorem bind_of_workFinished {ls : List LdapLabel} {t : LdapTask} (h : run ls = some t)
    (hf : t.workFinished = true) :
    .authorized .bindFails ∈ ls ∨ .authorized .bindRejected ∈ ls := by
  induction ls using List.reverseRecOn generalizing t with
  | nil =>
    cases h
    cases hf
  | append_singleton ls l ih =>
    rw [run_append_singleton] at h
    obtain ⟨t₀, h₀, hs⟩ := Option.bind_eq_some_iff.mp h
    obtain ⟨hf₀, rfl⟩ | ⟨-, outcome, a, s, rfl, hk, rfl⟩ | ⟨hf₀, outcome, a, s, rfl, hk, rfl⟩ :=
      step_cases hs
    · exact (ih h₀ hf₀).imp (List.mem_append_left _) (List.mem_append_left _)
    · have hkept := kept_of_keepAuthorizedLdapConn hk
      generalize t₀.authorized = k at hkept
      cases hkept with
      | bindFails => exact .inl (List.mem_append_right _ List.mem_cons_self)
      | bindRejected => exact .inr (List.mem_append_right _ List.mem_cons_self)
      | _ => cases hf
    · have hsame : t₀.workFinished = true := hf
      rw [hsame] at hf₀
      cases hf₀

/-- A bind request that does not get through ends it. -/
theorem workFinished_of_bindFails {ls : List LdapLabel} {t : LdapTask}
    (h : run (ls ++ [.authorized .bindFails]) = some t) : t.workFinished = true := by
  rw [run_append_singleton] at h
  obtain ⟨t₀, -, hs⟩ := Option.bind_eq_some_iff.mp h
  obtain ⟨hf, rfl⟩ | ⟨-, outcome, a, s, hl, hk, rfl⟩ | ⟨-, outcome, a, s, hl, -⟩ := step_cases hs
  · exact hf
  · cases hl
    have hkept := kept_of_keepAuthorizedLdapConn hk
    generalize t₀.authorized = k at hkept
    cases hkept
    rfl
  · cases hl

theorem take_succ_of_get? {s : Stream'.Seq LdapLabel} {n : Nat} {l : LdapLabel}
    (h : s.get? n = some l) : s.take (n + 1) = s.take n ++ [l] := by
  induction n generalizing s with
  | zero =>
    cases s with
    | nil => cases h
    | cons l' s =>
      cases h
      simp
  | succ n ih =>
    cases s with
    | nil => cases h
    | cons l' s =>
      rw [Stream'.Seq.get?_cons_succ] at h
      rw [Stream'.Seq.take_succ_cons, ih h, Stream'.Seq.take_succ_cons, List.cons_append]

/-! ## The condition -/

/-- The process goes on for ever, and the authorized connection is there from its bind to the end
    of its drive only. -/
structure NeverStops (s : Stream'.Seq LdapLabel) : Prop where
  keeps : ∀ n t, run (s.take n) = some t → ∀ err, t.authorized ≠ .returned err
  works : ∀ n t, run (s.take n) = some t → t.workFinished = false
  races : ∀ n t others, run (s.take n) = some t → (∀ other ∈ others, other = false) →
    t.raceFinished others = false
  usable : ∀ n t conn, run (s.take n) = some t → t.state.authorizedLdap = some conn →
    Usable conn (s.take n)

/-- **When an outage does not stop the server.** With credentials that the server does not reject:
    exactly when no bind request fails to get through. -/
theorem neverStops_iff (s : Stream'.Seq LdapLabel) (hs : Possible s)
    (hcredentials : .authorized .bindRejected ∉ s) :
    NeverStops s ↔ .authorized .bindFails ∉ s := by
  constructor
  · intro h hmem
    obtain ⟨n, hn⟩ := Stream'.Seq.mem_iff_exists_get?.mp hmem
    obtain ⟨t, ht⟩ := Option.ne_none_iff_exists'.mp (hs (n + 1))
    have hf := h.works (n + 1) t ht
    rw [take_succ_of_get? hn.symm] at ht
    rw [workFinished_of_bindFails ht] at hf
    cases hf
  -- Without a failed bind the work has not finished, and so neither has the race around it.
  · intro hmem
    have hworks : ∀ n t, run (s.take n) = some t → t.workFinished = false := by
      intro n t ht
      by_contra hf
      rw [Bool.not_eq_false] at hf
      rcases bind_of_workFinished ht hf with hbad | hbad
      · exact hmem (Stream'.Seq.take_all (p := (· ∈ s)) (fun _ hl => hl) hbad)
      · exact hcredentials (Stream'.Seq.take_all (p := (· ∈ s)) (fun _ hl => hl) hbad)
    refine ⟨fun n t ht err herr => ?_, hworks, fun n t others ht hothers => ?_,
      fun n t conn ht hconn => ?_⟩
    · have hf := hworks n t ht
      rw [workFinished, herr] at hf
      cases hf
    · rw [raceFinished, List.any_cons, hworks n t ht]
      show List.any others id = false
      rw [List.any_eq_false]
      intro other hother
      simp [hothers other hother]
    · have hinv := inv_of_run ht
      unfold Inv at hinv
      split at hinv
      · rw [hinv.1] at hconn
        cases hconn
      · rw [hinv.1] at hconn
        cases hconn
        exact hinv.2
      · rw [hinv] at hconn
        cases hconn

/-! The connections are made, the first of them is closed, and it is made again. -/

def reconnection : List LdapLabel :=
  [.authorized (.connects 0), .authorized .bindSucceeds, .plain (.connects 1),
    .authorized (.driveEnds .closed), .authorized .wakes, .authorized (.connects 2),
    .authorized .bindSucceeds]

theorem possible_reconnection : Possible (.ofList reconnection) := by
  intro n
  rcases n with _ | _ | _ | _ | _ | _ | _ | n <;> simp [reconnection, run] <;> decide

/-! The first connection is made, and the bind request on it gets lost. -/

def lostBind : Stream'.Seq LdapLabel :=
  .cons (.authorized (.connects 0)) (.cons (.authorized .bindFails) .nil)

theorem possible_lostBind : Possible lostBind := by
  intro n
  rcases n with _ | _ | n
  · simp [lostBind, run]
  · simp [lostBind, run, step, start, workFinished, UsersInfo.keepAuthorizedLdapConn]
  · simp [lostBind, run, step, start, workFinished, UsersInfo.keepAuthorizedLdapConn]

theorem bindRejected_notMem_lostBind : .authorized .bindRejected ∉ lostBind := by
  simp [lostBind]

/-- The one goes on, and the other does so or not. -/
theorem neverStops_iff_small : NeverStops (.ofList reconnection) ∧
    (NeverStops lostBind ↔ .authorized .bindFails ∉ lostBind) := by
  constructor
  · have hiff :=
      neverStops_iff (.ofList reconnection) possible_reconnection (by simp [reconnection])
    exact hiff.mpr (by simp [reconnection])
  · exact neverStops_iff lostBind possible_lostBind bindRejected_notMem_lostBind

theorem not_neverStops : ¬ NeverStops lostBind := by
  intro h
  have hf := h.works 2 ⟨.returned "Unable to bind credentials", .connecting, ⟨none, none⟩⟩
    (by simp [lostBind, run, step, start, workFinished, UsersInfo.keepAuthorizedLdapConn])
  cases hf

end LdapTask

end Tachikoma
