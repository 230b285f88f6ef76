import Tachikoma.Proof.Notice

/-!
# The passes of the timer

The trace, sorted by the passes of the timer: for every pass what it read, freed, tried to tell and
sent. The list is newest first, like the trace, and only the timer's own events change it.

**What the timer should remember** can be said in terms of this list alone, without its map: a user
was told of a host by some pass, and no pass since then has forgotten it (`remembered`). The second
half of this file is about lists of passes, and about the two edits that the source makes to the map
(`retain`, `forget`): they do to the map what a pass does to `remembered`. That the timer's map is
in fact what is remembered is `Tachikoma/Proof/Memory.lean`.
-/

set_option autoImplicit false

namespace Tachikoma

open Interleaving Unordered

inductive PassKind where
  | release
  | notifyReleasedHosts
  | notifySoonRelease
  deriving DecidableEq, Repr

/-- A successful `get_leased_until_hosts`: the leases it returned, the world it found, and what had
    happened before. -/
structure Reading where
  hosts : List LeasedHost
  world : World
  past : Trace

/-- What is known of a pass. -/
structure Pass where
  kind : PassKind
  /-- What it read from the clock first. -/
  now : Option Time
  read : Option Reading
  /-- Whether it has committed; only `release` does, and nothing of it fails after that. -/
  freed : Bool
  /-- The calls `notify(user, ExpirationSoon(hosts))`. -/
  told : List (UserId × List HostId)
  /-- The messages `ExpirationSoon` that were sent. -/
  sent : List (UserId × List HostId)

def Call.passKind : Call → Option PassKind
  | .release => some .release
  | .notifyReleasedHosts .. => some .notifyReleasedHosts
  | .notifySoonRelease _ => some .notifySoonRelease
  | _ => none

/-- The pass that an event begins. -/
def begun : Ev → Option PassKind
  | .called .timer _ κ => κ.passKind
  | _ => none

/-- What an event adds to the pass that it is part of. -/
def Pass.note (past : Trace) : Ev → Pass → Pass
  | .did .timer _ .now t _ _, p => { p with now := p.now.or (some t) }
  | .did .timer _ (.fetch _ (.getLeasedUntilHosts _)) (.ok hosts) w _, p =>
    { p with read := some ⟨hosts, w, past⟩ }
  | .did .timer _ (.commit _) (.ok _) _ _, p => { p with freed := true }
  | .did .timer _ (.notify u (.expirationSoon ids)) _ _ _, p =>
    { p with told := (u, ids) :: p.told }
  | .did .timer _ (.send sender msg) (.ok _) _ _, p =>
    match msg.notification with
    | .expirationSoon ids => { p with sent := (sender.user.id, ids) :: p.sent }
    | .hostsReleased _ => p
  | _, p => p

/-- A pass of which nothing has happened. -/
def Pass.new (kind : PassKind) : Pass := ⟨kind, none, none, false, [], []⟩

/-- The passes of a trace, newest first. -/
def passes : Trace → List Pass
  | [] => []
  | ev :: tr =>
    match begun ev with
    | some kind => .new kind :: passes tr
    | none => (passes tr).modifyHead (Pass.note tr ev)

theorem note_of_ne {ev : Ev} (h : ev.pid ≠ .timer) (past : Trace) (p : Pass) :
    p.note past ev = p := by
  unfold Pass.note
  split <;> first | rfl | exact absurd rfl h

theorem begun_of_ne {ev : Ev} (h : ev.pid ≠ .timer) : begun ev = none := by
  unfold begun
  split
  · exact absurd rfl h
  · rfl

/-- Only the timer makes passes. -/
theorem passes_of_ne {ev : Ev} (h : ev.pid ≠ .timer) (tr : Trace) :
    passes (ev :: tr) = passes tr := by
  simp only [passes, begun_of_ne h]
  cases passes tr with
  | nil => rfl
  | cons p ps => rw [List.modifyHead_cons, note_of_ne h]

theorem stable_passes {Cond : History → Ev → Prop} {Inv : History → Prop} {A : List Pass → Prop} :
    machine.Stable Cond Inv .timer fun h => A (passes h.trace) := by
  intro h ev _ hA hne _ _
  rw [Hist.push_trace, passes_of_ne hne]
  exact hA

/-- What an effect of the timer does to the pass it is in. -/
theorem passes_did {h : History} {p : Pass} {ps : List Pass} (hp : passes h.trace = p :: ps)
    (n : Nat) (e : Effect) (r : e.Res) (w' : World) :
    passes (h.push (.did .timer n e r h.state w')).trace =
      p.note h.trace (.did .timer n e r h.state w') :: ps := by
  rw [Hist.push_trace, passes, hp]
  rfl

theorem passes_begun {κ : Call} {kind : PassKind} (hκ : κ.passKind = some kind) (n : Nat)
    (tr : Trace) :
    passes (.called .timer n κ :: tr) = .new kind :: passes tr := by
  rw [passes, begun, hκ]

/-- A call begins a pass, or it is no event of one. -/
theorem passes_called (p : Pid) (n : Nat) (κ : Call) (tr : Trace) :
    (∃ kind, passes (.called p n κ :: tr) = .new kind :: passes tr) ∨
      passes (.called p n κ :: tr) = passes tr := by
  rw [passes]
  split
  · exact .inl ⟨_, rfl⟩
  · right
    cases hps : passes tr with
    | nil => rfl
    | cons q qs =>
      have hq : q.note tr (.called p n κ) = q := by cases p <;> rfl
      rw [List.modifyHead_cons, hq]

theorem note_kind (past : Trace) (ev : Ev) (p : Pass) : (p.note past ev).kind = p.kind := by
  unfold Pass.note
  split <;> first | rfl | (split <;> rfl)

/-- Only a notice adds to what was sent. -/
theorem note_sent {n : Nat} {e : Effect} {r : e.Res} {w w' : World} (he : NoNotice e) (past : Trace)
    (p : Pass) : (p.note past (.did .timer n e r w w')).sent = p.sent := by
  unfold Pass.note
  split <;> try rfl
  split
  · rename_i heq _ _ hmsg
    cases heq
    exact absurd hmsg (he _ _ _ rfl)
  · rfl

/-! ## What is remembered -/

namespace Pass

variable (u : UserId) (x : HostId) (p : Pass)

/-- The pass has called `notify` for the user, with the host in the list. -/
def Tells : Prop := ∃ v ∈ p.told, v.1 = u ∧ x ∈ v.2

/-- The pass has sent the user a notice that lists the host. -/
def Sends : Prop := ∃ v ∈ p.sent, v.1 = u ∧ x ∈ v.2

/-- A pass that looks for leases about to end, and does not find the host among them. -/
def ReadsWithout : Prop := p.kind = .notifySoonRelease ∧ ∃ r ∈ p.read, ∀ l ∈ r.hosts, l.id ≠ x

/-- A pass that has found the host expired in the hands of the user, and released it. -/
def Releases : Prop :=
  p.kind = .release ∧ p.freed = true ∧ ∃ r ∈ p.read, ∃ l ∈ r.hosts, l.user.id = u ∧ l.id = x

/-- After this pass an announcement of the host to the user counts no more. -/
def Forgets : Prop := p.ReadsWithout x ∨ p.Releases u x

instance : Decidable (p.Tells u x) := inferInstanceAs (Decidable (∃ v ∈ p.told, _))

instance : Decidable (p.Sends u x) := inferInstanceAs (Decidable (∃ v ∈ p.sent, _))

instance : Decidable (p.ReadsWithout x) := inferInstanceAs (Decidable (_ ∧ ∃ r ∈ p.read, _))

instance : Decidable (p.Releases u x) := inferInstanceAs (Decidable (_ ∧ _ ∧ ∃ r ∈ p.read, _))

instance : Decidable (p.Forgets u x) := inferInstanceAs (Decidable (_ ∨ _))

end Pass

/-- Some pass has told the user of the host, and none has forgotten it since. -/
def Remembered (u : UserId) (x : HostId) : List Pass → Prop
  | [] => False
  | p :: ps => p.Sends u x ∨ Remembered u x ps ∧ ¬ p.Forgets u x

instance (u : UserId) (x : HostId) : ∀ ps, Decidable (Remembered u x ps)
  | [] => inferInstanceAs (Decidable False)
  | p :: ps =>
    have := instDecidableRemembered u x ps
    inferInstanceAs (Decidable (p.Sends u x ∨ Remembered u x ps ∧ ¬ p.Forgets u x))

/-- What was sent and is not remembered was forgotten. -/
theorem exists_forgets {u : UserId} {x : HostId} {p : Pass} {earlier : List Pass}
    (hp : p.Sends u x) {between : List Pass} (h : ¬ Remembered u x (between ++ p :: earlier)) :
    ∃ q ∈ between, q.Forgets u x := by
  induction between with
  | nil => exact absurd (.inl hp) h
  | cons q between ih =>
    by_cases hq : q.Forgets u x
    · exact ⟨q, List.mem_cons_self, hq⟩
    · obtain ⟨q', hq', hf⟩ := ih fun hrem => h (.inr ⟨hrem, hq⟩)
      exact ⟨q', List.mem_cons_of_mem _ hq', hf⟩

/-- No pass has sent a user what was still remembered when it began. -/
def Unrepeated : List Pass → Prop
  | [] => True
  | p :: ps => (∀ u x, p.Sends u x → ¬ Remembered u x ps) ∧ Unrepeated ps

theorem Unrepeated.of_append {later ps : List Pass} (h : Unrepeated (later ++ ps)) :
    Unrepeated ps := by
  induction later with
  | nil => exact h
  | cons p later ih => exact ih h.2

theorem Unrepeated.cons_new {ps : List Pass} (h : Unrepeated ps) (kind : PassKind) :
    Unrepeated (.new kind :: ps) := by
  refine ⟨fun u x hx => ?_, h⟩
  obtain ⟨v, hv, _⟩ := hx
  cases hv

/-! ## The timer's map -/

/-- The lists by users are what is remembered. -/
def Tracks (sent : UserId → List HostId) (ps : List Pass) : Prop :=
  ∀ u x, x ∈ sent u ↔ Remembered u x ps

theorem tracks_nil :
    Tracks (ReleaseTimer.sentHostIds ReleaseTimer.new.sentHostsNotification) [] := by
  intro u x
  simp [ReleaseTimer.sentHostIds, ReleaseTimer.new, Remembered]

section Tracks

variable {sent : UserId → List HostId} {p : Pass} {ps : List Pass}

theorem Tracks.cons_new (h : Tracks sent ps) (kind : PassKind) : Tracks sent (.new kind :: ps) := by
  intro u x
  rw [h u x]
  simp [Remembered, Pass.new, Pass.Sends, Pass.Forgets, Pass.ReadsWithout, Pass.Releases]

/-- A pass that goes on without sending or forgetting anything. -/
theorem Tracks.congr {p' : Pass} (h : Tracks sent (p :: ps)) (hsent : p'.sent = p.sent)
    (hforgets : ∀ u x, p'.Forgets u x ↔ p.Forgets u x) : Tracks sent (p' :: ps) := by
  intro u x
  rw [h u x]
  simp only [Remembered, Pass.Sends, hsent, hforgets]

/-- A message is sent. -/
theorem Tracks.send {p' : Pass} {u : UserId} {ids : List HostId} (h : Tracks sent (p :: ps))
    (hsent : p'.sent = (u, ids) :: p.sent) (hforgets : ∀ u x, p'.Forgets u x ↔ p.Forgets u x) :
    Tracks (Function.update sent u (sent u ++ ids)) (p' :: ps) := by
  intro v x
  have hsends : p'.Sends v x ↔ (v = u ∧ x ∈ ids) ∨ p.Sends v x := by
    simp only [Pass.Sends, hsent, List.exists_mem_cons_iff, eq_comm (a := u)]
  rw [Remembered, hsends, hforgets, or_assoc, ← Remembered, ← h v x]
  by_cases hv : v = u
  · subst hv
    simp only [Function.update_self, List.mem_append, true_and, or_comm]
  · simp only [Function.update_of_ne hv, hv, false_and, false_or]

theorem mem_retain {all : List HostId} {sent : UserId → Option (List HostId)} {u : UserId}
    {x : HostId} : x ∈ ReleaseTimer.sentHostIds (ReleaseTimer.retain all sent) u ↔
      x ∈ ReleaseTimer.sentHostIds sent u ∧ x ∈ all := by
  simp only [ReleaseTimer.sentHostIds, ReleaseTimer.retain]
  cases hs : sent u with
  | none => simp
  | some ids =>
    dsimp only
    split
    · rename_i hnone
      have hno : ∀ id ∈ ids, id ∉ all := by simpa [List.filter_eq_nil_iff] using hnone
      simpa using fun hx => hno x hx
    · simp

theorem mem_forget {released : List (UserId × List HostId)} {sent : UserId → Option (List HostId)}
    {u : UserId} {x : HostId} : x ∈ ReleaseTimer.sentHostIds (ReleaseTimer.forget sent released) u ↔
      x ∈ ReleaseTimer.sentHostIds sent u ∧ ∀ v ∈ released, v.1 = u → x ∉ v.2 := by
  induction released generalizing sent with
  | nil => simp [ReleaseTimer.forget]
  | cons v released ih =>
    obtain ⟨v, expired⟩ := v
    rw [ReleaseTimer.forget, ih, List.forall_mem_cons, ← and_assoc]
    refine and_congr_left fun _ => ?_
    by_cases hv : v = u
    · subst hv
      cases hs : sent v <;> simp [ReleaseTimer.sentHostIds, hs]
    · simp [ReleaseTimer.sentHostIds, Function.update_of_ne (Ne.symm hv), hv]

/-- `retain` keeps what a pass does not forget by what it reads. -/
theorem Tracks.retain {sent : UserId → Option (List HostId)} {p' : Pass} {r : Reading}
    (h : Tracks (ReleaseTimer.sentHostIds sent) (p :: ps)) (hkind : p.kind = .notifySoonRelease)
    (hread : p.read = none) (hsent : p.sent = []) (hp' : p' = { p with read := some r }) :
    Tracks (ReleaseTimer.sentHostIds (ReleaseTimer.retain
      ((ReleaseTimer.usersHosts r.hosts).flatMap (·.2)) sent)) (p' :: ps) := by
  intro u x
  have hall : x ∈ (ReleaseTimer.usersHosts r.hosts).flatMap (·.2) ↔ ∃ l ∈ r.hosts, l.id = x := by
    rw [List.mem_flatMap]
    constructor
    · rintro ⟨⟨v, ids⟩, hv, hx⟩
      obtain ⟨l, hl, _, hid⟩ := mem_usersHosts.mp ⟨ids, hv, hx⟩
      exact ⟨l, hl, hid⟩
    · rintro ⟨l, hl, rfl⟩
      obtain ⟨ids, hids, hx⟩ := mem_usersHosts.mpr ⟨l, hl, rfl, rfl⟩
      exact ⟨_, hids, hx⟩
  rw [mem_retain, h u x, hall]
  subst hp'
  simp [Remembered, Pass.Sends, Pass.Forgets, Pass.ReadsWithout, Pass.Releases, hkind, hread, hsent]

/-- `forget` drops what a pass has released. -/
theorem Tracks.forget {sent : UserId → Option (List HostId)} {p' : Pass} {r : Reading}
    {order : List Nat} (h : Tracks (ReleaseTimer.sentHostIds sent) (p :: ps))
    (hkind : p.kind = .release) (hread : p.read = some r) (hsent : p.sent = [])
    (hfreed : p.freed = false) (hp' : p' = { p with freed := true }) :
    Tracks (ReleaseTimer.sentHostIds (ReleaseTimer.forget sent
      (arrange order (ReleaseTimer.usersHosts r.hosts)))) (p' :: ps) := by
  intro u x
  have hrel : (∀ v ∈ arrange order (ReleaseTimer.usersHosts r.hosts), v.1 = u → x ∉ v.2) ↔
      ¬ ∃ l ∈ r.hosts, l.user.id = u ∧ l.id = x := by
    rw [← mem_usersHosts]
    constructor
    · rintro hno ⟨ids, hids, hx⟩; exact hno (u, ids) (mem_arrange.mpr hids) rfl hx
    · rintro hno ⟨v, ids⟩ hv rfl hx; exact hno ⟨ids, mem_arrange.mp hv, hx⟩
  rw [mem_forget, h u x, hrel]
  subst hp'
  simp [Remembered, Pass.Sends, Pass.Forgets, Pass.ReadsWithout, Pass.Releases, hkind, hread, hsent,
    hfreed]

end Tracks

end Tachikoma
