import Tachikoma.Lib.Leases
import Tachikoma.Proof.Atomic
import Tachikoma.Proof.Coupling

/-!
# The server is a registry of leases

The refinement of the abstract registry (`Tachikoma/Lib/Leases.lean`) by the server. Every write of
`hosts` is one operation of the registry on the hosts that its statement hit, it happens at the
commit, and its guard holds *then*: a release takes nothing that its user does not hold at that
moment, and an extension prolongs nothing that is not leased. So the whole server, with its
transactions, its failures and its interleavings, is one path of the registry (`path_of_run`).

The guards need lease columns that are coupled. What a deadline is made of (`origin_of_run`) does
not, and neither does who may have taken a host (`taken_of_run`): that looks at the holders alone.
-/

set_option autoImplicit false

namespace Tachikoma

open Interleaving Versioned Leases

/-- The lease that a row of `hosts` is. -/
def HostRow.lease (r : HostRow) : Option (Lease UserId Time) :=
  match r.userId, r.leasedUntil with
  | some u, some d => some ⟨u, d⟩
  | _, _ => none

/-- The registry that is in the tables. -/
def Rows.registry (m : Rows) : Registry HostId UserId Time :=
  fun id => (m.host id).bind HostRow.lease

namespace HostWrite

/-- The hosts that the update hits. -/
def targets (x : HostWrite) (w : World) : List HostId :=
  w.hostIds.filter fun id => (w.host id).any (x.sel id)

/-- The operation that it is. -/
def op (x : HostWrite) (w : World) : Op HostId UserId Time :=
  match x with
  | .leaseHosts u _ deadline => .grant u deadline (x.targets w)
  | .freeHostsForUser _ u => .release u (x.targets w)
  | .freeAll u => .release u (x.targets w)
  | .freeHosts _ => .expire (x.targets w)
  | .extendHostsLease _ hours => .extend (TimeDelta.hours hours.toInt) (x.targets w)

theorem mem_targets {x : HostWrite} {w : World} {id : HostId} :
    id ∈ x.targets w ↔ ∃ r, w.host id = some r ∧ x.sel id r = true := by
  simp only [targets, List.mem_filter, Option.any_eq_true]
  constructor
  · intro h
    exact h.2
  · intro h
    obtain ⟨r, hr, hsel⟩ := h
    exact ⟨World.mem_hostIds hr, r, hr, hsel⟩

@[simp] theorem op_things (x : HostWrite) (w : World) : (x.op w).things = x.targets w := by
  cases x <;> rfl

/-- An update makes of a row what the operation makes of its lease. -/
theorem lease_set {x : HostWrite} {id : HostId} {r : HostRow} (hsel : x.sel id r = true)
    (w : World) :
    (x.set r).lease = (x.op w).set r.lease := by
  cases x with
  | leaseHosts u ids deadline => rfl
  | freeHostsForUser ids u => rfl
  | freeHosts ids => rfl
  | freeAll u => rfl
  | extendHostsLease ids hours =>
    have hleased : r.leasedUntil ≠ none := (of_decide_eq_true hsel).2
    obtain ⟨d, hd⟩ := Option.ne_none_iff_exists'.mp hleased
    cases hu : r.userId <;> simp [HostWrite.set, op, Op.set, HostRow.lease, hu, hd]

/-- An update that has ended with the holder takes the host away from that user. -/
theorem takes_of_set {x : HostWrite} {w : World} {id : HostId} {r : HostRow} {u : UserId}
    (hid : id ∈ x.targets w) (hsel : x.sel id r = true) (hu : r.userId = some u)
    (hset : (x.set r).userId ≠ some u) : (x.op w).Takes u id := by
  cases x with
  | leaseHosts v ids deadline => exact ⟨hid, fun hv => hset (congrArg some hv)⟩
  | freeHostsForUser ids v =>
    have hv : r.userId = some v := (of_decide_eq_true hsel).2
    exact ⟨hid, Option.some.inj (hv.symm.trans hu)⟩
  | freeAll v =>
    have hv : r.userId = some v := of_decide_eq_true hsel
    exact ⟨hid, Option.some.inj (hv.symm.trans hu)⟩
  | freeHosts ids => exact hid
  | extendHostsLease ids hours => exact absurd hu hset

/-- A row that is hit allows the operation. -/
theorem guard_of_sel {x : HostWrite} {w : World} {ρ : Registry HostId UserId Time}
    (h : ∀ id ∈ x.targets w, ∃ r : HostRow, r.Coupled ∧ x.sel id r = true ∧ ρ id = r.lease) :
    (x.op w).Guard ρ := by
  have hheld : ∀ {r : HostRow} {u : UserId}, r.Coupled → r.userId = some u →
      ∃ l, r.lease = some l ∧ l.holder = u := by
    intro r u hr hu
    have hleased : r.leasedUntil ≠ none := by
      intro hd
      rw [hr.mpr hd] at hu
      cases hu
    obtain ⟨d, hd⟩ := Option.ne_none_iff_exists'.mp hleased
    exact ⟨⟨u, d⟩, by simp [HostRow.lease, hu, hd], rfl⟩
  -- Leasing and freeing by id ask nothing of the registry; the others ask for a holder.
  cases x with
  | leaseHosts u ids deadline => trivial
  | freeHosts ids => trivial
  | freeHostsForUser ids u =>
    intro id hid
    obtain ⟨r, hr, hsel, hρ⟩ := h id hid
    rw [hρ]
    exact hheld hr (of_decide_eq_true hsel).2
  | freeAll u =>
    intro id hid
    obtain ⟨r, hr, hsel, hρ⟩ := h id hid
    rw [hρ]
    exact hheld hr (of_decide_eq_true hsel)
  | extendHostsLease ids hours =>
    intro id hid
    obtain ⟨r, hr, hsel, hρ⟩ := h id hid
    have hholder : r.userId ≠ none := fun hu => (of_decide_eq_true hsel).2 (hr.mp hu)
    obtain ⟨u, hu⟩ := Option.ne_none_iff_exists'.mp hholder
    obtain ⟨l, hl, -⟩ := hheld hr hu
    exact ⟨l, hρ.trans hl⟩

end HostWrite

/-- The operation that a write is, if it is one of `hosts`. -/
def Performed.op (x : Performed) : Option (Op HostId UserId Time) :=
  match x.write with
  | .hosts y => some (y.op x.seen)
  | .setUserTgHandle _ _ => none
  | .addUser _ _ _ => none

theorem Performed.exists_hosts {x : Performed} {op : Op HostId UserId Time} (h : x.op = some op) :
    ∃ y, x.write = .hosts y ∧ op = y.op x.seen := by
  obtain ⟨pid, calls, write, seen⟩ := x
  cases write with
  | hosts y => exact ⟨y, rfl, (Option.some.inj h).symm⟩
  | setUserTgHandle => cases h
  | addUser => cases h

/-- The operations that a trace commits, newest first. -/
def operations (xs : List Performed) : List (Op HostId UserId Time) := xs.filterMap Performed.op

/-- The lease columns of all hosts are coupled. -/
def Rows.Coupled (m : Rows) : Prop := ∀ id r, m.host id = some r → r.Coupled

section Replays

variable {m₀ m m' : Rows} {x : Performed} {xs : List Performed}

/-- A host is hit and is what the statement saw, or it stays as it is. -/
theorem Performed.Applies.hit_or_kept (h : x.Applies m m') (id : HostId) :
    (∃ y r, x.write = .hosts y ∧ id ∈ y.targets x.seen ∧ m.host id = some r ∧ y.sel id r = true ∧
      m'.host id = some (y.set r)) ∨
    (∀ y, x.write = .hosts y → id ∉ y.targets x.seen) ∧ m'.host id = m.host id := by
  have hseen := h.seen id
  have hhost : m'.host id = (x.write.hostChanges x.seen).onto m.host id := congrFun h.host id
  generalize x.write = write at hseen hhost ⊢
  cases write with
  | setUserTgHandle u tgHandle =>
    exact .inr ⟨fun _ hy => (nomatch hy), hhost.trans (Changes.onto_of_none rfl _)⟩
  | addUser dn tgHandle email =>
    exact .inr ⟨fun _ hy => (nomatch hy), hhost.trans (Changes.onto_of_none rfl _)⟩
  | hosts y =>
    cases hchange : (Write.hosts y).hostChanges x.seen id with
    | some r' =>
      obtain ⟨r, hr, hsel, rfl⟩ := Changes.update_eq_some.mp hchange
      exact .inl ⟨y, r, rfl, HostWrite.mem_targets.mpr ⟨r, hr, hsel⟩, (hseen _ hchange).trans hr,
        hsel, hhost.trans (Changes.onto_of_some hchange _)⟩
    | none =>
      refine .inr ⟨fun y' hy hmem => ?_, hhost.trans (Changes.onto_of_none hchange _)⟩
      cases hy
      obtain ⟨r, hr, hsel⟩ := HostWrite.mem_targets.mp hmem
      rw [Changes.update_eq_none.mp hchange r hr] at hsel
      cases hsel

/-- A write of `hosts` is its operation, and any other leaves the registry as it is. -/
theorem Performed.Applies.registry (h : x.Applies m m') :
    m'.registry = applyAll x.op.toList m.registry := by
  obtain ⟨pid, calls, write, seen⟩ := x
  funext id
  rcases h.hit_or_kept id with ⟨y, r, hy, hid, hr, hsel, hset⟩ | ⟨hnot, heq⟩
  · subst hy
    show m'.registry id = (y.op seen).apply m.registry id
    rw [Op.apply_of_mem (by rw [HostWrite.op_things]; exact hid)]
    simp only [Rows.registry, hset, hr, Option.bind_some]
    exact HostWrite.lease_set hsel seen
  · have hkept : m'.registry id = m.registry id := by simp only [Rows.registry, heq]
    rw [hkept]
    cases write with
    | hosts y =>
      have hid : id ∉ (y.op seen).things := by rw [HostWrite.op_things]; exact hnot y rfl
      exact (Op.apply_of_not_mem hid _).symm
    | setUserTgHandle u tgHandle => rfl
    | addUser dn tgHandle email => rfl

theorem Performed.Applies.coupled (h : x.Applies m m') (hm : m.Coupled) : m'.Coupled := by
  intro id r hr
  rcases h.hit_or_kept id with ⟨y, s, -, -, hs, -, hset⟩ | ⟨-, heq⟩
  · rw [hset] at hr
    cases Option.some.inj hr
    exact y.set_coupled (hm id s hs)
  · exact hm id r (heq ▸ hr)

/-- The guard of an operation holds when it happens. -/
theorem Performed.Applies.guard (h : x.Applies m m') (hm : m.Coupled)
    {op : Op HostId UserId Time} (hop : x.op = some op) : op.Guard m.registry := by
  obtain ⟨y, hy, rfl⟩ := x.exists_hosts hop
  refine HostWrite.guard_of_sel fun id hid => ?_
  rcases h.hit_or_kept id with ⟨y', r, hy', -, hr, hsel, -⟩ | ⟨hnot, -⟩
  · cases hy.symm.trans hy'
    exact ⟨r, hm id r hr, hsel, by simp [Rows.registry, hr]⟩
  · exact absurd hid (hnot y hy)

theorem operations_cons (x : Performed) (xs : List Performed) :
    operations (x :: xs) = x.op.toList ++ operations xs := by
  simp only [operations, List.filterMap_cons]
  cases x.op <;> rfl

/-- Writes, one after the other. -/
theorem Replays.registry (h : Replays m₀ xs m) :
    m.registry = applyAll (operations xs) m₀.registry := by
  induction h with
  | nil => rfl
  | cons _ happlies ih =>
    rw [operations_cons, applyAll, List.foldr_append, happlies.registry, ih]
    rfl

/-- From coupled columns they are a path. -/
theorem Replays.path (h : Replays m₀ xs m) (h₀ : m₀.Coupled) :
    m.Coupled ∧ Path m₀.registry (operations xs) m.registry := by
  induction h with
  | nil => exact ⟨h₀, .nil⟩
  | @cons xs m m' x _ happlies ih =>
    obtain ⟨hcoupled, hpath⟩ := ih
    refine ⟨happlies.coupled hcoupled, ?_⟩
    rw [operations_cons, happlies.registry]
    cases hop : x.op with
    | none => exact hpath
    | some op => exact hpath.cons (happlies.guard hcoupled hop)

/-- Whoever had a host and does not have it any more has lost it by one of the writes. -/
theorem Replays.taken (h : Replays m₀ xs m) {u : UserId} {id : HostId}
    (h₀ : ∃ r, m₀.host id = some r ∧ r.userId = some u)
    (hnow : ¬ ∃ r, m.host id = some r ∧ r.userId = some u) :
    ∃ newer x older y, xs = newer ++ x :: older ∧ x.write = .hosts y ∧ id ∈ y.targets x.seen ∧
      (y.op x.seen).Takes u id := by
  induction h with
  | nil => exact absurd h₀ hnow
  | @cons xs m m' x _ happlies ih =>
    by_cases hheld : ∃ r, m.host id = some r ∧ r.userId = some u
    · -- It is this one.
      obtain ⟨r, hr, hu⟩ := hheld
      rcases happlies.hit_or_kept id with ⟨y, r', hy, hid, hr', hsel, hset⟩ | ⟨-, heq⟩
      · cases hr.symm.trans hr'
        have htakes : (y.op x.seen).Takes u id :=
          HostWrite.takes_of_set hid hsel hu fun hu' => hnow ⟨_, hset, hu'⟩
        exact ⟨[], x, xs, y, rfl, hy, hid, htakes⟩
      · exact absurd ⟨r, heq.trans hr, hu⟩ hnow
    · obtain ⟨newer, z, older, y, rfl, hz⟩ := ih hheld
      exact ⟨x :: newer, z, older, y, rfl, hz⟩

end Replays

theorem Tables.rows_coupled {t : Tables} (ht : ∀ h ∈ t.hosts, h.Coupled) :
    t.world.rows.Coupled := by
  intro id r hr
  obtain ⟨x, hx, -, rfl⟩ := t.world_host.mp hr
  exact ht x hx

/-! ## Runs -/

section Runs

variable {cfg : ServerConfig} {Cond : ServerHistory → ServerEvent → Prop} {t : Tables}
  {timer : ReleaseTimer} {c c₁ c₂ : Server}

/-- **The server refines the registry.** In every run, whatever fails, the leases in the tables are
    what the committed operations make of the first ones, one after the other and each when it was
    allowed; every one of them is a write of the call that committed it, on the hosts that its
    statement hit, and no call commits two. -/
theorem path_of_run (ht : ∀ h ∈ t.hosts, h.Coupled)
    (hrun : (server cfg).Run Cond (t.serverWith timer) c) :
    Path t.world.rows.registry (operations (performed c.hist.trace)) c.hist.state.rows.registry ∧
      (∀ x ∈ performed c.hist.trace, x.Permitted cfg c.hist.trace) ∧
      ((performed c.hist.trace).map fun x => (x.pid, x.calls)).Nodup := by
  obtain ⟨hcommitted, -⟩ := atomic_of_run hrun
  obtain ⟨newer, hnewer, hreplays⟩ := hcommitted.replays
  refine ⟨?_, hcommitted.permitted, hcommitted.once⟩
  rw [hnewer, show performed ([] : ServerTrace) = [] from rfl, List.append_nil]
  exact (hreplays.path (Tables.rows_coupled ht)).2

/-- `alice` presses the button while `bob` leases a host, one in the middle of the other. -/
def pressAndLease : List (Label Pid Env Entry) := List.flatten
  [[.call (.task 0) (.request aliceUser (.extendCallback 7 (some "extend:24"))),
    .call (.task 1) (.request bobUser (.apiLeaseRandom randomBody))],
    acting (.task 0) 5, acting (.task 1) 6, acting (.task 0) 4, acting (.task 1) 4]

/-- And after a turn of the timer `alice` releases what she has. -/
def pressAndRelease : List (Label Pid Env Entry) := List.flatten
  [pressAndLease, [.call .timer .turn], acting .timer 4,
    [.call (.task 0) (.request aliceUser .apiReleaseAll)], acting (.task 0) 4]

theorem path_of_run_small : ∃ c, (server smallConfig).Run (Machine.Calling Entry.proper)
      ((small (some (true, 5))).serverWith .new) c ∧ (performed c.hist.trace).length = 3 ∧
    Path (small (some (true, 5))).world.rows.registry (operations (performed c.hist.trace))
      c.hist.state.rows.registry := by
  obtain ⟨c, hrun, hc⟩ := (server smallConfig).exists_run_of_exec (Machine.Calling Entry.proper)
    ((small (some (true, 5))).serverWith .new) pressAndRelease
    (fun c => (performed c.hist.trace).length == 3) (by decide +kernel)
  exact ⟨c, hrun, by simpa using hc, (path_of_run (by decide) hrun).1⟩

/-- The call may take the host `id` away from `u`. -/
def Call.MayTake (u : UserId) (id : HostId) : Call → Prop
  | .lease _ v _ hostsIds _ => v ≠ u ∧ id ∈ hostsIds
  | .leaseRandom _ v _ _ _ => v ≠ u
  | .free v hostsIds => v = u ∧ id ∈ hostsIds
  | .freeAll v => v = u
  | .release => True
  | _ => False

/-- The entry may: a release of `u`'s own, a lease of somebody else, or the timer. -/
def Entry.MayTake (cfg : ServerConfig) (u : UserId) (id : HostId) : Entry → Prop
  | .request user req => ∃ κ, req.call cfg.hostsService user = some κ ∧ κ.MayTake u id
  | .turn => True
  | .login _ _ => False
  | .message _ _ => False

theorem Call.mayTake_of_writes {κ : Call} {y : HostWrite} {w : World} {u : UserId} {id : HostId}
    (hκ : κ.writes (.hosts y)) (htakes : (y.op w).Takes u id) : κ.MayTake u id := by
  have hhit : id ∈ y.targets w → ∃ r, y.sel id r = true := by
    intro hmem
    obtain ⟨r, -, hsel⟩ := HostWrite.mem_targets.mp hmem
    exact ⟨r, hsel⟩
  -- The user and the ids of the write are those of the call.
  cases κ with
  | lease service v groups ids leaseFor =>
    obtain ⟨deadline, hy⟩ := hκ
    cases hy
    obtain ⟨r, hsel⟩ := hhit htakes.1
    exact ⟨htakes.2, of_decide_eq_true hsel⟩
  | leaseRandom service v groups leaseFor groupId =>
    obtain ⟨id', deadline, hy⟩ := hκ
    cases hy
    exact htakes.2
  | free v ids =>
    cases hκ
    obtain ⟨r, hsel⟩ := hhit htakes.1
    exact ⟨htakes.2, (of_decide_eq_true hsel).1⟩
  | freeAll v =>
    cases hκ
    exact htakes.2
  | extendUserHosts tgHandle hours =>
    obtain ⟨ids, hy⟩ := hκ
    cases hy
    exact htakes.elim
  | linkUser link tgUserId =>
    obtain ⟨v, hy⟩ := hκ
    cases hy
  | authenticate username password =>
    obtain ⟨dn, email, hy⟩ := hκ
    cases hy
  | release => trivial
  | notifyReleasedHosts => exact hκ.elim
  | notifySoonRelease => exact hκ.elim

theorem Entry.mayTake_of_writes {κ : Entry} {y : HostWrite} {w : World} {u : UserId} {id : HostId}
    (hκ : κ.Writes cfg (.hosts y)) (htakes : (y.op w).Takes u id) : κ.MayTake cfg u id := by
  cases κ with
  | request user req =>
    obtain ⟨call, hcall, hwrites⟩ := hκ
    exact ⟨call, hcall, Call.mayTake_of_writes hwrites htakes⟩
  | login username password =>
    obtain ⟨dn, email, hy⟩ := hκ
    cases hy
  | message sender text =>
    obtain ⟨account, v, -, hy⟩ := hκ
    cases hy
  | turn => trivial

theorem exists_of_operation {xs : List Performed} {newer older : List (Op HostId UserId Time)}
    {op : Op HostId UserId Time} (h : operations xs = newer ++ op :: older) :
    ∃ ys x zs, xs = ys ++ x :: zs ∧ operations ys = newer ∧ x.op = some op ∧
      operations zs = older := by
  obtain ⟨ys, rest, rfl, hys, hrest⟩ := List.filterMap_eq_append_iff.mp h
  obtain ⟨skipped, x, zs, rfl, hskipped, hx, hzs⟩ := List.filterMap_eq_cons_iff.mp hrest
  refine ⟨ys ++ skipped, x, zs, by simp, ?_, hx, hzs⟩
  have hnone : operations skipped = [] := List.filterMap_eq_nil_iff.mpr hskipped
  rw [operations, List.filterMap_append]
  show List.filterMap Performed.op ys ++ operations skipped = newer
  rw [hnone, hys, List.append_nil]

/-- **Who takes a host**: if `u` held a host at some moment and does not hold it at a later one,
    then between the two a call has committed that may take it: a release by `u`, a lease of that
    host by somebody else, or a turn of the timer. -/
theorem taken_of_run (hrun₁ : (server cfg).Run Cond (t.serverWith timer) c₁)
    (hrun₂ : (server cfg).Run Cond c₁ c₂) {u : UserId} {id : HostId}
    (h₁ : ∃ r, c₁.hist.state.host id = some r ∧ r.userId = some u)
    (h₂ : ¬ ∃ r, c₂.hist.state.host id = some r ∧ r.userId = some u) :
    ∃ newer x older y κ,
      performed c₂.hist.trace = newer ++ x :: (older ++ performed c₁.hist.trace) ∧
      x.write = .hosts y ∧ id ∈ y.targets x.seen ∧
      Event.called x.pid x.calls κ ∈ c₂.hist.trace ∧ κ.MayTake cfg u id := by
  obtain ⟨xs, hxs, hreplays⟩ := (atomic_since hrun₁ hrun₂).replays
  obtain ⟨newer, x, older, y, rfl, hy, hid, htakes⟩ := hreplays.taken h₁ h₂
  have hmem : x ∈ performed c₂.hist.trace := by
    rw [hxs]
    exact List.mem_append_left _ (List.mem_append_right _ List.mem_cons_self)
  obtain ⟨⟨κ, hκ, hwrites⟩, -⟩ := (atomic_since hrun₁ hrun₂).permitted x hmem
  rw [hy] at hwrites
  exact ⟨newer, x, older, y, κ, by simp [hxs], hy, hid, hκ, Entry.mayTake_of_writes hwrites htakes⟩

/-- The host that was `alice`'s has been taken by her own release. -/
theorem taken_of_run_small : ∃ c, (server smallConfig).Run (Machine.Calling Entry.proper)
      ((small (some (true, 5))).serverWith .new) c ∧ ∃ newer x older y κ,
    performed c.hist.trace = newer ++ x :: (older ++ []) ∧ x.write = .hosts y ∧
      ⟨1⟩ ∈ y.targets x.seen ∧ Event.called x.pid x.calls κ ∈ c.hist.trace ∧
      κ.MayTake smallConfig alice.id ⟨1⟩ := by
  obtain ⟨c, hrun, hc⟩ := (server smallConfig).exists_run_of_exec (Machine.Calling Entry.proper)
    ((small (some (true, 5))).serverWith .new) pressAndRelease
    (fun c => c.hist.state.host ⟨1⟩ == some (host1 none).toHostRow) (by decide +kernel)
  refine ⟨c, hrun, taken_of_run (t := small (some (true, 5))) .refl hrun
    ⟨(host1 (some (true, 5))).toHostRow, rfl, rfl⟩ fun h => ?_⟩
  obtain ⟨r, hr, hu⟩ := h
  rw [eq_of_beq hc] at hr
  cases Option.some.inj hr
  cases hu

/-- **What a deadline is made of**: what a lease of its holder granted, or what was there in the
    beginning, and the extensions of that host that were committed since; and since then nobody has
    released or leased the host. -/
theorem origin_of_run (hrun : (server cfg).Run Cond (t.serverWith timer) c) {id : HostId}
    {r : HostRow} {u : UserId} {d : Time} (hr : c.hist.state.host id = some r)
    (hu : r.userId = some u) (hd : r.leasedUntil = some d) :
    (∃ newer x older ids deadline, performed c.hist.trace = newer ++ x :: older ∧
      x.write = .hosts (.leaseHosts u ids deadline) ∧ id ∈ ids ∧
      (∀ op ∈ operations newer, op.Keeps id) ∧ d = deadline + extensions id (operations newer)) ∨
    ∃ h ∈ t.hosts, h.id = id ∧ h.userId = some u ∧ ∃ d₀, h.leasedUntil = some d₀ ∧
      (∀ op ∈ operations (performed c.hist.trace), op.Keeps id) ∧
      d = d₀ + extensions id (operations (performed c.hist.trace)) := by
  obtain ⟨newer, hnewer, hreplays⟩ := (atomic_of_run hrun).1.replays
  rw [show performed ([] : ServerTrace) = [] from rfl, List.append_nil] at hnewer
  have hregistry := hreplays.registry
  rw [← hnewer] at hregistry
  have hl : c.hist.state.rows.registry id = some ⟨u, d⟩ := by
    show (c.hist.state.host id).bind HostRow.lease = _
    rw [hr]
    simp [HostRow.lease, hu, hd]
  -- The registry knows the origin: the operation is that of a write, the first lease that of a row.
  rw [hregistry] at hl
  rcases origin hl with ⟨ops, rest, deadline, s, hops, hid, hkeeps, hsum⟩ |
    ⟨l₀, hl₀, hu₀, hkeeps, hsum⟩
  · obtain ⟨ys, x, zs, hxs, rfl, hx, -⟩ := exists_of_operation hops
    obtain ⟨y, hy, hop⟩ := x.exists_hosts hx
    left
    cases y with
    | leaseHosts v ids deadline' =>
      cases hop
      obtain ⟨row, -, hsel⟩ := HostWrite.mem_targets.mp hid
      exact ⟨ys, x, zs, ids, deadline, hxs, hy, of_decide_eq_true hsel, hkeeps, hsum⟩
    | freeHostsForUser => cases hop
    | freeHosts => cases hop
    | freeAll => cases hop
    | extendHostsLease => cases hop
  · right
    obtain ⟨row, hrow, hlease⟩ := Option.bind_eq_some_iff.mp hl₀
    obtain ⟨h, hh, rfl, rfl⟩ := t.world_host.mp hrow
    unfold HostRow.lease at hlease
    split at hlease
    · rename_i v d₀ hv hd₀
      cases Option.some.inj hlease
      exact ⟨h, hh, rfl, hv.trans (congrArg some hu₀), d₀, hd₀, hkeeps, hsum⟩
    · cases hlease

/-- The deadline of the host that `alice` had until 5, after her day more. -/
theorem origin_of_run_small : ∃ c, (server smallConfig).Run (Machine.Calling Entry.proper)
      ((small (some (true, 5))).serverWith .new) c ∧
    ((∃ newer x older ids deadline, performed c.hist.trace = newer ++ x :: older ∧
      x.write = .hosts (.leaseHosts alice.id ids deadline) ∧ ⟨1⟩ ∈ ids ∧
      (∀ op ∈ operations newer, op.Keeps ⟨1⟩) ∧
      5 + TimeDelta.hours 24 = deadline + extensions ⟨1⟩ (operations newer)) ∨
    ∃ h ∈ (small (some (true, 5))).hosts, h.id = ⟨1⟩ ∧ h.userId = some alice.id ∧
      ∃ d₀, h.leasedUntil = some d₀ ∧
      (∀ op ∈ operations (performed c.hist.trace), op.Keeps ⟨1⟩) ∧
      5 + TimeDelta.hours 24 = d₀ + extensions ⟨1⟩ (operations (performed c.hist.trace))) := by
  obtain ⟨c, hrun, hc⟩ := (server smallConfig).exists_run_of_exec (Machine.Calling Entry.proper)
    ((small (some (true, 5))).serverWith .new) pressAndLease
    (fun c => c.hist.state.host ⟨1⟩ == some (host1 (some (true, 5 + TimeDelta.hours 24))).toHostRow)
    (by decide +kernel)
  exact ⟨c, hrun, origin_of_run hrun (eq_of_beq hc) rfl rfl⟩

end Runs

end Tachikoma
