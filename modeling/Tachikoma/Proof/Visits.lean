import Tachikoma.Proof.HostIds
import Tachikoma.Proof.LeaseAtomic
import Tachikoma.Proof.Releases
import Tachikoma.Server
import Tachikoma.Web.HostsPages

/-!
# A visit to the page of hosts

What the page shows is what there is, and what it offers can be had. A **visit** goes from page to
page as a browser does: look, tick some of the hosts that are offered and lease them, look again,
release them, look once more, all this with the cookie that remembers the group. `visit_exact` says
what comes of it when nobody else is at work: within the limit the ticked hosts have moved from the
first form to the second, over the limit the next page says why not and shows the same, and at the
end of it all **everything is as it was**.
-/

set_option autoImplicit false

namespace Tachikoma

open Interleaving Versioned Unordered

/-! ## Readings -/

section Readings

variable {ε ε' α : Type} {t : Tables} {p : Pid} {s : Setting} {n : Nat}

/-- A transaction of one reading. -/
theorem achieves_reading {q : Select} {f : SqlxError → ε} {A : Exit ε q.Rows → World → Prop}
    (hok : ∀ order rows n', q.run order t.view = .ok rows → A (.ok rows) ⟨t.db, n'⟩)
    (herr : ∀ order e n', q.run order t.view = .error e → A (.err (f e)) ⟨t.db, n'⟩)
    (hio : s.faults = true → ∀ n', A (.err (f .io)) ⟨t.db, n'⟩) :
    (withTx f fun tx => do
      let rows ← (tx.fetch q).mapErr f
      tx.commit.mapErr f
      return rows).Achieves s p ⟨t.db, n⟩ A := by
  have hdb : ∀ y n', ({ db := t.db.rollback y, nextTx := n' } : World) = ⟨t.db, n'⟩ := by
    intro y n'
    rw [Tables.db_rollback]
  refine Task.achieves_withTx ?_ fun hf => hio hf n
  refine Task.achieves_bind (Task.achieves_mapErr (Task.achieves_fetch (fun order => ?_)
    fun hf => ?_))
  · rw [show (⟨t.db, n + 1⟩ : World).db.view ⟨p, n⟩ = t.view from t.view_db _]
    cases hrun : q.run order t.view with
    | error e =>
      show A (.err (f e)) _
      rw [hdb]
      exact herr order e _ hrun
    | ok rows =>
      refine Task.achieves_bind (Task.achieves_mapErr (Task.achieves_commit ?_ fun hf => ?_))
      · refine Task.achieves_pure ?_
        show A (.ok rows) { db := (t.db.commit _).rollback _, nextTx := _ }
        rw [Tables.db_commit, hdb]
        exact hok order rows _ hrun
      · show A (.err (f .io)) { db := (t.db.rollback _).rollback _, nextTx := _ }
        rw [Tables.db_rollback, hdb]
        exact hio hf _
  · show A (.err (f .io)) _
    rw [hdb]
    exact hio hf _

theorem achieves_attempt {x : Task ε α} {w : World} {A : Exit ε' (Except ε α) → World → Prop}
    (h : x.Achieves s p w fun r w' => match r with
      | .ok a => A (.ok (.ok a)) w'
      | .err e => A (.ok (.error e)) w'
      | .panic msg => A (.panic msg) w') : (x.attempt : Task ε' (Except ε α)).Achieves s p w A := by
  refine Prog.Achieves.bind (actIn s) p h fun r w' hr => ?_
  cases r with
  | ok a => exact hr
  | err e => exact hr
  | panic msg => exact hr

theorem achieves_unwrap {x : Task ε α} {w : World} {A : Exit ε' α → World → Prop}
    (h : x.Achieves s p w fun r w' => match r with
      | .ok a => A (.ok a) w'
      | .err _ => A (.panic "called `Result::unwrap()` on an `Err` value") w'
      | .panic msg => A (.panic msg) w') : (unwrap x : Task ε' α).Achieves s p w A :=
  Task.achieves_bind (achieves_attempt h)

/-- The clock reads `now` for all of them. -/
theorem achieves_ofLeasedHosts {now : Time} {ls : List LeasedHost} {w : World} :
    (LeasedHostInfo.ofLeasedHosts ls : Task ε (List LeasedHostInfo)).Achieves (.calm now) p w
      fun r w' => w' = w ∧ ∃ infos, r = .ok infos ∧
        infos.map (·.info) = ls.map (HostInfo.ofLeasedHost now) := by
  induction ls with
  | nil => exact ⟨rfl, [], rfl, rfl⟩
  | cons l ls ih =>
    refine Task.achieves_bind (Task.achieves_utcNow fun now' hnow => ?_)
    refine Task.achieves_bind (ih.mono fun r w' hr => ?_)
    obtain ⟨rfl, infos, rfl, hinfos⟩ := hr
    obtain rfl := hnow now rfl
    refine Task.achieves_pure ⟨rfl, _, rfl, ?_⟩
    rw [List.map_cons, List.map_cons, hinfos]

end Readings

/-! ## What the page shows -/

/-- The hosts of a group that can be leased. -/
def Tables.freeOf (t : Tables) (groupId : GroupId) : List Host :=
  t.hosts.filter fun h => h.userId = none ∧ h.groupId = groupId

namespace HostsLeasePage

/-- The page is one of these tables, for the user `u` and the group. -/
structure Shows (t : Tables) (u : UserId) (groupId : GroupId) (now : Time) (page : HostsLeasePage) :
    Prop where
  offered : page.hosts.Perm ((t.freeOf groupId).map HostInfo.ofFreeHost)
  leased : (page.leased.map (·.info.id)).Perm ((t.hostsOf u).map (·.id))
  leases : ∀ info ∈ page.leased, ∃ h ∈ t.hostsOf u, ∃ user ∈ t.users, user.id = u ∧
    info.info = HostInfo.ofHost now h (some user)

variable {t : Tables} {u : UserId} {groupId : GroupId} {now : Time} {page : HostsLeasePage}

theorem Shows.boxes_perm (h : page.Shows t u groupId now) :
    page.boxes.Perm (((t.freeOf groupId).map (·.id)).map HostId.display) := by
  have hids := h.offered.map (·.id.display)
  rwa [List.map_map] at hids ⊢

theorem Shows.leasedBoxes_perm (h : page.Shows t u groupId now) :
    page.leasedBoxes.Perm (((t.hostsOf u).map (·.id)).map HostId.display) := by
  have hids := h.leased.map HostId.display
  rw [List.map_map] at hids
  exact hids

end HostsLeasePage

section Page

variable {t : Tables} {p : Pid} {n : Nat} {now : Time} {settings : PageSettings} {user : AuthUser}

/-- A row of the join is shown as the host and its holder. -/
theorem ofLeasedHost_ofRow {h : Host} {u : User} {l : LeasedHost}
    (hl : LeasedHost.ofRow (h, u) = .ok l) :
    HostInfo.ofLeasedHost now l = HostInfo.ofHost now h (some u) := by
  unfold LeasedHost.ofRow at hl
  split at hl
  · rename_i d hd
    cases Except.ok.inj hl
    have hd : h.leasedUntil = some d := hd
    simp [HostInfo.ofLeasedHost, HostInfo.ofHost, leaseInfoOf, hd]
  · cases hl

/-- **The page is what there is.** -/
theorem achieves_getHosts (hdated : t.Dated user.id) {first : Group} {rest : List Group}
    {groupId : Option GroupId} {cookie : Option String} {flashes : List (FlashLevel × String)} :
    (Page.getHosts settings (first :: rest) user groupId cookie flashes).Achieves (.calm now) p
      ⟨t.db, n⟩ fun r w' => w'.db = t.db ∧ ∃ page,
        r = .ok ((Page.askedGroup first groupId cookie).display, page) ∧
        page.page.Shows t user.id (Page.selectedGroup first (first :: rest)
          (Page.askedGroup first groupId cookie)).id now ∧
        page.page.selectedGroup = .ofGroup (Page.selectedGroup first (first :: rest)
          (Page.askedGroup first groupId cookie)) ∧
        page.page.error = flashes.head?.map (·.2) := by
  refine Task.achieves_bind (achieves_unwrap (achieves_reading (fun order hosts n₁ hhosts => ?_)
    (fun order e n₁ herr => by cases herr) fun hf => by cases hf))
  refine Task.achieves_bind (achieves_unwrap (achieves_reading (fun order' ls n₂ hls => ?_)
    (fun order' e n₂ herr => ?_) fun hf => by cases hf))
  · refine Task.achieves_bind (achieves_ofLeasedHosts.mono fun r w' hr => ?_)
    obtain ⟨rfl, infos, rfl, hinfos⟩ := hr
    refine Task.achieves_pure ⟨rfl, _, rfl, ⟨?_, ?_, fun info hinfo => ?_⟩, rfl, rfl⟩
    · cases hhosts
      exact (orderBy_perm _ _ _).map _
    · have hids : infos.map (·.info.id) = List.map LeasedHost.id ls := by
        have hmap := congrArg (List.map HostInfo.id) hinfos
        rw [List.map_map] at hmap
        exact hmap.trans (List.map_map (l := ls))
      show (infos.map (·.info.id)).Perm _
      rw [hids]
      exact ids_of_getLeasedHosts hls
    · have hmem : info.info ∈ List.map (HostInfo.ofLeasedHost now) ls := by
        rw [← hinfos]
        exact List.mem_map_of_mem hinfo
      obtain ⟨l, hl, heq⟩ := List.mem_map.mp hmem
      obtain ⟨⟨h, u⟩, hrow, hofRow⟩ := (mem_of_decodeAll hls).mp hl
      simp only [mem_orderBy, List.mem_filter, decide_eq_true_eq, mem_join] at hrow
      obtain ⟨⟨hh, hu, hheld⟩, hown⟩ := hrow
      refine ⟨h, Tables.mem_hostsOf.mpr ⟨hh, hown⟩, u, hu, ?_, ?_⟩
      · exact Option.some.inj (hheld.symm.trans hown)
      · rw [← heq, ofLeasedHost_ofRow hofRow]
  · have hread : ∃ ls, Select.run order' (t.db.view ⟨p, 0⟩) (.getLeasedHosts user.id) = .ok ls :=
      Tables.exists_getLeasedHosts hdated
    rw [t.view_db] at hread
    obtain ⟨ls, hls⟩ := hread
    cases hls.symm.trans herr

end Page

/-! ## Leasing what is offered -/

namespace HostWrite

variable {u : UserId} {ids : List HostId} {until_ : Time} {h : Host}

theorem apply_lease_of_mem (hid : h.id ∈ ids) : (leaseHosts u ids until_).apply h =
    { h with userId := some u, leasedUntil := some until_ } :=
  apply_of_sel _ (decide_eq_true hid)

theorem apply_lease_of_not_mem (hid : h.id ∉ ids) : (leaseHosts u ids until_).apply h = h :=
  apply_of_not_sel _ (decide_eq_false hid)

end HostWrite

namespace Tables

variable {t : Tables} {u : UserId} {ids : List HostId} {until_ : Time}

/-- The ids are those of hosts that nobody has. -/
def AllFree (t : Tables) (ids : List HostId) : Prop :=
  ∀ id ∈ ids, ∃ h ∈ t.hosts, h.id = id ∧ h.userId = none

theorem AllFree.userId (hfree : t.AllFree ids) {h : Host} (hh : h ∈ t.hosts) (hid : h.id ∈ ids) :
    h.userId = none := by
  obtain ⟨h', hh', heq, hu⟩ := hfree h.id hid
  rwa [List.inj_on_of_nodup_map t.hosts_pkey hh' hh heq] at hu

theorem ownOf_of_allFree (hfree : t.AllFree ids) : t.ownOf u ids = [] := by
  rw [ownOf, List.filter_eq_nil_iff]
  intro id hid hmem
  obtain ⟨h, hh, rfl⟩ := List.mem_map.mp hid
  obtain ⟨hh, hheld⟩ := mem_hostsOf.mp hh
  rw [hfree.userId hh (of_decide_eq_true hmem)] at hheld
  cases hheld

/-- What is leased is not offered any more, and the rest is. -/
theorem freeOf_update (hx : t.Grantable (.leaseHosts u ids until_)) (groupId : GroupId) :
    (t.update _ hx).freeOf groupId = (t.freeOf groupId).filter fun h => h.id ∉ ids := by
  show (t.hosts.map _).filter _ = (t.hosts.filter _).filter _
  induction t.hosts with
  | nil => rfl
  | cons h hosts ih =>
    by_cases hid : h.id ∈ ids
    · rw [List.map_cons, HostWrite.apply_lease_of_mem hid, List.filter_cons_of_neg (by simp), ih]
      by_cases hh : h.userId = none ∧ h.groupId = groupId
      · rw [List.filter_cons_of_pos (by simpa using hh),
          List.filter_cons_of_neg (by simpa using hid)]
      · rw [List.filter_cons_of_neg (by simpa using hh)]
    · rw [List.map_cons, HostWrite.apply_lease_of_not_mem hid]
      by_cases hh : h.userId = none ∧ h.groupId = groupId
      · rw [List.filter_cons_of_pos (by simpa using hh),
          List.filter_cons_of_pos (by simpa using hh),
          List.filter_cons_of_pos (by simpa using hid), ih]
      · rw [List.filter_cons_of_neg (by simpa using hh),
          List.filter_cons_of_neg (by simpa using hh), ih]

theorem nodup_hostsOf (t : Tables) (u : UserId) : ((t.hostsOf u).map (·.id)).Nodup :=
  t.hosts_pkey.sublist (List.filter_sublist.map _)

/-- The user has it besides what he had. -/
theorem hostsOf_update (hx : t.Grantable (.leaseHosts u ids until_)) (hfree : t.AllFree ids) :
    (((t.update _ hx).hostsOf u).map (·.id)).Perm ((t.hostsOf u).map (·.id) ++ ids.dedup) := by
  have hdisjoint : ∀ id ∈ (t.hostsOf u).map (·.id), id ∉ ids.dedup := by
    intro id hid hmem
    obtain ⟨h, hh, rfl⟩ := List.mem_map.mp hid
    obtain ⟨hh, hheld⟩ := mem_hostsOf.mp hh
    rw [hfree.userId hh (List.mem_dedup.mp hmem)] at hheld
    cases hheld
  have hnodup : ((t.hostsOf u).map (·.id) ++ ids.dedup).Nodup :=
    (nodup_hostsOf t u).append (List.nodup_dedup ids) fun id hid hmem => hdisjoint id hid hmem
  rw [List.perm_ext_iff_of_nodup (nodup_hostsOf _ u) hnodup]
  intro id
  simp only [List.mem_map, List.mem_append, List.mem_dedup, mem_hostsOf]
  constructor
  · intro hyp
    obtain ⟨h', ⟨hmem, hheld⟩, rfl⟩ := hyp
    obtain ⟨h, hh, rfl⟩ := List.mem_map.mp hmem
    rw [HostWrite.apply_id]
    by_cases hid : h.id ∈ ids
    · exact .inr hid
    · rw [HostWrite.apply_lease_of_not_mem hid] at hheld
      exact .inl ⟨h, ⟨hh, hheld⟩, rfl⟩
  · intro hyp
    rcases hyp with ⟨h, ⟨hh, hheld⟩, rfl⟩ | hid
    · refine ⟨h, ⟨List.mem_map.mpr ⟨h, hh, HostWrite.apply_lease_of_not_mem ?_⟩, hheld⟩, rfl⟩
      intro hid
      rw [hfree.userId hh hid] at hheld
      cases hheld
    · obtain ⟨h, hh, rfl, -⟩ := hfree id hid
      refine ⟨_, ⟨List.mem_map_of_mem hh, ?_⟩, HostWrite.apply_id _ h⟩
      rw [HostWrite.apply_lease_of_mem hid]

/-- **And gives it back**: the tables are what they were. -/
theorem release_update (hx : t.Grantable (.leaseHosts u ids until_)) (hfree : t.AllFree ids)
    (hcoupled : ∀ h ∈ t.hosts, h.Coupled) : (t.update _ hx).release (u, .free ids) = t := by
  refine ext_hosts ?_ rfl rfl rfl rfl
  rw [release_hosts]
  show (t.hosts.map _).map _ = t.hosts
  rw [List.map_map, List.map_congr_left (g := id) fun h hh => ?_, List.map_id]
  show (if _ then _ else _) = h
  by_cases hid : h.id ∈ ids
  · have hu : h.userId = none := hfree.userId hh hid
    have hd : h.leasedUntil = none := (hcoupled h hh).mp hu
    have hsel : (HostWrite.freeHostsForUser ids u).sel h.id
        { h.toHostRow with userId := some u, leasedUntil := some until_ } = true :=
      decide_eq_true ⟨hid, rfl⟩
    rw [HostWrite.apply_lease_of_mem hid]
    refine (if_pos hsel).trans ?_
    obtain ⟨⟨hostname, ipAddress, leasedUntil, userId, groupId⟩, id⟩ := h
    cases hu
    cases hd
    rfl
  · rw [HostWrite.apply_lease_of_not_mem hid, if_neg]
    simp [Release.write, HostWrite.sel, hid]

/-- A release of hosts that nobody has comes to nothing. -/
theorem release_of_allFree (hfree : t.AllFree ids) : t.release (u, .free ids) = t := by
  refine ext_hosts ?_ rfl rfl rfl rfl
  rw [release_hosts, List.map_congr_left (g := id) fun h hh => ?_, List.map_id]
  rw [if_neg]
  · rfl
  · intro hsel
    obtain ⟨hid, hheld⟩ := of_decide_eq_true hsel
    rw [hfree.userId hh hid] at hheld
    cases hheld

end Tables

/-! ## The forms -/

section Forms

variable {days hours : String} {ids : List HostId}

theorem filter_hostsIds (name : String) (hname : name ≠ "hosts_ids") (ids : List HostId) :
    (ids.map fun id => ("hosts_ids", id.display)).filter (fun entry => entry.1 = name) = [] := by
  rw [List.filter_eq_nil_iff]
  intro entry hentry
  obtain ⟨id, -, rfl⟩ := List.mem_map.mp hentry
  simpa using hname.symm

/-- The form that is sent is the form that is read. -/
theorem decode_leaseForm {d h : Int} (hdays : Days.tryFrom days = .ok d)
    (hhours : Hours.tryFrom hours = .ok h) :
    LeaseForm.decode (leaseForm days hours (ids.map HostId.display)) = .ok ⟨d, h, ids⟩ := by
  have hform : leaseForm days hours (ids.map HostId.display) =
      ("days", days) :: ("hours", hours) :: ids.map fun id => ("hosts_ids", id.display) := by
    rw [leaseForm, List.map_map]
    rfl
  have hd : Form.field Days.tryFrom "days"
      (leaseForm days hours (ids.map HostId.display)) = .ok d := by
    simp [hform, Form.field, filter_hostsIds "days" (by decide), hdays]
  have hh : Form.field Hours.tryFrom "hours"
      (leaseForm days hours (ids.map HostId.display)) = .ok h := by
    simp [hform, Form.field, filter_hostsIds "hours" (by decide), hhours]
  have hids : Form.values HostId.tryFrom "hosts_ids"
      (leaseForm days hours (ids.map HostId.display)) = .ok ids := by
    rw [← values_hostsIds ids, hform]
    rfl
  simp only [LeaseForm.decode, hd, hh, hids]
  rfl

/-- A form without a box has nothing to read. -/
theorem decode_releaseForm : ReleaseForm.decode (releaseForm (ids.map HostId.display)) =
    if ids = [] then .error (.missingField "hosts_ids") else .ok ⟨ids⟩ := by
  have hform :
      releaseForm (ids.map HostId.display) = ids.map fun id => ("hosts_ids", id.display) := by
    rw [releaseForm, List.map_map]
    rfl
  rw [hform, ReleaseForm.decode, values_hostsIds]
  cases ids with
  | nil => rfl
  | cons id ids => simp

end Forms

theorem HostId.display_injective : Function.Injective HostId.display := by
  intro a b h
  have ha := HostId.tryFrom_display a
  rw [h, HostId.tryFrom_display b] at ha
  exact (Except.ok.inj ha).symm

theorem GroupId.fromStr_display (id : GroupId) : GroupId.fromStr id.display = .ok id := by
  have hlo : -2 ^ 31 ≤ id.val.toInt := id.val.le_toInt
  have hhi : id.val.toInt < 2 ^ 31 := id.val.toInt_lt
  rw [GroupId.fromStr, GroupId.display, Decimal.parse_toString hlo hhi]
  simp

/-- The cookie remembers the group. -/
theorem Page.askedGroup_cookie (first : Group) (groupId : GroupId) :
    Page.askedGroup first none (some groupId.display) = groupId := by
  simp [Page.askedGroup, GroupId.fromStr_display, Except.toOption]

/-! ## A visit -/

/-- What a browser has seen and been answered, and which boxes were ticked. -/
structure Visit where
  before : HostsPage HostsLeasePage
  ticked : List String
  leased : PageResponse
  during : HostsPage HostsLeasePage
  released : PageResponse
  after : HostsPage HostsLeasePage

/-- The second half of it: both forms lead back to the page, without a query and with the cookie
    that the page has set. -/
def revisit (settings : PageSettings) (groups : List Group) (user : AuthUser)
    (before : String × HostsPage HostsLeasePage) (ticked : List String) (leased : PageResponse) :
    Task Infallible Visit := do
  let during ← Page.getHosts settings groups user none (some before.1) leased.flashes
  let released ← Page.releaseHosts user (releaseForm ticked)
  let after ← Page.getHosts settings groups user none (some during.1) released.flashes
  return { before := before.2, ticked, leased, during := during.2, released, after := after.2 }

/-- `tick` chooses among the boxes of the first form. -/
def visit (settings : PageSettings) (groups : List Group) (service : HostsService) (user : AuthUser)
    (groupId : Option GroupId) (cookie : Option String) (tick : List String → List String)
    (days hours : String) : Task Infallible Visit := do
  let before ← Page.getHosts settings groups user groupId cookie []
  let ticked := tick before.2.page.boxes
  let leased ← Page.leaseHosts service user (leaseForm days hours ticked)
  revisit settings groups user before ticked leased

/-- What comes of it; `held` hosts are the user's beforehand. -/
structure Visit.Exact (held limit : Nat) (v : Visit) : Prop where
  /-- Within the limit the ticked hosts go from the first form to the second. -/
  granted : held + v.ticked.dedup.length ≤ limit →
    v.leased = .redirect none "/hosts" ∧ v.during.page.error = none ∧
      v.during.page.boxes.Perm (v.before.page.boxes.filter (· ∉ v.ticked)) ∧
      v.during.page.leasedBoxes.Perm (v.before.page.leasedBoxes ++ v.ticked.dedup)
  /-- Over it the next page says why not. -/
  refused : limit < held + v.ticked.dedup.length →
    v.leased = .redirect (some (.error, "Hosts lease limit is reached")) "/hosts" ∧
      v.during.page.error = some "Hosts lease limit is reached" ∧
      v.during.page.boxes.Perm v.before.page.boxes ∧
      v.during.page.leasedBoxes.Perm v.before.page.leasedBoxes
  /-- A release of nothing is no request. -/
  released : v.released = if v.ticked = [] then .rejected (.missingField "hosts_ids")
    else .redirect none "/hosts"
  after : v.after.page.error = none ∧ v.after.page.boxes.Perm v.before.page.boxes ∧
    v.after.page.leasedBoxes.Perm v.before.page.leasedBoxes
  /-- All pages are of one group. -/
  selected : v.during.page.selectedGroup = v.before.page.selectedGroup ∧
    v.after.page.selectedGroup = v.before.page.selectedGroup

section Visit

variable {t : Tables} {p : Pid} {n : Nat} {now : Time} {settings : PageSettings} {user : AuthUser}
  {service : HostsService} {limit : Nat} {ids : List HostId} {days hours : String} {d h : Int}

/-- The first form, for hosts that are free. -/
theorem achieves_pageLeaseHosts (hu : ∃ u ∈ t.users, u.id = user.id) (hdated : t.Dated user.id)
    (hlimit : t.limit service user.groups = some limit) (hfree : t.AllFree ids)
    (hdays : Days.tryFrom days = .ok d) (hhours : Hours.tryFrom hours = .ok h)
    (hin : Storable (now + TimeDelta.hours (h + d * 24))) :
    (Page.leaseHosts service user (leaseForm days hours (ids.map HostId.display))).Achieves
      (.calm now) p ⟨t.db, n⟩ fun r w' =>
        ((t.hostsOf user.id).length + ids.dedup.length ≤ limit ∧ r = .ok (.redirect none "/hosts") ∧
          ∃ until_ hx, w'.db = (t.update (.leaseHosts user.id ids until_) hx).db) ∨
        (limit < (t.hostsOf user.id).length + ids.dedup.length ∧
          r = .ok (.redirect (some (.error, "Hosts lease limit is reached")) "/hosts") ∧
          w'.db = t.db) := by
  have hown : t.NoneOwn user.id ids :=
    Tables.noneOwn_iff.mpr ⟨hdated, Tables.ownOf_of_allFree hfree⟩
  unfold Page.leaseHosts
  rw [decode_leaseForm hdays hhours]
  refine Task.achieves_bind (achieves_attempt ((achieves_lease n).mono fun r w' hcomes => ?_))
  rcases hcomes with ⟨now', hnow, houtcome⟩ | ⟨hf, -⟩
  · obtain rfl := hnow now rfl
    generalize hdb : w'.db = db at houtcome
    cases houtcome with
    | undated hno => exact absurd hdated hno
    | alreadyLeased _ own hperm hne =>
      rw [Tables.ownOf_of_allFree hfree] at hperm
      exact absurd hperm.eq_nil hne
    | badLimit _ hno =>
      rw [hlimit] at hno
      cases hno
    | leaseLimit _ limit' hlimit' hlt =>
      cases Option.some.inj (hlimit.symm.trans hlimit')
      exact Task.achieves_pure (.inr ⟨hlt, rfl, hdb⟩)
    | overflow _ _ hout => exact absurd hin.1 hout
    | refused _ _ _ hno => exact absurd (Tables.grantable_of_user hu hin.2) hno
    | granted _ hfits _ hx order leased hleased =>
      obtain ⟨limit', hlimit', hle⟩ := hfits
      cases Option.some.inj (hlimit.symm.trans hlimit')
      exact Task.achieves_pure (.inl ⟨hle, rfl, _, hx, hdb⟩)
  · cases hf

/-- The second form. -/
theorem achieves_pageReleaseHosts :
    (Page.releaseHosts user (releaseForm (ids.map HostId.display))).Achieves
      (.calm now) p ⟨t.db, n⟩ fun r w' =>
        r = .ok
          (if ids = [] then .rejected (.missingField "hosts_ids") else .redirect none "/hosts") ∧
          w'.db = (t.release (user.id, .free ids)).db := by
  unfold Page.releaseHosts
  rw [decode_releaseForm]
  by_cases hnil : ids = []
  · simp only [if_pos hnil]
    subst hnil
    rw [Tables.release_of_allFree fun _ hid => absurd hid List.not_mem_nil]
    exact Task.achieves_pure ⟨rfl, rfl⟩
  · simp only [if_neg hnil]
    refine Task.achieves_bind (achieves_attempt ((achieves_release (user.id, .free ids) n).mono
      fun r w' hr => ?_))
    rcases hr with ⟨rfl, hdb⟩ | ⟨hf, -⟩
    · exact Task.achieves_pure ⟨rfl, hdb⟩
    · cases hf

/-- What is ticked are ids of hosts that are free. -/
theorem exists_ticked {groupId : GroupId} {page : HostsLeasePage}
    (hshows : page.Shows t user.id groupId now) {ticked : List String}
    (hticked : ticked ⊆ page.boxes) :
    ∃ ids : List HostId, ticked = ids.map HostId.display ∧ t.AllFree ids := by
  induction ticked with
  | nil => exact ⟨[], rfl, fun _ hid => absurd hid List.not_mem_nil⟩
  | cons value ticked ih =>
    obtain ⟨ids, rfl, hfree⟩ := ih fun _ hv => hticked (List.mem_cons_of_mem _ hv)
    have hmem := hshows.boxes_perm.mem_iff.mp (hticked List.mem_cons_self)
    obtain ⟨id, hid, rfl⟩ := List.mem_map.mp hmem
    refine ⟨id :: ids, rfl, fun id' hid' => ?_⟩
    rcases List.mem_cons.mp hid' with rfl | hid'
    · obtain ⟨h, hh, rfl⟩ := List.mem_map.mp hid
      rw [Tables.freeOf, List.mem_filter, decide_eq_true_eq] at hh
      exact ⟨h, hh.1, rfl, hh.2.1⟩
    · exact hfree id' hid'

section Shown

variable {t' : Tables} {groupId : GroupId} {before during : HostsLeasePage} {until_ : Time}

/-- Two pages of the same tables have the same boxes. -/
theorem HostsLeasePage.Shows.boxes_congr (hb : before.Shows t user.id groupId now)
    (hd : during.Shows t user.id groupId now) : during.boxes.Perm before.boxes ∧
      during.leasedBoxes.Perm before.leasedBoxes :=
  ⟨hd.boxes_perm.trans hb.boxes_perm.symm, hd.leasedBoxes_perm.trans hb.leasedBoxes_perm.symm⟩

/-- Between a page and the page after the lease, the ticked boxes have moved. -/
theorem HostsLeasePage.Shows.boxes_update (hx : t.Grantable (.leaseHosts user.id ids until_))
    (hfree : t.AllFree ids) (hb : before.Shows t user.id groupId now)
    (hd : during.Shows (t.update _ hx) user.id groupId now) :
    during.boxes.Perm (before.boxes.filter (· ∉ ids.map HostId.display)) ∧
      during.leasedBoxes.Perm (before.leasedBoxes ++ (ids.map HostId.display).dedup) := by
  have hmem : ∀ id : HostId, id.display ∉ ids.map HostId.display ↔ id ∉ ids := fun id =>
    not_congr (List.mem_map_of_injective HostId.display_injective)
  constructor
  · refine hd.boxes_perm.trans (List.Perm.trans ?_ (hb.boxes_perm.filter _).symm)
    rw [Tables.freeOf_update, List.filter_map, List.filter_map, List.map_map, List.map_map]
    simp only [Function.comp_def, hmem]
    exact List.Perm.refl _
  · refine hd.leasedBoxes_perm.trans
      (((Tables.hostsOf_update hx hfree).map HostId.display).trans ?_)
    rw [List.map_append, List.dedup_map_of_injective HostId.display_injective]
    exact hb.leasedBoxes_perm.symm.append_right _

end Shown

theorem dated_of_coupled (hcoupled : ∀ h ∈ t.hosts, h.Coupled) (u : UserId) : t.Dated u := by
  intro h hh hnone
  obtain ⟨hh, hheld⟩ := Tables.mem_hostsOf.mp hh
  rw [(hcoupled h hh).mpr hnone] at hheld
  cases hheld

/-- The second half, from tables that a release of the ticked hosts leads back to `t`. -/
theorem achieves_revisit {t' : Tables} (hdated : t.Dated user.id) (hdated' : t'.Dated user.id)
    (hback : t'.release (user.id, .free ids) = t) {first : Group} {rest : List Group}
    {asked : GroupId} {before : HostsPage HostsLeasePage} {leased : PageResponse} :
    (revisit settings (first :: rest) user (asked.display, before) (ids.map HostId.display)
      leased).Achieves (.calm now) p ⟨t'.db, n⟩ fun r w' => w'.db = t.db ∧ ∃ v, r = .ok v ∧
        v.before = before ∧ v.ticked = ids.map HostId.display ∧ v.leased = leased ∧
        v.during.page.Shows t' user.id (Page.selectedGroup first (first :: rest) asked).id now ∧
        v.during.page.selectedGroup = .ofGroup (Page.selectedGroup first (first :: rest) asked) ∧
        v.during.page.error = leased.flashes.head?.map (·.2) ∧
        v.released = (if ids = [] then .rejected (.missingField "hosts_ids")
          else .redirect none "/hosts") ∧
        v.after.page.Shows t user.id (Page.selectedGroup first (first :: rest) asked).id now ∧
        v.after.page.selectedGroup = .ofGroup (Page.selectedGroup first (first :: rest) asked) ∧
        v.after.page.error = none := by
  refine Task.achieves_bind ((achieves_getHosts hdated').mono fun r w₁ hr => ?_)
  obtain ⟨hw₁, during, rfl, hduring, hselected, herror⟩ := hr
  obtain ⟨db₁, n₁⟩ := w₁
  obtain rfl : db₁ = t'.db := hw₁
  rw [Page.askedGroup_cookie] at hduring hselected
  refine Task.achieves_bind (achieves_pageReleaseHosts.mono fun r w₂ hr => ?_)
  obtain ⟨rfl, hw₂⟩ := hr
  rw [hback] at hw₂
  obtain ⟨db₂, n₂⟩ := w₂
  obtain rfl : db₂ = t.db := hw₂
  refine Task.achieves_bind ((achieves_getHosts hdated).mono fun r w₃ hr => ?_)
  obtain ⟨hw₃, after, rfl, hafter, hselected', herror'⟩ := hr
  rw [Page.askedGroup_cookie, Page.askedGroup_cookie] at hafter hselected'
  refine Task.achieves_pure ⟨hw₃, _, rfl, rfl, rfl, rfl, hduring, hselected, herror, rfl, hafter,
    hselected', herror'.trans ?_⟩
  by_cases hnil : ids = []
  · rw [if_pos hnil]
    rfl
  · rw [if_neg hnil]
    rfl

/-- **A visit**, with nobody else at work. -/
theorem achieves_visit (hu : ∃ u ∈ t.users, u.id = user.id) (hcoupled : ∀ h ∈ t.hosts, h.Coupled)
    (hlimit : t.limit service user.groups = some limit) {first : Group} {rest : List Group}
    {groupId : Option GroupId} {cookie : Option String} {tick : List String → List String}
    (htick : ∀ boxes, tick boxes ⊆ boxes) (hdays : Days.tryFrom days = .ok d)
    (hhours : Hours.tryFrom hours = .ok h) (hin : Storable (now + TimeDelta.hours (h + d * 24))) :
    (visit settings (first :: rest) service user groupId cookie tick days hours).Achieves
      (.calm now) p
      ⟨t.db, n⟩ fun r w' => w'.db = t.db ∧ ∃ v, r = .ok v ∧
        v.before.page.Shows t user.id (Page.selectedGroup first (first :: rest)
          (Page.askedGroup first groupId cookie)).id now ∧
        v.before.page.selectedGroup = .ofGroup (Page.selectedGroup first (first :: rest)
          (Page.askedGroup first groupId cookie)) ∧
        v.ticked = tick v.before.page.boxes ∧ v.Exact (t.hostsOf user.id).length limit := by
  have hdated : t.Dated user.id := dated_of_coupled hcoupled user.id
  refine Task.achieves_bind ((achieves_getHosts hdated).mono fun r w₁ hr => ?_)
  obtain ⟨hw₁, before, rfl, hbefore, hselected, -⟩ := hr
  obtain ⟨db₁, n₁⟩ := w₁
  obtain rfl : db₁ = t.db := hw₁
  obtain ⟨ids, hids, hfree⟩ := exists_ticked hbefore (htick before.page.boxes)
  have hlength : (ids.map HostId.display).dedup.length = ids.dedup.length := by
    rw [List.dedup_map_of_injective HostId.display_injective, List.length_map]
  refine Task.achieves_bind ?_
  dsimp only
  rw [hids]
  refine (achieves_pageLeaseHosts hu hdated hlimit hfree hdays hhours hin).mono fun r w₂ hr => ?_
  obtain ⟨db₂, n₂⟩ := w₂
  rcases hr with ⟨hle, rfl, until_, hx, hw₂⟩ | ⟨hlt, rfl, hw₂⟩
  · -- It is granted: the tables are others in between.
    obtain rfl : db₂ = (t.update _ hx).db := hw₂
    have hback := Tables.release_update hx hfree hcoupled
    refine (achieves_revisit hdated (Tables.dated_update hdated hx) hback).mono fun r w' hr => ?_
    obtain ⟨hw', v, rfl, rfl, hticked, hleased, hduring, hselected₁, herror₁, hreleased, hafter,
      hselected₂, herror₂⟩ := hr
    obtain ⟨hboxes, hleasedBoxes⟩ := hbefore.boxes_update hx hfree hduring
    refine ⟨hw', v, rfl, hbefore, hselected, hticked.trans hids.symm, ?_, fun hlt => ?_, ?_, ?_, ?_⟩
    · intro _
      rw [hticked]
      exact ⟨hleased, herror₁, hboxes, hleasedBoxes⟩
    · rw [hticked, hlength] at hlt
      omega
    · rw [hreleased, hticked]
      simp only [List.map_eq_nil_iff]
    · exact ⟨herror₂, hbefore.boxes_congr hafter⟩
    · exact ⟨hselected₁.trans hselected.symm, hselected₂.trans hselected.symm⟩
  · obtain rfl : db₂ = t.db := hw₂
    have hback := Tables.release_of_allFree (u := user.id) hfree
    refine (achieves_revisit hdated hdated hback).mono fun r w' hr => ?_
    obtain ⟨hw', v, rfl, rfl, hticked, hleased, hduring, hselected₁, herror₁, hreleased, hafter,
      hselected₂, herror₂⟩ := hr
    refine ⟨hw', v, rfl, hbefore, hselected, hticked.trans hids.symm, fun hle => ?_, ?_, ?_, ?_, ?_⟩
    · rw [hticked, hlength] at hle
      omega
    · intro _
      exact ⟨hleased, herror₁, hbefore.boxes_congr hduring⟩
    · rw [hreleased, hticked]
      simp only [List.map_eq_nil_iff]
    · exact ⟨herror₂, hbefore.boxes_congr hafter⟩
    · exact ⟨hselected₁.trans hselected.symm, hselected₂.trans hselected.symm⟩

/-- The group of the page is one of the groups, and the one that was asked for if there is such a
    group. -/
theorem selectedGroup_mem (first : Group) (rest : List Group) (groupId : GroupId) :
    Page.selectedGroup first (first :: rest) groupId ∈ first :: rest ∧
      ∀ group ∈ first :: rest, group.id = groupId →
        (Page.selectedGroup first (first :: rest) groupId).id = groupId := by
  unfold Page.selectedGroup
  cases hfind : (first :: rest).find? fun group => group.id = groupId with
  | none =>
    refine ⟨List.mem_cons_self, fun group hgroup hid => ?_⟩
    have hno := List.find?_eq_none.mp hfind group hgroup
    exact absurd (decide_eq_true hid) hno
  | some group =>
    refine ⟨List.mem_of_find?_eq_some hfind, fun _ _ _ => ?_⟩
    have hid := List.find?_some hfind
    exact of_decide_eq_true hid

/-- **What the page offers can be had, and given back.** With nobody else at work, nothing failing
    and a deadline that can be stored, a visit sees the tables as they are, in the group that was
    asked for if there is such a group; within the limit of the user the ticked hosts are leased and
    over it none is, and in the end the tables are what they were. -/
theorem visit_exact (t : Tables) (hcoupled : ∀ h ∈ t.hosts, h.Coupled) (hgroups : t.groups ≠ [])
    (service : HostsService) (user : AuthUser) (hu : ∃ u ∈ t.users, u.id = user.id)
    (hlimits : ∀ l ∈ t.leaseLimits, l.group ∈ user.groups → 0 ≤ l.limit)
    (tick : List String → List String) (htick : ∀ boxes, tick boxes ⊆ boxes) {days hours : String}
    {d h : Int} (hdays : Days.tryFrom days = .ok d) (hhours : Hours.tryFrom hours = .ok h)
    (settings : PageSettings) (order : List Nat) (groupId : Option GroupId) (cookie : Option String)
    (p : Pid) (now : Time) (hin : Storable (now + TimeDelta.hours (h + d * 24))) :
    ∃ limit, t.limit service user.groups = some limit ∧
      (visit settings (t.view.getGroups order) service user groupId cookie tick days hours).Achieves
        (.calm now) p t.world fun r w' => w'.db = t.db ∧ ∃ v, r = .ok v ∧
          (∃ group ∈ t.groups, v.before.page.selectedGroup = .ofGroup group ∧
            (∀ g ∈ t.groups, groupId = some g.id → group.id = g.id) ∧
            v.before.page.Shows t user.id group.id now) ∧
          v.ticked = tick v.before.page.boxes ∧ v.Exact (t.hostsOf user.id).length limit := by
  obtain ⟨limit, hlimit⟩ := t.exists_limit service hlimits
  refine ⟨limit, hlimit, ?_⟩
  have hperm : (t.view.getGroups order).Perm t.groups := orderBy_perm _ _ _
  cases hread : t.view.getGroups order with
  | nil =>
    rw [hread] at hperm
    exact absurd hperm.symm.eq_nil hgroups
  | cons first rest =>
    rw [hread] at hperm
    refine (achieves_visit hu hcoupled hlimit htick hdays hhours hin).mono fun r w' hr => ?_
    obtain ⟨hw', v, rfl, hshows, hselected, hticked, hexact⟩ := hr
    obtain ⟨hmem, hasked⟩ := selectedGroup_mem first rest (Page.askedGroup first groupId cookie)
    refine ⟨hw', v, rfl, ⟨_, hperm.mem_iff.mp hmem, hselected, fun g hg hid => ?_, hshows⟩, hticked,
      hexact⟩
    subst hid
    exact hasked g (hperm.mem_iff.mpr hg) rfl

/-- `bob` has the first host, and `alice` leases the other one. -/
theorem visit_exact_small : ∃ limit, (small (some (false, 5))).limit ⟨3⟩ [] = some limit ∧
    (visit ⟨⟨"0.1.0"⟩, none, fun _ => ""⟩ ((small (some (false, 5))).view.getGroups []) ⟨3⟩
      aliceUser none
      none id "1" "2").Achieves (.calm 0) (.task 0) (small (some (false, 5))).world fun r w' =>
        w'.db = (small (some (false, 5))).db ∧ ∃ v, r = .ok v ∧
          (∃ group ∈ (small (some (false, 5))).groups,
            v.before.page.selectedGroup = .ofGroup group ∧
            (∀ g ∈ (small (some (false, 5))).groups, none = some g.id → group.id = g.id) ∧
            v.before.page.Shows (small (some (false, 5))) aliceUser.id group.id 0) ∧
          v.ticked = id v.before.page.boxes ∧
          v.Exact ((small (some (false, 5))).hostsOf aliceUser.id).length limit :=
  visit_exact (small (some (false, 5))) (by decide) (by decide) ⟨3⟩ aliceUser
    ⟨alice, List.mem_cons_self, rfl⟩ (fun l hl => by cases hl) id (fun _ => List.Subset.refl _)
    (show Days.tryFrom "1" = .ok 1 by decide) (show Hours.tryFrom "2" = .ok 2 by decide) _ [] none
      none
    (.task 0) 0 (by decide)

end Visit

end Tachikoma
