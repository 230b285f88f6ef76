import Tachikoma.Proof.LeaseExact
import Tachikoma.Web.HostInfo

/-!
# The filtered listing

Hosts and users are joined twice in the server: by `LEFT JOIN` in `get_hosts_filtered`, and by a
hash map in the listing of all hosts. On tables that satisfy their keys the joins **agree**, filters
and missing columns included, and the listing adds the host's own group. What is made of a leased
host agrees with it in everything but the group, which the statements behind it do not select.
-/

set_option autoImplicit false

namespace Tachikoma

open Joins Serde Unordered

/-- Tables whose groups have distinct ids, too. -/
structure GroupedTables extends Tables where
  groups_pkey : (groups.map Group.id).Nodup

/-! ## The joined rows -/

/-- A joined row, decoded. -/
def listingOf (r : ListingRow) : HostListing where
  id := r.host.id
  hostname := r.host.hostname
  ipAddress := r.host.ipAddress
  leasedUntil := r.host.leasedUntil
  group := r.group
  userId := r.user.map (·.id)
  dn := r.user.map (·.dn)
  tgHandle := r.user.bind (·.tgHandle)
  email := r.user.map (·.email)
  link := r.user.map (·.link)

/-- Every row decodes: what Postgres builds of a group is what `serde` reads as one. -/
theorem ofRow_eq (r : ListingRow) : HostListing.ofRow r = .ok (listingOf r) := by
  have hjson : (r.group.map groupJson).getD .null = encodeOption Group.codec r.group := by
    cases r.group <;> rfl
  rw [HostListing.ofRow, hjson, decode_group]
  rfl

theorem userOfListing_listingOf (r : ListingRow) :
    HostInfo.userOfListing (listingOf r) = r.user := by
  unfold HostInfo.userOfListing listingOf
  cases r.user <;> rfl

/-- But for the group, a row of the listing is shown like the host with its user. -/
theorem ofListing_listingOf (now : Time) (r : ListingRow) : HostInfo.ofListing now (listingOf r) =
    { HostInfo.ofHost now r.host r.user with group := r.group.map GroupInfo.ofGroup } := by
  rw [HostInfo.ofListing, userOfListing_listingOf]
  rfl

theorem getHostsFiltered_eq (order : List Nat) (v : View) (email : Option String)
    (groupId : Option GroupId) : v.getHostsFiltered order email groupId =
      .ok ((orderBy (fun a b => cmpIpAddress a.host b.host) order
        (v.leftJoins.filter (listingFilter email groupId))).map listingOf) := by
  have hrow : HostListing.ofRow = fun r => pure (listingOf r) := funext ofRow_eq
  rw [View.getHostsFiltered, hrow, List.mapM_pure]
  rfl

namespace GroupedTables

variable (t : GroupedTables)

/-- The row of a host. -/
def row (host : Host) : ListingRow :=
  ⟨host, host.userId.bind (indexBy User.id t.users), indexBy Group.id t.groups host.groupId⟩

theorem leftJoins_eq : t.view.leftJoins = t.hosts.map t.row := by
  rw [View.leftJoins, List.map_eq_flatMap]
  refine List.flatMap_congr fun host _ => ?_
  have husers : leftMatches User.id t.view.users host.userId =
      [host.userId.bind (indexBy User.id t.users)] := leftMatches_eq t.users_pkey (.refl _) _
  have hgroups : leftMatches Group.id t.view.groups (some host.groupId) =
      [indexBy Group.id t.groups host.groupId] := leftMatches_eq t.groups_pkey (.refl _) _
  rw [husers, hgroups]
  rfl

/-- The group of the row is the host's own. -/
theorem exists_group {host : Host} (hh : host ∈ t.hosts) :
    ∃ g ∈ t.groups, g.id = host.groupId ∧ (t.row host).group = some g := by
  obtain ⟨g, hg, hid⟩ := t.hosts_group_id_fkey host hh
  exact ⟨g, hg, hid, (indexBy_eq_some t.groups_pkey).mpr ⟨hg, hid⟩⟩

/-- The order in which the map was filled does not matter. -/
theorem row_user {users : List User} (hperm : users.Perm t.users) (host : Host) :
    host.userId.bind (indexBy User.id users) = (t.row host).user := by
  have h₁ := leftMatches_eq t.users_pkey hperm host.userId
  have h₂ := leftMatches_eq t.users_pkey (.refl _) host.userId
  exact (List.singleton_inj.mp (h₁.symm.trans h₂))

end GroupedTables

/-! ## The two joins agree -/

/-- The same entries, in the same order of their addresses. -/
structure SameUpToTies (l l' : List (IpNetwork × HostInfo)) : Prop where
  perm : l.Perm l'
  addresses : l.map Prod.fst = l'.map Prod.fst

/-- The holder of the host has this address, if one is asked for, and the host is in this group. -/
def keeps (email : Option String) (groupId : Option GroupId) (x : Host × Option User) : Prop :=
  (∀ e ∈ email, x.2.map (·.email) = some e) ∧ ∀ g ∈ groupId, x.1.groupId = g

instance (email : Option String) (groupId : Option GroupId) (x : Host × Option User) :
    Decidable (keeps email groupId x) := by
  unfold keeps
  infer_instance

theorem listingFilter_iff {email : Option String} {groupId : Option GroupId} {r : ListingRow} :
    listingFilter email groupId r = true ↔ keeps email groupId (r.host, r.user) := by
  have hemail : (email.isNone || (r.user.map (·.email)).any fun e => email = some e) = true ↔
      ∀ e ∈ email, r.user.map (·.email) = some e := by
    cases email with
    | none => simp
    | some e => cases r.user <;> simp [eq_comm (a := e)]
  have hgroup : (groupId.isNone || groupId = some r.host.groupId) = true ↔
      ∀ g ∈ groupId, r.host.groupId = g := by
    cases groupId with
    | none => simp
    | some g => simp [eq_comm (a := g)]
  rw [listingFilter, Bool.and_eq_true, hemail, hgroup]
  rfl

/-- Addresses that compare equal are equal. -/
theorem IpNetwork.eq_of_cmp {a b : IpNetwork} (h : a.cmp b ≠ .gt) (h' : b.cmp a ≠ .gt) : a = b := by
  have hswap : b.cmp a = (a.cmp b).swap := Std.OrientedCmp.eq_swap
  have heq : a.cmp b = .eq := by
    rw [hswap] at h'
    cases hcmp : a.cmp b with
    | lt => rw [hcmp] at h'; exact absurd rfl h'
    | eq => rfl
    | gt => exact absurd hcmp h
  rw [IpNetwork.cmp_eq, IpNetwork.cmpColumns] at heq
  simp only [compareLex_eq_eq, compareOn] at heq
  obtain ⟨hv6, -, hbits, haddr⟩ := heq
  obtain ⟨v6, addr, bits⟩ := a
  obtain ⟨v6', addr', bits'⟩ := b
  obtain rfl := Std.LawfulEqCmp.eq_of_compare hv6
  obtain rfl := Nat.compare_eq_eq.mp hbits
  obtain rfl := Nat.compare_eq_eq.mp haddr
  rfl

instance : Std.TransCmp cmpIpAddress := transCmp_by IpNetwork.cmp fun h : Host => h.ipAddress

/-- Sorted by address, the same entries have the same addresses in the same places. -/
theorem addresses_eq {l l' : List (IpNetwork × HostInfo)} (hperm : l.Perm l')
    (hl : l.Pairwise fun a b => a.1.cmp b.1 ≠ .gt)
    (hl' : l'.Pairwise fun a b => a.1.cmp b.1 ≠ .gt) :
    l.map Prod.fst = l'.map Prod.fst := by
  have hsorted : (l.map Prod.fst).Pairwise fun a b => a.cmp b ≠ .gt := List.pairwise_map.mpr hl
  have hsorted' : (l'.map Prod.fst).Pairwise fun a b => a.cmp b ≠ .gt := List.pairwise_map.mpr hl'
  apply List.Perm.eq_of_pairwise _ hsorted hsorted' (hperm.map _)
  exact fun a b _ _ h h' => IpNetwork.eq_of_cmp h h'

/-- The entries of the filtered listing, their groups left aside. -/
def filteredEntries (now : Time) (filtered : List HostListing) : List (IpNetwork × HostInfo) :=
  filtered.map fun l => (l.ipAddress, { HostInfo.ofListing now l with group := none })

/-- The entries of the listing of all hosts that a filter keeps. -/
def keptEntries (now : Time) (email : Option String) (groupId : Option GroupId)
    (pairs : List (Host × Option User)) : List (IpNetwork × HostInfo) :=
  (pairs.filter (keeps email groupId)).map fun x => (x.1.ipAddress, HostInfo.ofHost now x.1 x.2)

/-- Rows and pairs are kept alike. -/
theorem kept_eq (t : GroupedTables) (email : Option String) (groupId : Option GroupId)
    {users : List User} (husers : users.Perm t.users) (hosts : List Host) (now : Time) :
    keptEntries now email groupId (pairHosts users hosts) =
      ((hosts.map t.row).filter (listingFilter email groupId)).map fun r =>
        (r.host.ipAddress, HostInfo.ofHost now r.host r.user) := by
  have hpairs : pairHosts users hosts = (hosts.map t.row).map fun r => (r.host, r.user) := by
    rw [List.map_map]
    exact List.map_congr_left fun host _ => by rw [t.row_user husers host]; rfl
  have hfilter : (fun r : ListingRow => decide (keeps email groupId (r.host, r.user))) =
      listingFilter email groupId := by
    funext r
    rw [Bool.eq_iff_iff, decide_eq_true_iff, listingFilter_iff]
  rw [keptEntries, hpairs, List.filter_map, List.map_map, ← hfilter]
  rfl

/-- What is shown of the hosts that `u` leases is what the listing shows of them: of all of them,
    and of one that was just leased. -/
structure SameViews (t : GroupedTables) (u : UserId) (now : Time) : Prop where
  leased : ∀ order order₁, ∃ (leased : List LeasedHost) (filtered : List HostListing),
    Select.run order t.view (.getLeasedHosts u) = .ok leased ∧
    t.view.getHostsFiltered order₁ none none = .ok filtered ∧
    ∀ info, (∃ l ∈ leased, HostInfo.ofLeasedHost now l = info) ↔
      ∃ x ∈ filtered, x.id ∈ leased.map (·.id) ∧ HostInfo.ofListing now x = info
  justLeased : ∀ order order₁ id (l : LeasedHost),
    Select.run order t.view (.getLeasedHost id) = .ok l → l.user.id = u →
      ∃ filtered : List HostListing, t.view.getHostsFiltered order₁ none none = .ok filtered ∧
        ∃ x ∈ filtered, x.id = id ∧ HostInfo.ofListing now x = HostInfo.ofLeasedHost now l

/-- The rows of the whole listing are the hosts. -/
theorem mem_getHostsFiltered {t : GroupedTables} {order : List Nat} {filtered : List HostListing}
    (h : t.view.getHostsFiltered order none none = .ok filtered) {x : HostListing} :
    x ∈ filtered ↔ ∃ host ∈ t.hosts, listingOf (t.row host) = x := by
  rw [getHostsFiltered_eq] at h
  rw [← Except.ok.inj h, List.mem_map, t.leftJoins_eq]
  have hall : ∀ r, listingFilter none none r = true := fun _ => rfl
  simp only [mem_orderBy, List.mem_filter, hall, and_true, List.mem_map, exists_exists_and_eq_and]

section Leased

variable {t : GroupedTables} {host : Host} {user : User} {l : LeasedHost}

/-- A leased host is shown without its group, and otherwise like its row in the listing. -/
theorem ofLeasedHost_eq (huser : user ∈ t.users) (hheld : host.userId = some user.id)
    (hrow : LeasedHost.ofRow (host, user) = .ok l) (now : Time) :
    HostInfo.ofLeasedHost now l =
      { HostInfo.ofListing now (listingOf (t.row host)) with group := none } := by
  obtain ⟨hid, hname, hip, huntil, hgroup, hluser⟩ := LeasedHost.ofRow_ok.mp hrow
  have hfound : (t.row host).user = some user := by
    show host.userId.bind (indexBy User.id t.users) = _
    rw [hheld]
    exact (indexBy_eq_some t.users_pkey).mpr ⟨huser, rfl⟩
  dsimp only at hid hname hip huntil hgroup hluser
  rw [ofListing_listingOf, HostInfo.ofLeasedHost, HostInfo.ofHost, hfound, hid, hname, hip, hgroup,
    hluser]
  show _ = HostInfo.mk host.id host.hostname host.ipAddress.ipText
    (leaseInfoOf now (some user) host.leasedUntil) none
  rw [huntil]
  rfl

/-- No row of the listing is without a group. -/
theorem ofListing_ne_ofLeasedHost (hhost : host ∈ t.hosts) (hl : l.group = none) (now : Time) :
    HostInfo.ofListing now (listingOf (t.row host)) ≠ HostInfo.ofLeasedHost now l := by
  intro heq
  obtain ⟨g, -, -, hgroup⟩ := t.exists_group hhost
  have hgroups := congrArg HostInfo.group heq
  rw [ofListing_listingOf, HostInfo.ofLeasedHost] at hgroups
  simp [hgroup, hl] at hgroups

end Leased

/-- A host that was leased is listed as such, by its row. -/
theorem exists_row_of_getLeasedHosts {t : GroupedTables} {u : UserId} {order : List Nat}
    {leased : List LeasedHost} (h : Select.run order t.view (.getLeasedHosts u) = .ok leased)
    {l : LeasedHost} (hl : l ∈ leased) : ∃ host ∈ t.hosts, ∃ user ∈ t.users,
      host.userId = some user.id ∧ LeasedHost.ofRow (host, user) = .ok l := by
  obtain ⟨⟨host, user⟩, hr, hrow⟩ := (mem_of_decodeAll h).mp hl
  rw [mem_orderBy, List.mem_filter] at hr
  obtain ⟨hhost, huser, hheld⟩ := mem_join.mp hr.1
  exact ⟨host, hhost, user, huser, hheld, hrow⟩

theorem SameViews.holds_none {t : GroupedTables} {u : UserId} {now : Time} (h : SameViews t u now) :
    ∀ host ∈ t.hosts, host.userId ≠ some u := by
  intro host hhost hheld
  obtain ⟨leased, filtered, hleased, hfiltered, hsame⟩ := h.leased [] []
  obtain ⟨user, huser, hid⟩ := t.hosts_user_id_fkey host hhost u hheld
  -- The host is in the answer, since that has decoded.
  have hmem : ((host, user) : Host × User) ∈
      orderBy cmpDeadline [] (t.view.join.filter fun r => r.1.userId = some u) := by
    rw [mem_orderBy, List.mem_filter]
    exact ⟨mem_join.mpr ⟨hhost, huser, by rw [hheld, hid]⟩, decide_eq_true hheld⟩
  have hids : host.id ∈ leased.map (·.id) := by
    rw [ids_of_decodeAll hleased]
    exact List.mem_map_of_mem (f := fun r : Host × User => r.1.id) hmem
  obtain ⟨l, hl, -⟩ := List.mem_map.mp hids
  obtain ⟨x, hx, -, hinfo⟩ := (hsame _).mp ⟨l, hl, rfl⟩
  obtain ⟨host', hhost', rfl⟩ := (mem_getHostsFiltered hfiltered).mp hx
  obtain ⟨_, -, _, -, -, hrow⟩ := exists_row_of_getLeasedHosts hleased hl
  exact ofListing_ne_ofLeasedHost hhost' (LeasedHost.ofRow_ok.mp hrow).2.2.2.2.1 now hinfo

theorem sameViews_of_holds_none {t : GroupedTables} {u : UserId}
    (h : ∀ host ∈ t.hosts, host.userId ≠ some u) (now : Time) : SameViews t u now where
  leased order order₁ := by
    have hnone : (t.view.join.filter fun r => r.1.userId = some u) = [] := by
      rw [List.filter_eq_nil_iff]
      intro r hr hheld
      exact h r.1 (mem_join.mp hr).1 (of_decide_eq_true hheld)
    have hempty :
        orderBy cmpDeadline order (t.view.join.filter fun r => r.1.userId = some u) = [] :=
      List.perm_nil.mp ((orderBy_perm _ _ _).trans (hnone ▸ .refl _))
    have hleased : Select.run order t.view (.getLeasedHosts u) = .ok ([] : List LeasedHost) := by
      show decodeAll (orderBy cmpDeadline order _) = _
      rw [hempty]
      rfl
    exact ⟨[], _, hleased, getHostsFiltered_eq order₁ t.view none none, fun info => by simp⟩
  justLeased order order₁ id l hl hu := by
    have hview : Select.run order (t.db.view ⟨.timer, 0⟩) (.getLeasedHost id) = .ok l := by
      rw [t.view_db]
      exact hl
    obtain ⟨-, r, hr, hheld, -⟩ := of_getLeasedHost hview
    have hmem : ({ r with id := id } : Host) ∈ t.hosts := by
      have hhost : ({ r with id := id } : Host) ∈ (t.db.view ⟨.timer, 0⟩).hosts :=
        mem_view_hosts.mpr hr
      rwa [t.view_db] at hhost
    exact absurd (hheld.trans (by rw [hu])) (h _ hmem)

/-- **A leased host is shown as the listing shows it only if there is none**: its group is missing,
    and nothing else is. -/
theorem leased_views_iff (t : GroupedTables) (u : UserId) (now : Time) :
    (SameViews t u now ↔ ∀ host ∈ t.hosts, host.userId ≠ some u) ∧
      ∀ order (leased : List LeasedHost), Select.run order t.view (.getLeasedHosts u) = .ok leased →
        ∀ l ∈ leased, ∃ host ∈ t.hosts, host.id = l.id ∧ HostInfo.ofLeasedHost now l =
          { HostInfo.ofListing now (listingOf (t.row host)) with group := none } := by
  refine ⟨⟨SameViews.holds_none, fun h => sameViews_of_holds_none h now⟩, ?_⟩
  intro order leased hleased l hl
  obtain ⟨host, hhost, user, huser, hheld, hrow⟩ := exists_row_of_getLeasedHosts hleased hl
  exact ⟨host, hhost, (LeasedHost.ofRow_ok.mp hrow).1.symm, ofLeasedHost_eq huser hheld hrow now⟩

/-- The small database, in which group ids are distinct. -/
def smallGrouped (lease : Option (Bool × Time)) : GroupedTables :=
  { small lease with groups_pkey := List.nodup_singleton _ }

/-- `alice`'s leased host comes without its group, and in the listing it has one. -/
theorem not_sameViews : ∃ (leased : List LeasedHost) (filtered : List HostListing),
    Select.run [] (smallGrouped (some (true, 5))).view (.getLeasedHosts alice.id) = .ok leased ∧
    (smallGrouped (some (true, 5))).view.getHostsFiltered [] (some "alice@example.org") none =
      .ok filtered ∧
    leased.map (HostInfo.ofLeasedHost 0) = [⟨⟨1⟩, "host1", "0.0.0.1",
      some ⟨5, "0 days, 0 hours, 0 minutes", "alice@example.org"⟩, none⟩] ∧
    filtered.map (HostInfo.ofListing 0) = [⟨⟨1⟩, "host1", "0.0.0.1",
      some ⟨5, "0 days, 0 hours, 0 minutes", "alice@example.org"⟩, some ⟨⟨1⟩, "group"⟩⟩] ∧
    ¬ SameViews (smallGrouped (some (true, 5))) alice.id 0 := by
  refine ⟨_, _, rfl, getHostsFiltered_eq _ _ _ _, by decide +kernel, by decide +kernel, fun h => ?_⟩
  exact h.holds_none (host1 (some (true, 5))) List.mem_cons_self rfl

end Tachikoma
