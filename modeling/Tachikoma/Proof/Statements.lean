import Tachikoma.Logic.Hosts

/-!
# What the statements read

Every answer, by membership and in terms of the cells under it: the row of `h` that the transaction
`x` sees is `(db.hosts.cell h.id).view x`. The order of an answer never matters here, and the two
ways it comes about (`arrange`, `orderBy`) disappear in the first lemmas.
-/

set_option autoImplicit false

namespace Tachikoma

open Versioned Unordered

theorem orderBy_perm {α : Type} (cmp : α → α → Ordering) (order : List Nat) (rows : List α) :
    (orderBy cmp order rows).Perm rows :=
  (List.perm_insertionSort _ _).trans (arrange_perm order rows)

@[simp] theorem mem_orderBy {α : Type} {cmp : α → α → Ordering} {order : List Nat} {rows : List α}
    {a : α} : a ∈ orderBy cmp order rows ↔ a ∈ rows :=
  (orderBy_perm cmp order rows).mem_iff

theorem mem_of_head?_arrange {α : Type} {order : List Nat} {rows : List α} {a : α}
    (h : (arrange order rows).head? = some a) : a ∈ rows :=
  mem_arrange.mp (List.mem_of_mem_head? h)

theorem eq_nil_of_head?_arrange {α : Type} {order : List Nat} {rows : List α}
    (h : (arrange order rows).head? = none) : rows = [] := by
  have hperm := arrange_perm order rows
  rw [List.head?_eq_none_iff.mp h] at hperm
  exact hperm.nil_eq.symm

/-! ## Views -/

theorem mem_view_hosts {x : TxId} {db : Db} {h : Host} :
    h ∈ (db.view x).hosts ↔ (db.hosts.cell h.id).view x = some h.toHostRow := by
  simp only [Db.view, List.mem_map, Prod.exists]
  constructor
  · rintro ⟨id, r, hr, rfl⟩
    exact Table.mem_rows.mp hr
  · intro hr
    exact ⟨h.id, h.toHostRow, Table.mem_rows.mpr hr, rfl⟩

theorem mem_view_users {x : TxId} {db : Db} {u : User} :
    u ∈ (db.view x).users ↔ (db.users.cell u.id).view x = some u.toUserRow := by
  simp only [Db.view, List.mem_map, Prod.exists]
  constructor
  · rintro ⟨id, r, hr, rfl⟩
    exact Table.mem_rows.mp hr
  · intro hr
    exact ⟨u.id, u.toUserRow, Table.mem_rows.mpr hr, rfl⟩

theorem mem_committed_hosts {db : Db} {h : Host} :
    h ∈ db.committed.hosts ↔ (db.hosts.cell h.id).committed = some h.toHostRow := by
  simp only [Db.committed, List.mem_map, Prod.exists]
  constructor
  · rintro ⟨id, r, hr, rfl⟩
    exact Table.mem_committedRows.mp hr
  · intro hr
    exact ⟨h.id, h.toHostRow, Table.mem_committedRows.mpr hr, rfl⟩

theorem mem_committed_users {db : Db} {u : User} :
    u ∈ db.committed.users ↔ (db.users.cell u.id).committed = some u.toUserRow := by
  simp only [Db.committed, List.mem_map, Prod.exists]
  constructor
  · rintro ⟨id, r, hr, rfl⟩
    exact Table.mem_committedRows.mp hr
  · intro hr
    exact ⟨u.id, u.toUserRow, Table.mem_committedRows.mpr hr, rfl⟩

theorem view_hosts_nodup (x : TxId) (db : Db) : ((db.view x).hosts.map (·.id)).Nodup := by
  have h := Table.rowsBy_keys_nodup (Cell.view x) db.hosts
  simpa [Db.view, Table.rows, Function.comp_def] using h

theorem view_users_nodup (x : TxId) (db : Db) : ((db.view x).users.map (·.id)).Nodup := by
  have h := Table.rowsBy_keys_nodup (Cell.view x) db.users
  simpa [Db.view, Table.rows, Function.comp_def] using h

theorem committed_hosts_nodup (db : Db) : (db.committed.hosts.map (·.id)).Nodup := by
  have h := Table.rowsBy_keys_nodup Cell.committed db.hosts
  simpa [Db.committed, Table.committedRows, Function.comp_def] using h

theorem committed_users_nodup (db : Db) : (db.committed.users.map (·.id)).Nodup := by
  have h := Table.rowsBy_keys_nodup Cell.committed db.users
  simpa [Db.committed, Table.committedRows, Function.comp_def] using h

/-! ## The join and its decoding -/

theorem mem_join {v : View} {r : Host × User} :
    r ∈ v.join ↔ r.1 ∈ v.hosts ∧ r.2 ∈ v.users ∧ r.1.userId = some r.2.id := by
  obtain ⟨h, u⟩ := r
  simp only [View.join, List.mem_flatMap, List.mem_map, List.mem_filter, decide_eq_true_eq,
    Prod.mk.injEq]
  constructor
  · rintro ⟨h', hh, u', ⟨hu, he⟩, rfl, rfl⟩; exact ⟨hh, hu, he⟩
  · rintro ⟨hh, hu, he⟩; exact ⟨h, hh, u, ⟨hu, he⟩, rfl, rfl⟩

/-- Among users of distinct ids at most one is the holder. -/
theorem filter_holder_length {us : List User} (h : (us.map (·.id)).Nodup) (o : Option UserId) :
    (us.filter fun u => o = some u.id).length ≤ 1 := by
  induction us with
  | nil => simp
  | cons u us ih =>
    rw [List.map_cons, List.nodup_cons] at h
    by_cases ho : o = some u.id
    · have hnone : us.filter (fun u => decide (o = some u.id)) = [] := by
        rw [List.filter_eq_nil_iff]
        intro u' hu' ho'
        simp only [decide_eq_true_eq] at ho'
        have : u.id = u'.id := Option.some.inj (ho.symm.trans ho')
        exact h.1 (this ▸ List.mem_map_of_mem hu')
      simp [ho] at hnone ⊢
      exact hnone
    · simpa [List.filter_cons, ho] using ih h.2

/-- A host is joined with its holder only, so it is joined once. -/
theorem join_nodup {v : View} (hh : (v.hosts.map (·.id)).Nodup) (hu : (v.users.map (·.id)).Nodup) :
    (v.join.map (·.1.id)).Nodup := by
  have hsub : ∀ hs : List Host,
      ((hs.flatMap fun h => (v.users.filter fun u => h.userId = some u.id).map
        fun u => (h, u)).map (·.1.id)).Sublist (hs.map (·.id)) := by
    intro hs
    induction hs with
    | nil => simp
    | cons h hs ih =>
      simp only [List.flatMap_cons, List.map_append, List.map_map, Function.comp_def, List.map_cons]
      have hlen := filter_holder_length hu h.userId
      cases hf : v.users.filter (fun u => h.userId = some u.id) with
      | nil => simpa using ih.trans (List.sublist_cons_self _ _)
      | cons u us =>
        rw [hf, List.length_cons] at hlen
        have hus : us = [] := List.length_eq_zero_iff.mp (by omega)
        subst hus
        simpa using ih.cons_cons h.id
  exact (hsub v.hosts).nodup hh

theorem LeasedHost.ofRow_ok {r : Host × User} {l : LeasedHost} :
    LeasedHost.ofRow r = .ok l ↔ l.id = r.1.id ∧ l.hostname = r.1.hostname ∧
      l.ipAddress = r.1.ipAddress ∧ r.1.leasedUntil = some l.leasedUntil ∧ l.group = none ∧
      l.user = r.2 := by
  unfold LeasedHost.ofRow
  obtain ⟨id, hostname, ip, until_, group, user⟩ := l
  cases hd : r.1.leasedUntil with
  | none => simp
  | some d =>
    simp only [Except.ok.injEq, LeasedHost.mk.injEq, Option.some.injEq]
    constructor
    · rintro ⟨rfl, rfl, rfl, rfl, rfl, rfl⟩; exact ⟨rfl, rfl, rfl, rfl, rfl, rfl⟩
    · rintro ⟨rfl, rfl, rfl, rfl, rfl, rfl⟩; exact ⟨rfl, rfl, rfl, rfl, rfl, rfl⟩

theorem decodeAll_ok {rs : List (Host × User)} {ls : List LeasedHost} :
    decodeAll rs = .ok ls ↔ List.Forall₂ (fun r l => LeasedHost.ofRow r = .ok l) rs ls := by
  induction rs generalizing ls with
  | nil => simp [decodeAll, eq_comm]
  | cons r rs ih =>
    rw [decodeAll]
    cases hr : LeasedHost.ofRow r with
    | error e => simp [List.forall₂_cons_left_iff, hr]
    | ok l =>
      simp only [List.forall₂_cons_left_iff, hr]
      cases hrs : decodeAll rs with
      | error e =>
        have hno : ∀ ls', ¬ List.Forall₂ (fun r l => LeasedHost.ofRow r = .ok l) rs ls' := by
          intro ls' hf
          rw [← ih, hrs] at hf
          cases hf
        simp [hno]
      | ok ls' =>
        constructor
        · intro h
          simp only [Except.ok.injEq] at h
          subst h
          exact ⟨l, ls', rfl, ih.mp hrs, rfl⟩
        · rintro ⟨l', ls'', hl, hf, rfl⟩
          have hls : ls' = ls'' := by
            have := ih.mpr hf
            rw [hrs] at this
            exact Except.ok.inj this
          rw [Except.ok.inj hl, hls]

/-- Rows that all have a deadline decode. -/
theorem exists_decodeAll {rs : List (Host × User)} (h : ∀ r ∈ rs, r.1.leasedUntil ≠ none) :
    ∃ ls, decodeAll rs = .ok ls := by
  induction rs with
  | nil => exact ⟨[], rfl⟩
  | cons r rs ih =>
    obtain ⟨ls, hls⟩ := ih fun r' hr' => h r' (List.mem_cons_of_mem _ hr')
    obtain ⟨d, hd⟩ := Option.ne_none_iff_exists'.mp (h r List.mem_cons_self)
    have hr : ∃ l, LeasedHost.ofRow r = .ok l := by simp [LeasedHost.ofRow, hd]
    obtain ⟨l, hl⟩ := hr
    exact ⟨l :: ls, by rw [decodeAll, hl, hls]⟩

theorem mem_of_decodeAll {rs : List (Host × User)} {ls : List LeasedHost}
    (h : decodeAll rs = .ok ls) {l : LeasedHost} :
    l ∈ ls ↔ ∃ r ∈ rs, LeasedHost.ofRow r = .ok l := by
  rw [decodeAll_ok] at h
  induction h with
  | nil => simp
  | @cons r l' rs ls hr _ ih =>
    rw [List.mem_cons, ih]
    constructor
    · rintro (rfl | ⟨r', hr', hl⟩)
      · exact ⟨r, List.mem_cons_self, hr⟩
      · exact ⟨r', List.mem_cons_of_mem _ hr', hl⟩
    · rintro ⟨r', hr', hl⟩
      rcases List.mem_cons.mp hr' with rfl | hr'
      · rw [hr] at hl; exact .inl (Except.ok.inj hl).symm
      · exact .inr ⟨r', hr', hl⟩

theorem ids_of_decodeAll {rs : List (Host × User)} {ls : List LeasedHost}
    (h : decodeAll rs = .ok ls) : ls.map (·.id) = rs.map (·.1.id) := by
  rw [decodeAll_ok] at h
  induction h with
  | nil => rfl
  | cons hr _ ih => rw [List.map_cons, List.map_cons, ih, (LeasedHost.ofRow_ok.mp hr).1]

theorem expiresBefore_iff {until_ : Time} {r : HostRow} :
    expiresBefore until_ r = true ↔ ∃ d, r.leasedUntil = some d ∧ d < until_ := by
  unfold expiresBefore
  cases r.leasedUntil <;> simp

/-! ## The answers -/

section Answers

variable {x : TxId} {db : Db} {order : List Nat}

/-- `ls` is the hosts with a holder that the transaction `x` sees and that satisfy `p`, decoded. -/
structure Decoded (x : TxId) (db : Db) (p : HostRow → Prop) (ls : List LeasedHost) : Prop where
  sound : ∀ l ∈ ls, ∃ r, (db.hosts.cell l.id).view x = some r ∧ p r ∧
    r.userId = some l.user.id ∧ r.leasedUntil = some l.leasedUntil ∧ l.user ∈ (db.view x).users
  complete : ∀ id r u, (db.hosts.cell id).view x = some r → p r → r.userId = some u.id →
    u ∈ (db.view x).users → ∃ l ∈ ls, l.id = id ∧ l.user = u
  nodup : (ls.map (·.id)).Nodup

theorem decoded_of_decodeAll {p : HostRow → Prop} {rs : List (Host × User)} {ls : List LeasedHost}
    (h : decodeAll rs = .ok ls) (hrs : ∀ r, r ∈ rs ↔ r ∈ (db.view x).join ∧ p r.1.toHostRow)
    (hnd : (rs.map (·.1.id)).Nodup) : Decoded x db p ls where
  sound l hl := by
    obtain ⟨r, hr, hrow⟩ := (mem_of_decodeAll h).mp hl
    obtain ⟨hid, _, _, huntil, _, huser⟩ := LeasedHost.ofRow_ok.mp hrow
    obtain ⟨hjoin, hp⟩ := (hrs r).mp hr
    obtain ⟨hh, hu, hheld⟩ := mem_join.mp hjoin
    rw [hid, huser]
    exact ⟨_, mem_view_hosts.mp hh, hp, hheld, huntil, hu⟩
  complete id r u hr hp hheld hu := by
    have hjoin : (({ r with id := id }, u) : Host × User) ∈ (db.view x).join :=
      mem_join.mpr ⟨mem_view_hosts.mpr hr, hu, hheld⟩
    have hmem := (hrs _).mpr ⟨hjoin, hp⟩
    rw [decodeAll_ok] at h
    obtain ⟨l, hl, hrow⟩ : ∃ l ∈ ls, LeasedHost.ofRow ({ r with id := id }, u) = .ok l := by
      clear hrs hnd hjoin
      induction h with
      | nil => cases hmem
      | @cons r' l' rs' ls' hr' _ ih =>
        rcases List.mem_cons.mp hmem with rfl | hmem
        · exact ⟨l', List.mem_cons_self, hr'⟩
        · obtain ⟨l, hl, hrow⟩ := ih hmem
          exact ⟨l, List.mem_cons_of_mem _ hl, hrow⟩
    obtain ⟨hid, _, _, _, _, huser⟩ := LeasedHost.ofRow_ok.mp hrow
    exact ⟨l, hl, hid, huser⟩
  nodup := by rw [ids_of_decodeAll h]; exact hnd

/-- The rows a statement picks out of the join are joined once. -/
theorem filter_join_nodup {rs : List (Host × User)} {q : Host × User → Bool}
    (h : rs.Perm ((db.view x).join.filter q)) : (rs.map (·.1.id)).Nodup := by
  rw [(h.map _).nodup_iff]
  exact ((List.filter_sublist (p := q)).map _).nodup
    (join_nodup (view_hosts_nodup x db) (view_users_nodup x db))

theorem decoded_getLeasedHosts {userId : UserId} {ls : List LeasedHost}
    (h : Select.run order (db.view x) (.getLeasedHosts userId) = .ok ls) :
    Decoded x db (fun r => r.userId = some userId) ls :=
  decoded_of_decodeAll h (fun r => by simp) (filter_join_nodup (orderBy_perm _ _ _))

theorem decoded_getLeasedUntilHosts {until_ : Time} {ls : List LeasedHost}
    (h : Select.run order (db.view x) (.getLeasedUntilHosts until_) = .ok ls) :
    Decoded x db (fun r => expiresBefore until_ r = true) ls :=
  decoded_of_decodeAll h (fun r => by simp) (filter_join_nodup (arrange_perm _ _))

theorem decoded_getExpiringHostsForUser {userId : UserId} {expiringBefore : Time}
    {ls : List LeasedHost}
    (h : Select.run order (db.view x) (.getExpiringHostsForUser userId expiringBefore) = .ok ls) :
    Decoded x db (fun r => r.userId = some userId ∧ expiresBefore expiringBefore r = true) ls :=
  decoded_of_decodeAll h (fun r => by simp) (filter_join_nodup (orderBy_perm _ _ _))

theorem mem_getHosts {hostsIds : List HostId} {hs : List Host}
    (h : Select.run order (db.view x) (.getHosts hostsIds) = .ok hs) {host : Host} :
    host ∈ hs ↔
      host.id ∈ hostsIds ∧ (db.hosts.cell host.id).view x = some host.toHostRow := by
  have hs' := Except.ok.inj h
  subst hs'
  simp [mem_view_hosts, and_comm]

/-- The first free host of a group, whichever it is, is free and of the group. -/
theorem of_getFirstAvailableGroupHost {groupId : GroupId} {host : Host}
    (h : Select.run order (db.view x) (.getFirstAvailableGroupHost groupId) = .ok (some host)) :
    (db.hosts.cell host.id).view x = some host.toHostRow ∧ host.userId = none ∧
      host.groupId = groupId := by
  have hmem := mem_of_head?_arrange (Except.ok.inj h)
  simp only [List.mem_filter, decide_eq_true_eq, mem_view_hosts] at hmem
  exact hmem

theorem of_getLeasedHost {hostId : HostId} {l : LeasedHost}
    (h : Select.run order (db.view x) (.getLeasedHost hostId) = .ok l) :
    l.id = hostId ∧ ∃ r, (db.hosts.cell hostId).view x = some r ∧
      r.userId = some l.user.id ∧ r.leasedUntil = some l.leasedUntil := by
  simp only [Select.run] at h
  split at h
  · rename_i r hr
    have hmem := mem_of_head?_arrange hr
    simp only [List.mem_filter, decide_eq_true_eq] at hmem
    obtain ⟨hjoin, hid⟩ := hmem
    obtain ⟨hl, _, _, huntil, _, huser⟩ := LeasedHost.ofRow_ok.mp h
    obtain ⟨hh, _, hheld⟩ := mem_join.mp hjoin
    refine ⟨hl.trans hid, r.1.toHostRow, ?_, ?_, huntil⟩
    · rw [← hid]; exact mem_view_hosts.mp hh
    · rw [huser]; exact hheld
  · cases h

end Answers

/-! ## The limit a request finds -/

namespace HostsService

theorem mapM_toUsize {limits : List AdGroupLeaseLimit} {ns : List Nat} :
    limits.mapM (fun gl => toUsize gl.limit) = some ns ↔
      (∀ gl ∈ limits, 0 ≤ gl.limit) ∧ ns = limits.map fun gl => gl.limit.toNat := by
  induction limits generalizing ns with
  | nil => simp [eq_comm]
  | cons gl limits ih =>
    rw [List.mapM_cons]
    by_cases h : 0 ≤ gl.limit
    · have hgl : toUsize gl.limit = some gl.limit.toNat := if_pos h
      simp only [hgl, Option.bind_eq_bind, Option.bind_some, List.mem_cons, forall_eq_or_imp, h,
        true_and, List.map_cons, Option.bind_eq_some_iff, ih, Option.pure_def, Option.some.injEq]
      constructor
      · rintro ⟨ns', ⟨hall, rfl⟩, rfl⟩; exact ⟨hall, rfl⟩
      · rintro ⟨hall, rfl⟩; exact ⟨_, ⟨hall, rfl⟩, rfl⟩
    · have hgl : toUsize gl.limit = none := if_neg h
      simp [hgl, h]

/-- The limit is the largest of the matching rows, or the default; a negative one has none. -/
theorem limitOf_eq_some {self : HostsService} {limits : List AdGroupLeaseLimit} {limit : Nat} :
    self.limitOf limits = some limit ↔ (∀ gl ∈ limits, 0 ≤ gl.limit) ∧
      (limits.map fun gl => gl.limit.toNat).max?.getD self.leaseLimit = limit := by
  simp only [limitOf, Option.map_eq_some_iff, mapM_toUsize]
  constructor
  · rintro ⟨ns, ⟨hall, rfl⟩, rfl⟩; exact ⟨hall, rfl⟩
  · rintro ⟨hall, rfl⟩; exact ⟨_, ⟨hall, rfl⟩, rfl⟩

theorem max?_perm {l l' : List Nat} (h : l.Perm l') : l.max? = l'.max? := by
  ext a
  simp only [List.max?_eq_some_iff, h.mem_iff]

theorem limitOf_perm (self : HostsService) {limits limits' : List AdGroupLeaseLimit}
    (h : limits.Perm limits') : self.limitOf limits = self.limitOf limits' := by
  ext limit
  rw [limitOf_eq_some, limitOf_eq_some, max?_perm (h.map _)]
  simp only [h.mem_iff]

end HostsService

end Tachikoma
