import Tachikoma.Proof.Links
import Tachikoma.Proof.Pages
import Tachikoma.Proof.Visits

/-!
# The pages of hosts show no markup of their users

The templates of the host pages escape nothing either, but none of the texts that they show is one
that a user has chosen: the hosts and groups are those of the database, the address of a holder is
the directory's, and the messages are the program's own: whatever an answer leaves for the next page
is one of a few texts (`messages_of_run`). So **no `<` gets onto these pages** that was not in the
tables from the beginning, in an answer of the directory, or in what the server shows of the user
that looks, whatever is sent to the server (`plain_of_run`). On the page of API tokens it is
otherwise.
-/

set_option autoImplicit false

namespace Tachikoma

open Interleaving Markup Versioned

/-! ## Texts -/

@[simp] theorem angleless_append {s t : String} :
    Angleless (s ++ t) ↔ Angleless s ∧ Angleless t := by
  simp [Angleless, not_or]

theorem angleless_repr (n : Nat) : Angleless n.repr := angleless_toString (n : Int)

theorem digitChar_ne_angle : ∀ n < 16, Nat.digitChar n ≠ '<' := by decide

theorem angleless_hex (n : Nat) : Angleless (String.ofList (Nat.toDigits 16 n)) := by
  unfold Angleless
  rw [String.toList_ofList]
  induction n using Nat.strongRecOn with
  | ind n ih =>
    rw [Nat.toDigits_eq_if (by decide)]
    split
    · rename_i hlt
      rw [List.mem_singleton]
      exact (digitChar_ne_angle n hlt).symm
    · rename_i hge
      rw [List.mem_append, List.mem_singleton, not_or]
      have hlt : n % 16 < 16 := Nat.mod_lt n (by decide)
      exact ⟨ih (n / 16) (by omega), (digitChar_ne_angle _ hlt).symm⟩

theorem angleless_intercalate {sep : String} {l : List String} (hsep : Angleless sep)
    (hl : ∀ s ∈ l, Angleless s) : Angleless (sep.intercalate l) := by
  induction l with
  | nil => simp [Angleless]
  | cons s l ih =>
    have hs : Angleless s := hl s List.mem_cons_self
    have hrest := ih fun s' hs' => hl s' (List.mem_cons_of_mem _ hs')
    by_cases hnil : l = []
    · simpa [hnil] using hs
    · rw [String.intercalate_cons_of_ne_nil hnil]
      simp [hs, hsep, hrest]

theorem angleless_displayIpv4 (addr : Nat) : Angleless (displayIpv4 addr) := by
  have hdot : Angleless (toString ".") := by decide
  simp [displayIpv4, angleless_repr, hdot]

theorem angleless_displaySegments (segments : List Nat) : Angleless (displaySegments segments) := by
  refine angleless_intercalate (by decide) fun s hs => ?_
  obtain ⟨n, -, rfl⟩ := List.mem_map.mp hs
  exact angleless_hex n

theorem angleless_displayIpv6 (addr : Nat) : Angleless (displayIpv6 addr) := by
  have hmapped : Angleless (toString "::ffff:") := by decide
  have hcolons : Angleless "::" := by decide
  unfold displayIpv6
  split
  · exact angleless_append.mpr ⟨hmapped, angleless_displayIpv4 _⟩
  · dsimp only
    split
    · simp [hcolons, angleless_displaySegments]
    · exact angleless_displaySegments _

theorem IpNetwork.angleless_ipText (a : IpNetwork) : Angleless a.ipText := by
  unfold ipText
  split
  · exact angleless_displayIpv6 _
  · exact angleless_displayIpv4 _

theorem angleless_formatDuration (duration : TimeDelta) : Angleless (formatDuration duration) := by
  have hdays : Angleless (toString " days, ") := by decide
  have hhours : Angleless (toString " hours, ") := by decide
  have hminutes : Angleless (toString " minutes") := by decide
  unfold formatDuration
  simp only [angleless_append]
  exact ⟨⟨⟨⟨⟨angleless_toString _, hdays⟩, angleless_toString _⟩, hhours⟩, angleless_toString _⟩,
    hminutes⟩

/-! ## Pages -/

namespace HostsPage

/-- The page has no `<` but those of its templates, and no tags but theirs. -/
structure Own {T : Type} [Template T] (page : HostsPage T) : Prop where
  angles : angles (Template.page page) = anglesIn (literal (Template.pieces page))
  tags : tags (Template.page page) = (literal (Template.pieces page)).flatMap tags

/-- What is around the content. -/
def bare {T : Type} (page : HostsPage T) : HostsPage TokensPage :=
  { page with page := ⟨[], none, none⟩ }

variable {T : Type} [Template T] {page : HostsPage T}

theorem harmless_iff : Harmless (Template.pieces page) ↔
    Harmless (Template.pieces page.page) ∧ Harmless (Template.pieces page.bare) := by
  have hempty : Harmless (Template.pieces (⟨[], none, none⟩ : TokensPage)) := by
    simp [TokensPage.harmless_pieces]
  show Harmless (basePieces (List.flatten _)) ↔ _ ∧ Harmless (basePieces (List.flatten _))
  simp only [basePieces, List.flatten_cons, List.flatten_nil, harmless_append, harmless_text,
    harmless_hole, harmless_nil, bare, hempty, and_true, true_and]

theorem whole_of_page (h : Whole (Template.pieces page.page)) : Whole (Template.pieces page) := by
  have hgroups : Whole (page.user.groups.flatMap groupPieces) :=
    Whole.flatMap fun group _ => whole_groupPieces group
  show Whole (basePieces (List.flatten _))
  simp only [basePieces, List.flatten_cons, List.flatten_nil, List.append_nil, whole_append,
    whole_text, whole_hole, whole_nil, h, whole_linkPieces, hgroups, and_true, true_and]
  and_intros
  all_goals
    apply closed_ofList
    decide +kernel

/-- It takes no more than that nothing is put in that has a `<`, into the content or around it. -/
theorem own_of_plain (hwhole : Whole (Template.pieces page.page))
    (hharmless : Harmless (Template.pieces page.page)) (hplain : PlainTexts page.bare) :
    page.Own := by
  have hpage : Harmless (Template.pieces page) :=
    harmless_iff.mpr ⟨hharmless, harmless_pieces.mpr hplain⟩
  exact ⟨(angles_render_iff _).mpr hpage, tags_render (whole_of_page hwhole) hpage⟩

end HostsPage

/-! ## The hosts on them -/

/-- Nothing that is shown of the host has a `<`. -/
structure HostInfo.Plain (info : HostInfo) : Prop where
  hostname : Angleless info.hostname
  ipAddress : Angleless info.ipAddress
  lease : ∀ leaseInfo ∈ info.leaseInfo, Angleless leaseInfo.validFor ∧ Angleless leaseInfo.leasedBy

namespace HostInfo

variable {now : Time} {host : Host}

theorem plain_of_free (hname : Angleless host.hostname) : (HostInfo.ofFreeHost host).Plain :=
  ⟨hname, host.ipAddress.angleless_ipText, fun _ h => by cases h⟩

theorem plain_ofHost {user : Option User} (hname : Angleless host.hostname)
    (hmail : ∀ u ∈ user, Angleless u.email) : (HostInfo.ofHost now host user).Plain := by
  refine ⟨hname, host.ipAddress.angleless_ipText, fun leaseInfo h => ?_⟩
  have h : leaseInfo ∈ leaseInfoOf now user host.leasedUntil := h
  unfold leaseInfoOf at h
  split at h
  · obtain rfl := Option.some.inj h
    exact ⟨angleless_formatDuration _, hmail _ rfl⟩
  · cases h

theorem plain_ofLeasedHost {l : LeasedHost} (hname : Angleless l.hostname)
    (hmail : Angleless l.user.email) : (HostInfo.ofLeasedHost now l).Plain := by
  refine ⟨hname, l.ipAddress.angleless_ipText, fun leaseInfo h => ?_⟩
  obtain rfl := Option.some.inj h
  exact ⟨angleless_formatDuration _, hmail⟩

end HostInfo

theorem HostId.angleless_display (id : HostId) : Angleless id.display := angleless_toString _

theorem GroupId.angleless_display (id : GroupId) : Angleless id.display := angleless_toString _

namespace HostsLeasePage

theorem whole_errorPieces (error : Option String) : Whole (errorPieces error) := by
  cases error
  all_goals
    simp only [errorPieces, whole_text, whole_hole, whole_nil, and_true]
  and_intros
  all_goals
    apply closed_ofList
    decide

theorem whole_hostPieces (host : HostInfo) : Whole (hostPieces host) := by
  simp only [hostPieces, whole_text, whole_hole, whole_nil, and_true]
  and_intros
  all_goals
    apply closed_ofList
    decide

theorem whole_leasedPieces (displayTime : Time → String) (host : LeasedHostInfo) :
    Whole (leasedPieces displayTime host) := by
  simp only [leasedPieces, whole_text, whole_hole, whole_nil, and_true]
  and_intros
  all_goals
    apply closed_ofList
    decide

theorem whole_groupPieces (group : GroupInfo) : Whole (groupPieces group) := by
  simp only [groupPieces, whole_text, whole_hole, whole_nil, and_true]
  and_intros
  all_goals
    apply closed_ofList
    decide +kernel

theorem whole_pieces (page : HostsLeasePage) : Whole (Template.pieces page) := by
  have hhosts : Whole (page.hosts.flatMap hostPieces) :=
    Whole.flatMap fun host _ => whole_hostPieces host
  have hleased : Whole (page.leased.flatMap (leasedPieces page.displayTime)) :=
    Whole.flatMap fun host _ => whole_leasedPieces _ host
  have hgroups : Whole (page.groups.flatMap groupPieces) :=
    Whole.flatMap fun group _ => whole_groupPieces group
  show Whole (List.flatten _)
  simp only [List.flatten_cons, List.flatten_nil, List.append_nil, whole_append, whole_text,
    whole_hole, whole_nil, whole_errorPieces, hhosts, hleased, hgroups, and_true, true_and]
  and_intros
  all_goals
    apply closed_ofList
    decide +kernel

/-- Nothing that the page shows has a `<`. -/
structure Plain (page : HostsLeasePage) : Prop where
  displayTime : ∀ t, Angleless (page.displayTime t)
  groups : ∀ group ∈ page.groups, Angleless group.name
  selectedGroup : Angleless page.selectedGroup.name
  hosts : ∀ info ∈ page.hosts, info.Plain
  leased : ∀ host ∈ page.leased, host.info.Plain
  error : ∀ error ∈ page.error, Angleless error

theorem Plain.harmless {page : HostsLeasePage} (h : page.Plain) :
    Harmless (Template.pieces page) := by
  have herror : Harmless (errorPieces page.error) := by
    have hplain := h.error
    cases herror : page.error with
    | none => simp [errorPieces]
    | some error => simpa [errorPieces, herror] using hplain
  have hhosts : ∀ info ∈ page.hosts, Harmless (hostPieces info) := fun info hinfo => by
    have hplain := h.hosts info hinfo
    simp [hostPieces, HostId.angleless_display, hplain.hostname, hplain.ipAddress]
  have hleased : ∀ host ∈ page.leased, Harmless (leasedPieces page.displayTime host) :=
    fun host hhost => by
      have hplain := h.leased host hhost
      have hlease := (hplain.lease host.leaseInfo host.isLeased).1
      simp [leasedPieces, HostId.angleless_display, hplain.hostname, hplain.ipAddress,
        h.displayTime, hlease]
  have hgroups : ∀ group ∈ page.groups, Harmless (groupPieces group) := fun group hgroup => by
    simp [groupPieces, GroupId.angleless_display, h.groups group hgroup]
  show Harmless (List.flatten _)
  simp only [List.flatten_cons, List.flatten_nil, List.append_nil, harmless_append, harmless_text,
    harmless_hole, harmless_nil, harmless_flatMap, and_true, true_and]
  exact ⟨h.selectedGroup, herror, GroupId.angleless_display _, hhosts, hleased, hgroups⟩

end HostsLeasePage

namespace AllHostsPage

theorem whole_leasePieces (leaseInfo : Option LeaseInfo) : Whole (leasePieces leaseInfo) := by
  cases leaseInfo
  all_goals
    simp only [leasePieces, whole_text, whole_hole, whole_nil, and_true]
  apply closed_ofList
  decide

theorem whole_hostPieces (host : HostInfo) : Whole (hostPieces host) := by
  simp only [hostPieces, List.flatten_cons, List.flatten_nil, List.append_nil, whole_append,
    whole_text, whole_hole, whole_nil, whole_leasePieces, and_true, true_and]
  and_intros
  all_goals
    apply closed_ofList
    decide

theorem whole_pieces (page : AllHostsPage) : Whole (Template.pieces page) := by
  have hhosts : Whole (page.hosts.flatMap hostPieces) :=
    Whole.flatMap fun host _ => whole_hostPieces host
  show Whole (List.flatten _)
  simp only [List.flatten_cons, List.flatten_nil, List.append_nil, whole_append, whole_text,
    whole_nil, hhosts, and_true, true_and]
  and_intros
  all_goals
    apply closed_ofList
    decide +kernel

theorem harmless_of_plain {page : AllHostsPage} (h : ∀ info ∈ page.hosts, info.Plain) :
    Harmless (Template.pieces page) := by
  have hhosts : ∀ info ∈ page.hosts, Harmless (hostPieces info) := fun info hinfo => by
    have hplain := h info hinfo
    have hlease : Harmless (leasePieces info.leaseInfo) := by
      have hlease := hplain.lease
      cases hinfo : info.leaseInfo with
      | none => simp [leasePieces]
      | some leaseInfo => simpa [leasePieces] using (hlease leaseInfo hinfo).2
    simp [hostPieces, HostId.angleless_display, hplain.hostname, hplain.ipAddress, hlease]
  show Harmless (List.flatten _)
  simpa using hhosts

end AllHostsPage

/-! ## The tables -/

/-- Neither the name of a host nor the address of a user has a `<`. -/
structure Rows.Plain (m : Rows) : Prop where
  host : ∀ id row, m.host id = some row → Angleless row.hostname
  user : ∀ u row, m.user u = some row → Angleless row.email

theorem HostWrite.set_hostname (x : HostWrite) (r : HostRow) : (x.set r).hostname = r.hostname := by
  cases x <;> rfl

section Rows

variable {m₀ m m' : Rows} {x : Performed}

theorem Performed.Applies.plain (hx : x.Applies m m') (hm : m.Plain)
    (hmail : ∀ dn tgHandle email, x.write = .addUser dn tgHandle email → Angleless email) :
      m'.Plain := by
  -- The names of hosts are written by nobody; an address comes with a new user only.
  refine ⟨fun id row hrow => ?_, fun u row hrow => ?_⟩
  · rw [hx.host] at hrow
    cases hchanged : x.write.hostChanges x.seen id with
    | none =>
      rw [Changes.onto_of_none hchanged] at hrow
      exact hm.host id row hrow
    | some r =>
      have hseen := hx.seen id r hchanged
      obtain rfl := Option.some.inj ((Changes.onto_of_some hchanged _).symm.trans hrow)
      generalize x.write = y at hchanged
      cases y with
      | hosts y =>
        obtain ⟨s, hs, -, rfl⟩ := Changes.update_eq_some.mp hchanged
        rw [HostWrite.set_hostname]
        exact hm.host id s (hseen.trans hs)
      | setUserTgHandle v tgHandle => cases hchanged
      | addUser dn tgHandle email => cases hchanged
  · cases hr : m.user u with
    | some r =>
      obtain ⟨r', hr', hsame⟩ := hx.sameAccount hr
      obtain rfl := Option.some.inj (hr'.symm.trans hrow)
      rw [hsame.email]
      exact hm.user u r hr
    | none =>
      obtain ⟨-, -, δ, hδ, hbase, huser⟩ := hx
      rw [huser] at hrow
      cases hchanged : δ u with
      | none =>
        rw [Changes.onto_of_none hchanged, hr] at hrow
        cases hrow
      | some r =>
        have hseen : x.seen.user u = none := (hbase u r hchanged).symm.trans hr
        obtain rfl := Option.some.inj ((Changes.onto_of_some hchanged _).symm.trans hrow)
        generalize x.write = y at hδ hmail
        cases hδ with
        | hosts y => cases hchanged
        | setUserTgHandle v tgHandle =>
          obtain ⟨s, hs, -, -⟩ := Changes.update_eq_some.mp hchanged
          rw [hseen] at hs
          cases hs
        | addUser dn tgHandle email link id hid =>
          obtain ⟨-, rfl⟩ := Changes.single_eq_some.mp hchanged
          exact hmail dn tgHandle email rfl

theorem Replays.plain {xs : List Performed} (h : Replays m₀ xs m) (hm : m₀.Plain)
    (hmail : ∀ x ∈ xs, ∀ dn tgHandle email, x.write = .addUser dn tgHandle email →
      Angleless email) :
    m.Plain := by
  induction h with
  | nil => exact hm
  | cons _ happlies ih =>
    apply happlies.plain
    · exact ih fun x hx => hmail x (List.mem_cons_of_mem _ hx)
    · exact hmail _ List.mem_cons_self

end Rows

/-- Nor has a group. -/
structure Tables.Plain (t : Tables) : Prop where
  hosts : ∀ h ∈ t.hosts, Angleless h.hostname
  users : ∀ u ∈ t.users, Angleless u.email
  groups : ∀ g ∈ t.groups, Angleless g.name

theorem Tables.Plain.rows {t : Tables} (ht : t.Plain) : t.world.rows.Plain := by
  refine ⟨fun id row hrow => ?_, fun u row hrow => ?_⟩
  · obtain ⟨h, hh, -, rfl⟩ := t.world_host.mp hrow
    exact ht.hosts h hh
  · obtain ⟨user, huser, -, rfl⟩ := t.world_user.mp hrow
    exact ht.users user huser

/-- A mail address that the directory has given. -/
def directoryMail : ServerEvent → Option String
  | .did _ _ (.findUserInfo _) (.ok (some info)) _ _ => some info.email
  | _ => none

/-- The mail addresses in the directory have no `<`, as far as it has been asked. -/
def PlainDirectory (tr : ServerTrace) : Prop := ∀ ev ∈ tr, ∀ mail ∈ directoryMail ev, Angleless mail

/-! ## Reading in a run -/

section Runs

variable {cfg : ServerConfig} {Cond : ServerHistory → ServerEvent → Prop} {start c c₁ : Server}
  {t : Tables} {timer : ReleaseTimer}

/-- The effect may be answered so at some moment of the run, to a task that has nothing pending. -/
def AnsweredIn (cfg : ServerConfig) (Cond : ServerHistory → ServerEvent → Prop) (start c : Server)
    (e : Effect) (r : e.Res) : Prop :=
  ∃ c₁, (server cfg).Run Cond start c₁ ∧ (server cfg).Run Cond c₁ c ∧ ∃ p env w',
    Clean p c₁.hist.state ∧ act p e env c₁.hist.state = some (r, w')

/-- **Every moment of a run**: what the tables show has no `<` if what they started with had none,
    and what the directory says. -/
theorem plain_rows (hrun : (server cfg).Run Cond (t.serverWith timer) c) (ht : t.Plain)
    (hdirectory : PlainDirectory c.hist.trace) : c.hist.state.rows.Plain := by
  have hrested := (rested_of_server hrun).1
  obtain ⟨newer, hnewer, hreplays⟩ := hrested.committed.replays
  rw [show performed ([] : ServerTrace) = [] from rfl, List.append_nil] at hnewer
  rw [← hnewer] at hreplays
  refine hreplays.plain ht.rows fun x hx dn tgHandle email hwrite => ?_
  have hrests := hrested.rests hx
  rw [hwrite] at hrests
  obtain ⟨login, password, info, -, -, ⟨w, w', hasked⟩, -, -, -, rfl⟩ := hrests
  exact hdirectory _ hasked info.email rfl

theorem PlainDirectory.before (hrun : (server cfg).Run Cond c₁ c)
    (h : PlainDirectory c.hist.trace) :
    PlainDirectory c₁.hist.trace := fun ev hev => h ev (hrun.mem_trace _ hev)

/-- What a task that has nothing pending sees of them. -/
structure PlainView (v : View) : Prop where
  hosts : ∀ h ∈ v.hosts, Angleless h.hostname
  users : ∀ u ∈ v.users, Angleless u.email

theorem AnsweredIn.plain_view {tx : RegistryTx} {q : Select} {rows : q.Rows} (ht : t.Plain)
    (hdirectory : PlainDirectory c.hist.trace)
    (hanswered : AnsweredIn cfg Cond (t.serverWith timer) c (.fetch tx q) (.ok rows)) :
    ∃ order v, PlainView v ∧ q.run order v = .ok rows := by
  obtain ⟨c₁, hrun, hrest, p, env, w', hclean, hact⟩ := hanswered
  have hplain := plain_rows hrun ht (hdirectory.before hrest)
  obtain ⟨-, hr⟩ := act_fetch hact
  rcases hr with hr | hr
  · cases hr
  · refine ⟨env.order, _, ⟨fun h hh => ?_, fun u hu => ?_⟩, hr.symm⟩
    · exact hplain.host h.id h.toHostRow ((hclean.view tx h.id).symm.trans (mem_view_hosts.mp hh))
    · exact hplain.user u.id u.toUserRow ((hclean.view_user tx u.id).symm.trans
        (mem_view_users.mp hu))

end Runs

/-! ## The programs of the pages -/

namespace Task

variable {ε ε' α β : Type} {can : (e : Effect) → e.Res → Prop} {Q : α → Prop}

/-- The value that the task ends with, if it ends with one, satisfies `Q`, as long as all answers
    are such as can be given. -/
def GivesIf (can : (e : Effect) → e.Res → Prop) (Q : α → Prop) (x : Task ε α) : Prop :=
  Prog.ReturnsIf can (fun r => ∀ a, r = .ok a → Q a) x

theorem givesIf_pure {a : α} (h : Q a) : (pure a : Task ε α).GivesIf can Q := by
  intro b hb
  cases hb
  exact h

theorem givesIf_throw {e : ε} : (Task.throw e : Task ε α).GivesIf can Q := fun _ ha => by cases ha

theorem givesIf_panic {msg : String} : (Task.panic msg : Task ε α).GivesIf can Q :=
  fun _ ha => by cases ha

theorem givesIf_bind {x : Task ε β} {f : β → Task ε α}
    (h : x.GivesIf can fun b => (f b).GivesIf can Q) : (x >>= f).GivesIf can Q := by
  refine Prog.ReturnsIf.bind h fun r hr => ?_
  cases r with
  | ok b => exact hr b rfl
  | err e => exact givesIf_throw
  | panic msg => exact givesIf_panic

theorem givesIf_mapErr {f : ε' → ε} {x : Task ε' α} (h : x.GivesIf can Q) :
    (x.mapErr f).GivesIf can Q := by
  refine Prog.ReturnsIf.bind h fun r hr => ?_
  cases r with
  | ok a => exact givesIf_pure (hr a rfl)
  | err e => exact givesIf_throw
  | panic msg => exact givesIf_panic

theorem givesIf_attempt {Q : Except ε' α → Prop} {x : Task ε' α}
    (h : x.GivesIf can fun a => Q (.ok a)) (herr : ∀ e, Q (.error e)) :
    (x.attempt : Task ε (Except ε' α)).GivesIf can Q := by
  refine Prog.ReturnsIf.bind h fun r hr => ?_
  cases r with
  | ok a => exact givesIf_pure (hr a rfl)
  | err e => exact givesIf_pure (herr e)
  | panic msg => exact givesIf_panic

theorem givesIf_unwrap {x : Task ε' α} (h : x.GivesIf can Q) :
    (unwrap x : Task ε α).GivesIf can Q := by
  refine givesIf_bind (givesIf_attempt ?_ fun e => givesIf_panic)
  exact Prog.ReturnsIf.mono (fun r hr a ha => givesIf_pure (hr a ha)) h

theorem givesIf_utcNow {Q : Time → Prop} (h : ∀ now, Q now) :
    (utcNow : Task ε Time).GivesIf can Q :=
  fun now _ => givesIf_pure (h now)

theorem givesIf_fetch {tx : RegistryTx} {q : Select} {Q : q.Rows → Prop}
    (h : ∀ rows, can (.fetch tx q) (.ok rows) → Q rows) : (tx.fetch q).GivesIf can Q := by
  intro r hr
  cases r with
  | ok rows => exact givesIf_pure (h rows hr)
  | error e => exact givesIf_throw

theorem givesIf_commit {tx : RegistryTx} {Q : Unit → Prop} (h : Q ()) :
    tx.commit.GivesIf can Q := by
  intro r _
  cases r with
  | ok a => exact givesIf_pure h
  | error e => exact givesIf_throw

theorem givesIf_withTx {f : SqlxError → ε} {scope : RegistryTx → Task ε α}
    (h : ∀ tx, (scope tx).GivesIf can Q) : (withTx f scope).GivesIf can Q := by
  intro r _
  cases r with
  | error e => exact givesIf_throw
  | ok tx => exact Prog.ReturnsIf.bind (h tx) fun r hr _ _ => hr

/-- A transaction of one reading. -/
theorem givesIf_reading {q : Select} {f : SqlxError → ε} {Q : q.Rows → Prop}
    (h : ∀ tx rows, can (.fetch tx q) (.ok rows) → Q rows) :
    (withTx f fun tx => do
      let rows ← (tx.fetch q).mapErr f
      tx.commit.mapErr f
      return rows).GivesIf can Q := by
  refine givesIf_withTx fun tx => givesIf_bind (givesIf_mapErr (givesIf_fetch fun rows hrows => ?_))
  exact givesIf_bind (givesIf_mapErr (givesIf_commit (givesIf_pure (h tx rows hrows))))

end Task

/-! ## The messages -/

/-- The messages that the handlers leave for the next page. -/
inductive PageMessage : FlashLevel × String → Prop where
  | host (e : HostError) : PageMessage (.error, e.message)
  | token {flash : FlashLevel × String} (h : HandlerFlash flash) : PageMessage flash
  | credentials : PageMessage (.error, "Wrong credentials")
  | login : PageMessage (.error, "Something went wrong")

theorem PageMessage.angleless {flash : FlashLevel × String} (h : PageMessage flash) :
    Angleless flash.2 := by
  cases h with
  | host e =>
    cases e with
    | databaseError e =>
      show Angleless "Database error"
      decide
    | thereIsNoFreeHosts => decide
    | alreadyLeased hosts =>
      show Angleless "Host is already leased"
      decide
    | leaseLimit => decide
    | unexpectedError e =>
      show Angleless "Unexpected error"
      decide
  | token h => exact h.angleless
  | credentials => decide
  | login => decide

section Messages

variable {can : (e : Effect) → e.Res → Prop} {service : HostsService} {user : AuthUser}

/-- What is left for the next page is one of them. -/
def PageResponse.Messages (response : PageResponse) : Prop :=
  ∀ flash ∈ response.flashes, PageMessage flash

theorem PageResponse.Messages.rejected (e : Serde.DecodeError) :
    (PageResponse.rejected e).Messages :=
  fun _ hflash => absurd hflash List.not_mem_nil

theorem PageResponse.Messages.done (uri : String) : (PageResponse.redirect none uri).Messages :=
  fun _ hflash => absurd hflash List.not_mem_nil

theorem PageResponse.Messages.failed (e : HostError) (uri : String) :
    (PageResponse.redirect (some (.error, e.message)) uri).Messages := by
  intro flash hflash
  obtain rfl := List.mem_singleton.mp hflash
  exact .host e

theorem Task.givesIf_attempted {ε α : Type} {Q : Except ε α → Prop} {x : Task ε α}
    (hok : ∀ a, Q (.ok a)) (herr : ∀ e, Q (.error e)) :
    (x.attempt : Task Infallible (Except ε α)).GivesIf can Q :=
  Task.givesIf_attempt
    (Prog.ReturnsIf.of_returns ((Prog.returns_true x).mono fun _ _ a _ => hok a)) herr

theorem pageLeaseHosts_messages {form : Form} :
    (Page.leaseHosts service user form).GivesIf can PageResponse.Messages := by
  unfold Page.leaseHosts
  split
  · exact Task.givesIf_pure (.rejected _)
  · refine Task.givesIf_bind (Task.givesIf_attempted (fun a => ?_) fun e => ?_)
    · exact Task.givesIf_pure (.done _)
    · exact Task.givesIf_pure (.failed e _)

theorem pageLeaseRandom_messages {groupId : GroupId} {form : Form} :
    (Page.leaseRandom service user groupId form).GivesIf can PageResponse.Messages := by
  unfold Page.leaseRandom
  split
  · exact Task.givesIf_pure (.rejected _)
  · refine Task.givesIf_bind (Task.givesIf_attempted (fun a => ?_) fun e => ?_)
    · exact Task.givesIf_pure (.done _)
    · exact Task.givesIf_pure (.failed e _)

theorem pageReleaseHosts_messages {form : Form} :
    (Page.releaseHosts user form).GivesIf can PageResponse.Messages := by
  unfold Page.releaseHosts
  split
  · exact Task.givesIf_pure (.rejected _)
  · refine Task.givesIf_bind (Task.givesIf_attempted (fun a => ?_) fun e => Task.givesIf_panic)
    exact Task.givesIf_pure (.done _)

theorem pageReleaseAll_messages : (Page.releaseAll user).GivesIf can PageResponse.Messages := by
  refine Task.givesIf_bind (Task.givesIf_attempted (fun a => ?_) fun e => Task.givesIf_panic)
  exact Task.givesIf_pure (.done _)

/-- **No handler leaves any other message.** -/
theorem handle_messages (req : Request) : (req.handle service user).GivesIf can fun answer =>
    ∀ response, answer = .page response → response.Messages := by
  have hpage : ∀ {x : Task Infallible PageResponse}, x.GivesIf can PageResponse.Messages →
      (do return .page (← x) : Task Infallible Answer).GivesIf can fun answer =>
        ∀ response, answer = .page response → response.Messages := by
    intro x hx
    refine Task.givesIf_bind (Prog.ReturnsIf.mono (fun r hr a ha => Task.givesIf_pure ?_) hx)
    intro response heq
    cases heq
    exact hr a ha
  have hother : ∀ {α : Type} {x : Task Infallible α} {f : α → Answer},
      (∀ a response, f a ≠ .page response) →
      (do return f (← x) : Task Infallible Answer).GivesIf can fun answer =>
        ∀ response, answer = .page response → response.Messages := by
    intro α x f hf
    refine Task.givesIf_bind (Prog.ReturnsIf.of_returns ((Prog.returns_true x).mono
      fun _ _ a _ => ?_))
    exact Task.givesIf_pure fun response heq => absurd heq (hf a response)
  -- Only the four handlers of the pages answer with a page.
  cases req with
  | pageLeaseHosts form => exact hpage pageLeaseHosts_messages
  | pageLeaseRandom groupId form => exact hpage pageLeaseRandom_messages
  | pageReleaseHosts form => exact hpage pageReleaseHosts_messages
  | pageReleaseAll => exact hpage pageReleaseAll_messages
  | extendCallback account data =>
    show (answerExtendCallback (tgUserId account) data).GivesIf can _
    unfold answerExtendCallback
    split
    · exact Task.givesIf_pure fun response heq => by cases heq
    · split
      · exact Task.givesIf_pure fun response heq => by cases heq
      · exact hother fun a response heq => by cases heq
  | _ => exact hother fun a response heq => by cases heq

/-- Nor does a login. -/
theorem login_messages {username password : String} :
    (login username password).GivesIf can fun answer =>
    ∀ flash uri, answer = .redirect flash uri → PageMessage flash := by
  refine Task.givesIf_bind (Task.givesIf_attempted (fun user => ?_) fun e => ?_)
  · cases user with
    | none =>
      refine Task.givesIf_pure fun flash uri heq => ?_
      cases heq
      exact .credentials
    | some user => exact Task.givesIf_pure fun flash uri heq => by cases heq
  · refine Task.givesIf_pure fun flash uri heq => ?_
    cases heq
    exact .login

/-- What a task has left for the next page with its last answer. -/
def ServerLocal.flashes : ServerLocal → List (FlashLevel × String)
  | .answered (.ok (.page response)) => response.flashes
  | .loggedIn (.ok (.redirect flash _)) => [flash]
  | _ => []

/-- What it has left is one of the messages. -/
def ServerLocal.Messages (l : ServerLocal) : Prop := ∀ flash ∈ l.flashes, PageMessage flash

theorem Entry.body_messages {cfg : ServerConfig} (κ : Entry) {l : ServerLocal} (hl : l.Messages) :
    (κ.body cfg l).ReturnsIf can ServerLocal.Messages := by
  have hnone : ∀ {l : ServerLocal}, l.flashes = [] → l.Messages := by
    intro l h flash hflash
    rw [h] at hflash
    cases hflash
  have hprogram : ∀ self, (κ.program cfg self).ReturnsIf can ServerLocal.Messages := by
    intro self
    cases κ with
    | request user req =>
      refine Prog.ReturnsIf.bind (handle_messages req) fun r hr => ?_
      show (ServerLocal.answered r).Messages
      cases r with
      | ok answer =>
        cases answer with
        | page response => exact hr _ rfl response rfl
        | _ => exact hnone rfl
      | _ => exact hnone rfl
    | login username password =>
      refine Prog.ReturnsIf.bind login_messages fun r hr => ?_
      show (ServerLocal.loggedIn r).Messages
      cases r with
      | ok answer =>
        cases answer with
        | session user => exact hnone rfl
        | redirect flash uri =>
          intro flash' hflash
          obtain rfl := List.mem_singleton.mp hflash
          exact hr _ rfl flash' uri rfl
      | _ => exact hnone rfl
    | message sender text =>
      exact Prog.ReturnsIf.bind (.of_returns (Prog.returns_true _)) fun r _ => hnone rfl
    | turn =>
      refine Prog.ReturnsIf.bind (.of_returns (Prog.returns_true _)) fun r _ => ?_
      cases r <;> exact hnone rfl
  -- A server that has crashed answers nothing any more.
  cases l with
  | crashed => exact hl
  | _ => exact hprogram _

end Messages

section Pages

variable {ε : Type} {can : (e : Effect) → e.Res → Prop}

theorem givesIf_ofLeasedHosts {ls : List LeasedHost}
    (h : ∀ l ∈ ls, Angleless l.hostname ∧ Angleless l.user.email) :
    (LeasedHostInfo.ofLeasedHosts ls : Task ε (List LeasedHostInfo)).GivesIf can fun infos =>
      ∀ host ∈ infos, host.info.Plain := by
  induction ls with
  | nil => exact Task.givesIf_pure fun _ hhost => absurd hhost List.not_mem_nil
  | cons l ls ih =>
    obtain ⟨hname, hmail⟩ := h l List.mem_cons_self
    refine Task.givesIf_bind (Task.givesIf_utcNow fun now => ?_)
    refine Task.givesIf_bind (Prog.ReturnsIf.mono ?_
      (ih fun l hl => h l (List.mem_cons_of_mem _ hl)))
    intro r hr infos hinfos
    refine Task.givesIf_pure fun host hhost => ?_
    rcases List.mem_cons.mp hhost with rfl | hhost
    · exact HostInfo.plain_ofLeasedHost hname hmail
    · exact hr infos hinfos host hhost

theorem givesIf_read {host : Host} {user : Option User} (hname : Angleless host.hostname)
    (hmail : ∀ u ∈ user, Angleless u.email) :
    (HostInfo.read host user : Task ε HostInfo).GivesIf can HostInfo.Plain := by
  unfold HostInfo.read
  split
  · exact Task.givesIf_bind (Task.givesIf_utcNow fun now =>
      Task.givesIf_pure (HostInfo.plain_ofHost hname hmail))
  · exact Task.givesIf_pure (HostInfo.plain_of_free hname)

theorem givesIf_readAll {pairs : List (Host × Option User)}
    (h : ∀ x ∈ pairs, Angleless x.1.hostname ∧ ∀ u ∈ x.2, Angleless u.email) :
    (HostInfo.readAll pairs : Task ε (List HostInfo)).GivesIf can fun infos =>
      ∀ info ∈ infos, info.Plain := by
  induction pairs with
  | nil => exact Task.givesIf_pure fun _ hinfo => absurd hinfo List.not_mem_nil
  | cons x pairs ih =>
    obtain ⟨host, user⟩ := x
    obtain ⟨hname, hmail⟩ := h _ List.mem_cons_self
    refine Task.givesIf_bind (Prog.ReturnsIf.mono ?_ (givesIf_read hname hmail))
    intro r hr info hinfo
    refine Task.givesIf_bind (Prog.ReturnsIf.mono ?_
      (ih fun x hx => h x (List.mem_cons_of_mem _ hx)))
    intro r' hr' infos hinfos
    refine Task.givesIf_pure fun info' hinfo' => ?_
    rcases List.mem_cons.mp hinfo' with rfl | hinfo'
    · exact hr _ hinfo
    · exact hr' infos hinfos info' hinfo'

end Pages

/-- What the server shows of itself and of the user that looks has no `<`. -/
structure PageSettings.Plain (settings : PageSettings) (user : AuthUser) : Prop where
  displayTime : ∀ t, Angleless (settings.displayTime t)
  version : Angleless settings.appInfo.version
  link : ∀ authLink ∈ settings.authLink, Angleless user.link ∧ Angleless authLink
  login : Angleless user.username
  groups : ∀ group ∈ user.groups, Angleless group

section Runs

variable {cfg : ServerConfig} {Cond : ServerHistory → ServerEvent → Prop} {c : Server} {t : Tables}
  {timer : ReleaseTimer} {settings : PageSettings} {user : AuthUser}

theorem PageSettings.Plain.bare (h : settings.Plain user) {T : Type} {content : T} :
    PlainTexts
      (HostsPage.bare ⟨content, .ofAuthUser user, settings.authLink, settings.appInfo⟩) where
  names := fun _ htoken => absurd htoken List.not_mem_nil
  createdToken := fun _ hs => by cases hs
  error := fun _ hs => by cases hs
  login := h.login
  groups := h.groups
  createdAt := fun _ htoken => absurd htoken List.not_mem_nil
  version := h.version
  link := h.link

theorem getAvailableGroupHosts_plain (ht : t.Plain) (hdirectory : PlainDirectory c.hist.trace)
    {groupId : GroupId} : (HostsService.getAvailableGroupHosts groupId).GivesIf
      (AnsweredIn cfg Cond (t.serverWith timer) c) fun hosts => ∀ h ∈ hosts,
        Angleless h.hostname := by
  apply Task.givesIf_reading (q := .getAvailableGroupHosts groupId)
  intro tx rows hanswered host hhost
  obtain ⟨order, v, hv, hread⟩ := hanswered.plain_view ht hdirectory
  cases Except.ok.inj hread
  rw [mem_orderBy, List.mem_filter] at hhost
  exact hv.hosts host hhost.1

theorem getLeasedHosts_plain (ht : t.Plain) (hdirectory : PlainDirectory c.hist.trace)
    {userId : UserId} : (HostsService.getLeasedHosts userId).GivesIf
      (AnsweredIn cfg Cond (t.serverWith timer) c) fun ls =>
        ∀ l ∈ ls, Angleless l.hostname ∧ Angleless l.user.email := by
  apply Task.givesIf_reading (q := .getLeasedHosts userId)
  intro tx rows hanswered l hl
  obtain ⟨order, v, hv, hread⟩ := hanswered.plain_view ht hdirectory
  obtain ⟨⟨host, holder⟩, hrow, hofRow⟩ := (mem_of_decodeAll hread).mp hl
  rw [mem_orderBy, List.mem_filter, mem_join] at hrow
  obtain ⟨-, hname, -, -, -, huser⟩ := LeasedHost.ofRow_ok.mp hofRow
  rw [hname, huser]
  exact ⟨hv.hosts host hrow.1.1, hv.users holder hrow.1.2.1⟩

theorem getAllHosts_plain (ht : t.Plain) (hdirectory : PlainDirectory c.hist.trace) :
    HostsService.getAllHosts.GivesIf (AnsweredIn cfg Cond (t.serverWith timer) c) fun hosts =>
      ∀ h ∈ hosts, Angleless h.hostname := by
  apply Task.givesIf_reading (q := .getAllHosts)
  intro tx rows hanswered host hhost
  obtain ⟨order, v, hv, hread⟩ := hanswered.plain_view ht hdirectory
  cases Except.ok.inj hread
  exact hv.hosts host (mem_orderBy.mp hhost)

theorem getAllUsers_plain (ht : t.Plain) (hdirectory : PlainDirectory c.hist.trace) :
    UsersService.getAllUsers.GivesIf (AnsweredIn cfg Cond (t.serverWith timer) c) fun users =>
      ∀ u ∈ users, Angleless u.email := by
  refine Task.givesIf_withTx fun tx => Task.givesIf_mapErr ?_
  show (tx.fetch .getAllUsers).GivesIf _ _
  refine Task.givesIf_fetch fun rows hanswered u hu => ?_
  obtain ⟨order, v, hv, hread⟩ := hanswered.plain_view ht hdirectory
  cases Except.ok.inj hread
  exact hv.users u (Unordered.mem_arrange.mp hu)

/-- The page to lease from. -/
theorem getHosts_own (ht : t.Plain) (hdirectory : PlainDirectory c.hist.trace)
    (hsettings : settings.Plain user) {groups : List Group}
    (hgroups : ∀ g ∈ groups, Angleless g.name) {groupId : Option GroupId} {cookie : Option String}
    {flashes : List (FlashLevel × String)}
    (hflashes : ∀ flash ∈ flashes, PageMessage flash) :
    (Page.getHosts settings groups user groupId cookie flashes).GivesIf
      (AnsweredIn cfg Cond (t.serverWith timer) c) fun shown => shown.2.Own := by
  cases groups with
  | nil => exact Task.givesIf_panic
  | cons first rest =>
    have hselected := (selectedGroup_mem first rest (Page.askedGroup first groupId cookie)).1
    refine Task.givesIf_bind (Task.givesIf_unwrap ?_)
    refine Prog.ReturnsIf.mono ?_ (getAvailableGroupHosts_plain ht hdirectory)
    intro r hhosts hosts hr
    refine Task.givesIf_bind (Task.givesIf_unwrap ?_)
    refine Prog.ReturnsIf.mono ?_ (getLeasedHosts_plain ht hdirectory)
    intro r' hls ls hr'
    refine Task.givesIf_bind (Prog.ReturnsIf.mono ?_ (givesIf_ofLeasedHosts (hls ls hr')))
    intro r'' hinfos infos hr''
    refine Task.givesIf_pure ?_
    -- What is printed: groups, hosts, times and the one message.
    apply HostsPage.own_of_plain (HostsLeasePage.whole_pieces _) _ hsettings.bare
    apply HostsLeasePage.Plain.harmless
    refine ⟨hsettings.displayTime, fun group hgroup => ?_, hgroups _ hselected,
      fun info hinfo => ?_, hinfos infos hr'', fun error herror => ?_⟩
    · obtain ⟨g, hg, rfl⟩ := List.mem_map.mp hgroup
      exact hgroups g hg
    · obtain ⟨host, hhost, rfl⟩ := List.mem_map.mp hinfo
      exact HostInfo.plain_of_free (hhosts hosts hr host hhost)
    · obtain ⟨flash, hflash, rfl⟩ := Option.map_eq_some_iff.mp herror
      exact (hflashes flash (List.mem_of_mem_head? hflash)).angleless

theorem pairs_plain {users : List User} {hosts : List Host}
    (husers : ∀ u ∈ users, Angleless u.email) (hhosts : ∀ h ∈ hosts, Angleless h.hostname) :
    ∀ x ∈ pairHosts users hosts, Angleless x.1.hostname ∧ ∀ u ∈ x.2, Angleless u.email := by
  intro x hx
  obtain ⟨host, hhost, rfl⟩ := List.mem_map.mp hx
  refine ⟨hhosts host hhost, fun u hu => ?_⟩
  obtain ⟨id, -, hid⟩ := Option.bind_eq_some_iff.mp hu
  exact husers u (Joins.mem_of_indexBy hid)

theorem givesIf_pageUnwrap {ε α : Type} {can : (e : Effect) → e.Res → Prop} {Q : α → Prop}
    {ofError : ε → ListingError} {x : Task ε α} (h : x.GivesIf can Q) :
    (Front.page.unwrap ofError x).GivesIf can Q := by
  refine Task.givesIf_bind (Task.givesIf_attempt ?_ fun e => Task.givesIf_panic)
  exact Prog.ReturnsIf.mono (fun r hr a ha => Task.givesIf_pure (hr a ha)) h

/-- And the page of all hosts. -/
theorem getAllHosts_own (ht : t.Plain) (hdirectory : PlainDirectory c.hist.trace)
    (hsettings : settings.Plain user) :
    (Page.getAllHosts settings user).GivesIf
      (AnsweredIn cfg Cond (t.serverWith timer) c) HostsPage.Own := by
  refine Task.givesIf_bind (Task.givesIf_bind (givesIf_pageUnwrap ?_))
  refine Prog.ReturnsIf.mono ?_ (getAllUsers_plain ht hdirectory)
  intro r husers users hr
  refine Task.givesIf_bind (givesIf_pageUnwrap ?_)
  refine Prog.ReturnsIf.mono ?_ (getAllHosts_plain ht hdirectory)
  intro r' hhosts hosts hr'
  refine Prog.ReturnsIf.mono ?_ (givesIf_readAll (pairs_plain (husers users hr) (hhosts hosts hr')))
  intro r'' hinfos infos hr''
  refine Task.givesIf_pure ?_
  exact HostsPage.own_of_plain (AllHostsPage.whole_pieces _)
    (AllHostsPage.harmless_of_plain (hinfos infos hr'')) hsettings.bare

/-- A task has left the message for the next page, with what it has answered at some moment of the
    run. -/
def LeftIn (cfg : ServerConfig) (Cond : ServerHistory → ServerEvent → Prop) (start c : Server)
    (flash : FlashLevel × String) : Prop :=
  ∃ c₁, (server cfg).Run Cond start c₁ ∧ (server cfg).Run Cond c₁ c ∧ ∃ p l,
    (c₁.threads p).prog = .ret l ∧ flash ∈ l.flashes

/-- **No answer leaves any other message**, in every run. -/
theorem messages_of_run {flash : FlashLevel × String}
    (hleft : LeftIn cfg Cond (t.serverWith timer) c flash) : PageMessage flash := by
  obtain ⟨c₁, hrun, -, p, l, hl, hflash⟩ := hleft
  have hmessages : (c₁.threads p).prog.ReturnsIf (fun _ _ => True) ServerLocal.Messages := by
    refine hrun.returnsIf _ (fun p => ?_) (fun _ _ _ _ _ _ _ => trivial)
      (fun κ _ hl => κ.body_messages hl) p
    cases p <;> exact fun _ h => absurd h List.not_mem_nil
  rw [hl] at hmessages
  exact hmessages flash hflash

/-- **No markup of users.** In every run, if the names and addresses that the tables started with
    have no `<`, those that the directory gives, and what the server shows of itself and of the user
    that looks, then neither of the pages has a `<` or a tag but those of its templates, at whatever
    moments of the run it reads the tables and whatever message has been left for it. The handlers
    of the page of API tokens leave messages as well (`HandlerFlash`). -/
theorem plain_of_run (ht : t.Plain) (hdirectory : PlainDirectory c.hist.trace)
    (hsettings : settings.Plain user) (order : List Nat) (groupId : Option GroupId)
    (cookie : Option String) (flashes : List (FlashLevel × String))
    (hflashes : ∀ flash ∈ flashes,
      LeftIn cfg Cond (t.serverWith timer) c flash ∨ HandlerFlash flash) :
    (Page.getHosts settings (t.view.getGroups order) user groupId cookie flashes).GivesIf
      (AnsweredIn cfg Cond (t.serverWith timer) c) (fun shown => shown.2.Own) ∧
    (Page.getAllHosts settings user).GivesIf
      (AnsweredIn cfg Cond (t.serverWith timer) c) HostsPage.Own := by
  constructor
  · refine getHosts_own ht hdirectory hsettings (fun g hg => ?_) fun flash hflash => ?_
    · exact ht.groups g ((orderBy_perm _ _ _).mem_iff.mp hg)
    · rcases hflashes flash hflash with hleft | htoken
      · exact messages_of_run hleft
      · exact .token htoken
  · exact getAllHosts_own ht hdirectory hsettings

/-- `carol` logs in for the first time, and `alice` asks for more than the limit. -/
def carolLogsIn : List (Label Pid Env Entry) := List.flatten
  [.call (.task 1) (.login "carol" "secret") :: List.replicate 10 (.act (.task 1)
      { uuid := "link-carol", userInfo := some ⟨"cn=carol", "carol@example.org", []⟩ }),
    [.call (.task 0) (.request aliceUser (.pageLeaseHosts
      (leaseForm "1" "2" ["1", "2", "3", "4"])))],
    acting (.task 0) 4]

/-- What `alice` has been told. -/
def overLimit : List (FlashLevel × String) := [(.error, HostError.leaseLimit.message)]

/-- And `carol` is on the page then, with that message. -/
theorem plain_of_run_small : ∃ c, (server smallConfig).Run (Machine.Calling Entry.proper)
      ((small (some (false, 5))).serverWith .new) c ∧
    (∃ u ∈ c.hist.state.db.committed.users, u.email = "carol@example.org") ∧
    (Page.getHosts ⟨⟨"0.1.0"⟩, none, fun _ => ""⟩
      ((small (some (false, 5))).view.getGroups []) aliceUser
      none none overLimit).GivesIf
      (AnsweredIn smallConfig (Machine.Calling Entry.proper)
        ((small (some (false, 5))).serverWith .new) c)
      (fun shown => shown.2.Own) ∧
    (Page.getAllHosts ⟨⟨"0.1.0"⟩, none, fun _ => ""⟩ aliceUser).GivesIf
      (AnsweredIn smallConfig (Machine.Calling Entry.proper)
        ((small (some (false, 5))).serverWith .new) c)
      HostsPage.Own := by
  obtain ⟨c, hrun, hc⟩ := (server smallConfig).exists_run_of_exec (Machine.Calling Entry.proper)
    ((small (some (false, 5))).serverWith .new) carolLogsIn
    (fun c => c.hist.state.db.committed.users.any (fun u => u.email = "carol@example.org") &&
      ((c.hist.trace.all fun ev => (directoryMail ev).all fun mail => decide (Angleless mail)) &&
        (c.threads (.task 0)).prog.value?.any fun l => l.flashes == overLimit))
    (by decide +kernel)
  obtain ⟨hcarol, hc⟩ := Bool.and_eq_true_iff.mp hc
  obtain ⟨hplain, htold⟩ := Bool.and_eq_true_iff.mp hc
  obtain ⟨l, hl, hflashes⟩ := (Option.any_eq_true _ _).mp htold
  have hdirectory : PlainDirectory c.hist.trace := fun ev hev mail hmail => by
    have hall := List.all_eq_true.mp hplain ev hev
    rw [Option.mem_def.mp hmail] at hall
    exact of_decide_eq_true hall
  obtain ⟨u, hu, hmail⟩ := List.any_eq_true.mp hcarol
  refine ⟨c, hrun, ⟨u, hu, of_decide_eq_true hmail⟩, ?_⟩
  refine plain_of_run ⟨?_, ?_, ?_⟩ hdirectory ⟨fun _ => ?_, ?_, ?_, ?_, ?_⟩ [] none none _
    fun flash hflash => .inl ⟨c, hrun, .refl, .task 0, l, Prog.value?_eq_some.mp hl, ?_⟩
  · decide
  · decide
  · decide
  · exact List.not_mem_nil
  · decide
  · exact fun _ h => by cases h
  · decide
  · exact fun _ h => absurd h List.not_mem_nil
  · rw [eq_of_beq hflashes]
    exact hflash

end Runs

end Tachikoma
