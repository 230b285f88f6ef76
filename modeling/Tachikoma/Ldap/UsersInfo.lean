import Tachikoma.Lib.LdapFilter
import Tachikoma.Logic.Notifications

/-!
# Asking the directory (`src/ldap/mod.rs`)

The searches that `UsersInfo` makes, and what it reads off the entries it gets. The directory is a
parameter: something that answers a search with entries, and that meets the filter it was sent.
-/

set_option autoImplicit false

namespace Tachikoma

open LdapFilter

/-- `ldap3::SearchEntry`: the attributes asked for, as text. -/
structure SearchEntry where
  dn : String
  attrs : String → Option (List String)

/-- What stands after the first `CN=` among the parts of a name. -/
def commonName (group : String) : Option String :=
  (group.toList.splitOn ',').findSome? fun item =>
    match item with
    | 'C' :: 'N' :: '=' :: name => some (String.ofList name)
    | _ => none

/-- `TryFrom<SearchEntry>`. -/
def AdUserInfo.tryFrom (value : SearchEntry) : Except AnyError AdUserInfo :=
  let mail := (value.attrs "mail").bind List.head?
  let groups := (value.attrs "memberOf").map fun groups => groups.filterMap commonName
  match mail, groups with
  | some mail, some groups => .ok ⟨value.dn, mail, groups⟩
  | _, _ => .error (.context "Unable to parse SearchEntry")

theorem AdUserInfo.dn_of_tryFrom {value : SearchEntry} {info : AdUserInfo}
    (h : AdUserInfo.tryFrom value = .ok info) : info.dn = value.dn := by
  unfold AdUserInfo.tryFrom at h
  dsimp only at h
  split at h
  · cases h
    rfl
  · cases h

/-- A directory. What it answers to the text of a filter are entries that meet a filter the text
    stands for, and an entry that meets a disjunction meets one of its filters. -/
structure Directory where
  search : (base filter : String) → Except Unit (List SearchEntry)
  Meets : Filter → SearchEntry → Prop
  meets_or : ∀ fs e, Meets (.or fs) e → ∃ f ∈ fs, Meets f e
  sound : ∀ base filter entries, search base filter = .ok entries →
    ∃ f, Derives filter.toList f ∧ ∀ e ∈ entries, Meets f e

/-- The entry has this value of an attribute. -/
def Directory.Has (dir : Directory) (attr value : String) (e : SearchEntry) : Prop :=
  dir.Meets (.simple attr.toList .equal (utf8 value.toList)) e

/-- `"(|(mail={login_or_mail})(sAMAccountName={login_or_mail}))"`. -/
def UsersInfo.loginFilter (loginOrMail : String) : String :=
  s!"(|(mail={loginOrMail})(sAMAccountName={loginOrMail}))"

theorem attributeDescription_mail : AttributeDescription "mail".toList :=
  KeyString.attributeDescription ⟨'m', ['a', 'i', 'l'], rfl, rfl, rfl⟩

namespace Directory

/-- The first entry that a search finds, read. -/
def firstEntry (dir : Directory) (query filter : String) : Except AnyError (Option AdUserInfo) :=
  match dir.search query filter with
  | .error () => .error .ldap
  | .ok rs =>
    match rs.head? with
    | some entry => (AdUserInfo.tryFrom entry).map some
    | none => .ok none

def getUserInfo (dir : Directory) (userDn : String) : Except AnyError (Option AdUserInfo) :=
  firstEntry dir userDn "(mail=*)"

def findUserInfo (dir : Directory) (usersQuery loginOrMail : String) :
    Except AnyError (Option AdUserInfo) :=
      firstEntry dir usersQuery (UsersInfo.loginFilter loginOrMail)

theorem exists_of_firstEntry {dir : Directory} {query filter : String} {info : AdUserInfo}
    (h : firstEntry dir query filter = .ok (some info)) :
    ∃ entries, ∃ e ∈ entries, dir.search query filter = .ok entries ∧ info.dn = e.dn := by
  unfold firstEntry at h
  split at h
  · cases h
  · rename_i entries hsearch
    split at h
    · rename_i e hhead
      cases he : AdUserInfo.tryFrom e with
      | error err =>
        rw [he] at h
        cases h
      | ok info' =>
        rw [he] at h
        cases h
        exact ⟨entries, e, List.mem_of_mem_head? hhead, hsearch, AdUserInfo.dn_of_tryFrom he⟩
    · cases h

/-- The first entry under the name is one that parses. -/
def Lists (dir : Directory) (userDn : String) : Prop :=
  ∃ entry entries info, dir.search userDn "(mail=*)" = .ok (entry :: entries) ∧
    AdUserInfo.tryFrom entry = .ok info

theorem lists_iff {dir : Directory} {userDn : String} :
    dir.Lists userDn ↔ ∃ info, dir.getUserInfo userDn = .ok (some info) := by
  unfold Lists getUserInfo firstEntry
  constructor
  · intro hyp
    obtain ⟨entry, entries, info, hsearch, hinfo⟩ := hyp
    exact ⟨info, by simp [hsearch, hinfo, Except.map]⟩
  · intro hyp
    obtain ⟨info, h⟩ := hyp
    split at h
    · cases h
    · rename_i rs hsearch
      cases rs with
      | nil => cases h
      | cons entry entries =>
        refine ⟨entry, entries, info, hsearch, ?_⟩
        cases hinfo : AdUserInfo.tryFrom entry with
        | error e => simp [hinfo, Except.map] at h
        | ok info' =>
          simp only [List.head?_cons, hinfo, Except.map, Except.ok.injEq, Option.some.injEq] at h
          rw [h]

end Directory

end Tachikoma
