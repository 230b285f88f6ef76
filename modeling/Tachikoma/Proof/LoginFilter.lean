import Tachikoma.Ldap.UsersInfo

/-!
# What a login name is read as

`find_user_info` puts the login into the text of a filter as it is. Most logins are plain, and then
the text is read as the two equality matches it was meant as. **For every other login it is not**:
an asterisk makes presence or substring filters of them, a parenthesis ends them, a backslash starts
an escape. The argument is one of length and covers all five characters at once
(`LdapFilter.plain_of_derives`): a login that is not plain could only be read as itself if some
escape in it stood for as many octets as it is long, and an escape stands for one.
-/

set_option autoImplicit false

namespace Tachikoma

open LdapFilter UsersInfo

/-- The text that is sent for this login is read as two equality matches with it, and as nothing
    else. -/
def ReadAsLogin (s : String) : Prop :=
  ∀ f, Derives (loginFilter s).toList f ↔
    f = .or [.simple "mail".toList .equal (utf8 s.toList),
      .simple "sAMAccountName".toList .equal (utf8 s.toList)]

/-- Whatever the directory, the entry that a login with this name binds against has the name. -/
def BindsLogin (s : String) : Prop :=
  ∀ (dir : Directory) (usersQuery : String) (info : AdUserInfo),
    dir.findUserInfo usersQuery s = .ok (some info) →
      ∃ entries, ∃ e ∈ entries, dir.search usersQuery (loginFilter s) = .ok entries ∧
        info.dn = e.dn ∧ (dir.Has "mail" s e ∨ dir.Has "sAMAccountName" s e)

theorem toList_loginFilter (s : String) :
    (loginFilter s).toList = '(' :: ('|' :: (equality "mail".toList s.toList ++
      equality "sAMAccountName".toList s.toList) ++ [')']) := by
  simp [loginFilter, equality, toString]

theorem attributeDescription_sAMAccountName : AttributeDescription "sAMAccountName".toList :=
  KeyString.attributeDescription ⟨'s', "AMAccountName".toList, rfl, rfl, rfl⟩

/-- A plain login is read as it was meant. -/
theorem readAsLogin_of_plain {s : String} (h : Plain s.toList) : ReadAsLogin s := by
  intro f
  have hwritten : ∀ m ∈ [(⟨"mail".toList, s.toList, utf8 s.toList⟩ : Match),
      ⟨"sAMAccountName".toList, s.toList, utf8 s.toList⟩], m.Written := by
    intro m hm
    rcases List.mem_cons.mp hm with rfl | hm
    · exact ⟨attributeDescription_mail, h.value⟩
    · obtain rfl := List.mem_singleton.mp hm
      exact ⟨attributeDescription_sAMAccountName, h.value⟩
  have hiff := derives_disjunction_iff (f := f) (List.cons_ne_nil _ _) hwritten
  rw [toList_loginFilter]
  simpa [disjunction, Match.filter] using hiff

/-- And what is read as it was meant is answered with an entry that has the login. -/
theorem bindsLogin_of_readAsLogin {s : String} (h : ReadAsLogin s) : BindsLogin s := by
  intro dir usersQuery info hinfo
  obtain ⟨entries, e, he, hsearch, hdn⟩ := Directory.exists_of_firstEntry hinfo
  obtain ⟨f, hf, hmeets⟩ := dir.sound _ _ _ hsearch
  have hor := (h f).mp hf
  subst hor
  obtain ⟨g, hg, hmeet⟩ := dir.meets_or _ e (hmeets e he)
  refine ⟨entries, e, he, hsearch, hdn, ?_⟩
  rcases List.mem_cons.mp hg with rfl | hg
  · exact .inl hmeet
  · obtain rfl := List.mem_singleton.mp hg
    exact .inr hmeet

/-- **When a login cannot change the shape of the query.** Exactly when none of the five characters
    stands in it that the grammar of filters does not take as themselves. -/
theorem login_exact_iff (s : String) : (ReadAsLogin s ∧ BindsLogin s) ↔ Plain s.toList := by
  constructor
  · intro h
    have hderives := (h.1 _).mpr rfl
    rw [toList_loginFilter] at hderives
    exact plain_of_derives hderives
  · intro h
    have hread := readAsLogin_of_plain h
    exact ⟨hread, bindsLogin_of_readAsLogin hread⟩

/-! ## Somebody logs in as `*` -/

def aliceEntry : SearchEntry where
  dn := "CN=alice"
  attrs attr := if attr = "mail" then some ["alice@example.org"]
    else if attr = "memberOf" then some ["CN=staff,DC=example"] else none

/-- What an entry has to have to meet one filter. -/
def meetsOne : Filter → SearchEntry → Prop
  | .simple attr .equal value, e =>
      ∃ vs ∈ e.attrs (String.ofList attr), ∃ v ∈ vs, utf8 v.toList = value
  | .present attr, e => (e.attrs (String.ofList attr)).isSome = true
  | _, _ => False

theorem derives_star : Derives (loginFilter "*").toList
    (.or [.present "mail".toList, .present "sAMAccountName".toList]) := by
  rw [toList_loginFilter]
  refine .parens (.or ?_ (List.cons_ne_nil _ _))
  have hall := DerivesAll.cons (.parens (.item (.present attributeDescription_mail)))
    (.cons (.parens (.item (.present attributeDescription_sAMAccountName))) .nil)
  simpa [equality] using hall

/-- A directory with one entry, which answers this one search. -/
def aliceDirectory : Directory where
  search _ filter := if filter = loginFilter "*" then .ok [aliceEntry] else .error ()
  Meets f e :=
    match f with
    | .or fs => ∃ g ∈ fs, meetsOne g e
    | f => meetsOne f e
  meets_or fs e h := by
    obtain ⟨g, hg, hmeets⟩ := h
    refine ⟨g, hg, ?_⟩
    cases g with
    | or => exact hmeets.elim
    | _ => exact hmeets
  sound base filter entries h := by
    split at h
    · rename_i hfilter
      cases h
      subst hfilter
      refine ⟨_, derives_star, fun e he => ?_⟩
      obtain rfl := List.mem_singleton.mp he
      exact ⟨_, List.mem_cons_self, rfl⟩
    · cases h

/-- The text is read as something else, and the entry of `alice`, whose mail is not `*`, is the one
    that is bound against. -/
theorem not_login_exact : ¬ ReadAsLogin "*" ∧ ¬ BindsLogin "*" := by
  constructor
  · intro h
    have hne := (h _).mp derives_star
    cases hne
  · intro h
    obtain ⟨entries, e, he, hsearch, -, hhas⟩ :=
      h aliceDirectory "" ⟨"CN=alice", "alice@example.org", ["staff"]⟩ rfl
    cases hsearch
    obtain rfl := List.mem_singleton.mp he
    rcases hhas with ⟨vs, hvs, v, hv, hvalue⟩ | ⟨vs, hvs, v, hv, hvalue⟩
    · obtain rfl : ["alice@example.org"] = vs := Option.some.inj hvs
      obtain rfl := List.mem_singleton.mp hv
      revert hvalue
      decide
    · cases hvs

end Tachikoma
