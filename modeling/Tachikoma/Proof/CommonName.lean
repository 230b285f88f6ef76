import Tachikoma.Ldap.UsersInfo
import Tachikoma.Lib.DistinguishedName

/-!
# Group names out of distinguished names

`AdUserInfo::try_from` cuts the name of a group at every comma and takes what follows the first
`CN=`. A comma of the value itself, any other escape and a `cn` in small letters are not thought of,
so the names come out right **exactly if nothing is escaped** and the type is in capitals, or if the
names that follow happen to repeat the value.
-/

set_option autoImplicit false

namespace Tachikoma

open DistinguishedName

/-- The distinguished name of a group as a directory may write it: `cn` in any letter case, the
    value, and whatever names follow. -/
structure GroupDn where
  type : List Char
  value : List Char
  text : List Char
  rest : List (List Char)
  type_cn : type.map Char.toLower = ['c', 'n']
  value_ne_nil : value ≠ []
  escapes : Escapes value text

namespace GroupDn

variable (g : GroupDn)

/-- The first of the names, `type=text`. -/
def first : List Char := g.type ++ '=' :: g.text

def chars : List Char := [','].intercalate (g.first :: g.rest)

/-- The value of `memberOf`. -/
def memberOf : String := String.ofList g.chars

def cn : String := String.ofList g.value

/-- The pieces between the commas of the names that follow. -/
def restPieces : List (List Char) := ([','].intercalate g.rest).splitOn ','

/-- The name of the group is read off as it is. -/
def ReadAs : Prop :=
  if g.type = ['C', 'N'] then g.text = g.value
  else ',' ∉ g.value ∧
    ∃ before after, g.restPieces = before ++ (['C', 'N', '='] ++ g.value) :: after ∧
    ∀ piece ∈ before, ¬ ['C', 'N', '='] <+: piece

end GroupDn

/-! ## What is read off -/

/-- What a piece of a name gives. -/
def nameOf : List Char → Option String
  | 'C' :: 'N' :: '=' :: name => some (String.ofList name)
  | _ => none

theorem commonName_eq (group : String) :
    commonName group = (group.toList.splitOn ',').findSome? nameOf := rfl

theorem nameOf_eq_some {piece name : List Char} :
    nameOf piece = some (String.ofList name) ↔ piece = ['C', 'N', '='] ++ name := by
  unfold nameOf
  constructor
  · intro h
    split at h
    · rw [String.ofList_injective (Option.some.inj h)]
      rfl
    · cases h
  · intro h
    subst h
    rfl

theorem nameOf_eq_none {piece : List Char} : nameOf piece = none ↔ ¬ ['C', 'N', '='] <+: piece := by
  rw [Option.eq_none_iff_forall_ne_some]
  constructor
  · intro h hprefix
    obtain ⟨name, rfl⟩ := hprefix
    exact h _ (nameOf_eq_some.mpr rfl)
  · intro h name hname
    obtain ⟨l, rfl⟩ : ∃ l, name = String.ofList l := ⟨name.toList, String.ofList_toList.symm⟩
    exact h ⟨l, (nameOf_eq_some.mp hname).symm⟩

/-- A piece between commas has none. -/
theorem not_mem_of_mem_splitOn {c : Char} {l piece : List Char} (h : piece ∈ l.splitOn c) :
    c ∉ piece := by
  induction l generalizing piece with
  | nil =>
    rw [List.splitOn_nil, List.mem_singleton] at h
    rw [h]
    exact List.not_mem_nil
  | cons x l ih =>
    rw [List.splitOn_cons_eq_if_modifyHead] at h
    split at h
    · rcases List.mem_cons.mp h with rfl | h
      · exact List.not_mem_nil
      · exact ih h
    · rename_i hx
      obtain ⟨head, tail, htail⟩ := List.exists_cons_of_ne_nil (List.splitOn_ne_nil c l)
      rw [htail, List.modifyHead_cons] at h
      have hall : ∀ p ∈ l.splitOn c, c ∉ p := fun p hp => ih hp
      rw [htail] at hall
      rcases List.mem_cons.mp h with rfl | h
      · rw [List.mem_cons, not_or]
        refine ⟨?_, hall head List.mem_cons_self⟩
        rintro rfl
        exact hx (BEq.refl _)
      · exact hall piece (List.mem_cons_of_mem _ h)

theorem not_mem_of_commonName {group : String} {name : List Char}
    (h : commonName group = some (String.ofList name)) : ',' ∉ name := by
  rw [commonName_eq] at h
  obtain ⟨piece, hpiece, hname⟩ := List.exists_of_findSome?_eq_some h
  have hno := not_mem_of_mem_splitOn hpiece
  rw [nameOf_eq_some.mp hname] at hno
  exact fun hmem => hno (List.mem_append_right _ hmem)

namespace GroupDn

variable {g : GroupDn}

/-- The type is two letters, and no commas. -/
theorem type_cases (g : GroupDn) : ∃ a b, g.type = [a, b] ∧ a.toLower = 'c' ∧ b.toLower = 'n' := by
  have h := g.type_cn
  cases htype : g.type with
  | nil => simp [htype] at h
  | cons a l =>
    cases l with
    | nil => simp [htype] at h
    | cons b l =>
      rw [htype] at h
      simp only [List.map_cons, List.cons.injEq, List.map_eq_nil_iff] at h
      obtain ⟨ha, hb, rfl⟩ := h
      exact ⟨a, b, rfl, ha, hb⟩

theorem not_mem_first (h : ',' ∉ g.text) : ',' ∉ g.first := by
  obtain ⟨a, b, htype, ha, hb⟩ := g.type_cases
  simp only [first, htype, List.cons_append, List.nil_append, List.mem_cons, not_or]
  refine ⟨?_, ?_, by decide, h⟩
  · rintro rfl
    exact absurd ha (by decide)
  · rintro rfl
    exact absurd hb (by decide)

theorem nameOf_first_of_capitals (h : g.type = ['C', 'N']) :
    nameOf g.first = some (String.ofList g.text) := by
  rw [nameOf_eq_some, first, h]
  rfl

theorem nameOf_first_of_ne (h : g.type ≠ ['C', 'N']) : nameOf g.first = none := by
  obtain ⟨a, b, htype, -, -⟩ := g.type_cases
  rw [nameOf_eq_none, first, htype]
  rw [htype] at h
  intro hprefix
  obtain ⟨name, hname⟩ := hprefix
  simp only [List.cons_append, List.nil_append, List.cons.injEq] at hname
  exact h (by rw [← hname.1, ← hname.2.1])

/-- The first name is looked at first, and then the names that follow. -/
theorem commonName_memberOf : commonName g.memberOf =
    ((g.first.splitOn ',').findSome? nameOf).or (g.restPieces.findSome? nameOf) := by
  rw [commonName_eq, memberOf, String.toList_ofList, chars, restPieces]
  cases hrest : g.rest with
  | nil => simp [nameOf]
  | cons x xs =>
    rw [List.intercalate_cons_cons, List.append_assoc, List.singleton_append,
      List.splitOn_append_cons_self, List.findSome?_append]

/-- **When the name of a group is read as it is.** -/
theorem commonName_eq_iff : commonName g.memberOf = some g.cn ↔ g.ReadAs := by
  unfold ReadAs
  by_cases hcomma : ',' ∈ g.text
  · -- The value has a comma, and what is read has none.
    have hvalue : ',' ∈ g.value := g.escapes.mem hcomma
    constructor
    · exact fun h => absurd hvalue (not_mem_of_commonName h)
    · intro h
      split at h
      · have hsame := g.escapes
        rw [h] at hsame
        exact absurd hvalue hsame.not_mem_of_eq
      · exact absurd hvalue h.1
  have hone : g.first.splitOn ',' = [g.first] := List.splitOn_eq_singleton (not_mem_first hcomma)
  by_cases htype : g.type = ['C', 'N']
  · rw [if_pos htype, commonName_memberOf, hone, List.findSome?_singleton,
      nameOf_first_of_capitals htype, Option.some_or, cn]
    exact ⟨fun h => String.ofList_injective (Option.some.inj h), fun h => by rw [h]⟩
  · rw [if_neg htype]
    have hrest : commonName g.memberOf = g.restPieces.findSome? nameOf := by
      rw [commonName_memberOf, hone, List.findSome?_singleton, nameOf_first_of_ne htype,
        Option.none_or]
    constructor
    · intro h
      refine ⟨not_mem_of_commonName h, ?_⟩
      rw [hrest] at h
      obtain ⟨before, piece, after, hpieces, hpiece, hbefore⟩ := List.findSome?_eq_some_iff.mp h
      rw [nameOf_eq_some.mp hpiece] at hpieces
      exact ⟨before, after, hpieces, fun x hx => nameOf_eq_none.mp (hbefore x hx)⟩
    · intro h
      obtain ⟨-, before, after, hpieces, hbefore⟩ := h
      rw [hrest, List.findSome?_eq_some_iff]
      exact ⟨before, _, after, hpieces, nameOf_eq_some.mpr rfl,
        fun x hx => nameOf_eq_none.mpr (hbefore x hx)⟩

end GroupDn

/-! ## The list of groups -/

/-- All values of a list are kept, each as it should be, if nothing is dropped and nothing
    changed. -/
theorem filterMap_eq_map_iff {α β : Type} {f : α → Option β} {g : α → β} {l : List α} :
    l.filterMap f = l.map g ↔ ∀ a ∈ l, f a = some (g a) := by
  induction l with
  | nil => simp
  | cons a l ih =>
    rw [List.forall_mem_cons, List.map_cons, ← ih]
    cases hf : f a with
    | none =>
      rw [List.filterMap_cons_none hf]
      constructor
      · intro h
        have hlength := congrArg List.length h
        have hle := List.length_filterMap_le f l
        simp only [List.length_cons, List.length_map] at hlength
        omega
      · exact fun h => absurd h.1 (by simp)
    | some b =>
      rw [List.filterMap_cons_some hf, List.cons.injEq, Option.some.injEq]

/-- **Group names are read correctly exactly if** the entry has the attributes and every name is one
    that can be read off: for any list of groups, any values and any way to write them. -/
theorem groups_read_iff (value : SearchEntry) (groups : List GroupDn)
    (hgroups : (value.attrs "memberOf").getD [] = groups.map GroupDn.memberOf) :
    (∃ info, AdUserInfo.tryFrom value = .ok info ∧ info.groups = groups.map GroupDn.cn) ↔
      ((value.attrs "mail").getD [] ≠ [] ∧ (value.attrs "memberOf").isSome = true ∧
        ∀ g ∈ groups, g.ReadAs) := by
  have hnames : (groups.map GroupDn.memberOf).filterMap commonName = groups.map GroupDn.cn ↔
      ∀ g ∈ groups, g.ReadAs := by
    rw [List.filterMap_map, filterMap_eq_map_iff]
    exact forall₂_congr fun g _ => GroupDn.commonName_eq_iff
  rw [← hnames]
  cases hmemberOf : value.attrs "memberOf" with
  | none => simp [AdUserInfo.tryFrom, hmemberOf]
  | some names =>
    obtain rfl : names = groups.map GroupDn.memberOf := by simpa [hmemberOf] using hgroups
    cases hmail : value.attrs "mail" with
    | none => simp [AdUserInfo.tryFrom, hmail]
    | some mails =>
      cases mails with
      | nil => simp [AdUserInfo.tryFrom, hmail]
      | cons mail mails => simp [AdUserInfo.tryFrom, hmail, hmemberOf]

/-! ## Three groups -/

/-- A group whose value is escaped no more than it has to be. -/
def GroupDn.written (type : List Char) (value : List Char) (rest : List (List Char))
    (htype : type.map Char.toLower = ['c', 'n']) (hvalue : value ≠ []) : GroupDn :=
  ⟨type, value, escape value, rest, htype, hvalue, escapes_escape value⟩

def staff : GroupDn :=
  .written "CN".toList "staff".toList ["OU=Groups".toList, "DC=example".toList] (by decide)
    (by decide)

def labs (name : Char) : GroupDn :=
  .written "CN".toList ['R', ',', name] ["OU=Groups".toList] (by decide) (by simp)

/-- The group of `ldap/user.ldif`. -/
def joe : GroupDn :=
  .written "cn".toList "joe".toList ["ou=Group".toList, "dc=example".toList, "dc=org".toList]
    (by decide) (by decide)

/-- A user with a mail address in these groups. -/
def memberEntry (groups : List GroupDn) : SearchEntry :=
  ⟨"CN=alice", fun attr =>
    if attr = "mail" then some ["alice@example.org"]
    else if attr = "memberOf" then some (groups.map GroupDn.memberOf)
    else none⟩

theorem memberOf_memberEntry (groups : List GroupDn) :
    ((memberEntry groups).attrs "memberOf").getD [] = groups.map GroupDn.memberOf := rfl

/-- The name of a group without anything to escape is read. -/
theorem groups_read_iff_staff : ∃ info,
    AdUserInfo.tryFrom (memberEntry [staff]) = .ok info ∧ info.groups = ["staff"] :=
  (groups_read_iff (memberEntry [staff]) [staff] (memberOf_memberEntry _)).mpr
    ⟨by decide, rfl, List.forall_mem_singleton.mpr (by decide +kernel : staff.text = staff.value)⟩

/-- Of `R,D` and `R,Q` the same name is left, and `joe`, in small letters, is nobody's group. -/
theorem not_groups_read :
    (labs 'D').memberOf = "CN=R\\,D,OU=Groups" ∧ (labs 'Q').memberOf = "CN=R\\,Q,OU=Groups" ∧
      joe.memberOf = "cn=joe,ou=Group,dc=example,dc=org" ∧
      [labs 'D', labs 'Q', joe].map GroupDn.cn = ["R,D", "R,Q", "joe"] ∧
      AdUserInfo.tryFrom (memberEntry [labs 'D', labs 'Q', joe]) =
        .ok ⟨"CN=alice", "alice@example.org", ["R\\", "R\\"]⟩ := by
  refine ⟨by decide +kernel, by decide +kernel, by decide +kernel, by decide +kernel, ?_⟩
  have hgroups : ([labs 'D', labs 'Q', joe].map GroupDn.memberOf).filterMap commonName =
      ["R\\", "R\\"] := by decide +kernel
  show Except.ok (AdUserInfo.mk _ _ (List.filterMap commonName _)) = _
  rw [hgroups]
  rfl

end Tachikoma
