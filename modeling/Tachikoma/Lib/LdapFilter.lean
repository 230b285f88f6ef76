import Mathlib

/-!
# Search filters as text

The grammar of LDAP search filters in their string form, production by production, as a relation
between a text and the filter it stands for; `Derives` is the start symbol. Values are octets: a
character of a value stands for its UTF-8 encoding, or an octet is written as `\` and two
hexadecimal digits.

Five characters have no place in a value as themselves: NUL, the two parentheses, the asterisk and
the backslash. **A value cannot reach outside itself** is the one fact about the grammar that its
users need: whatever a value is, an equality match with it is read as that equality match and as
nothing else, whatever follows it (`Derives.equality`).
-/

set_option autoImplicit false

namespace LdapFilter

abbrev Text : Type := List Char

abbrev Octets : Type := List UInt8

def utf8 (t : Text) : Octets := t.flatMap String.utf8EncodeChar

/-! ## Values -/

/-- `normal`: every character but five. -/
def Normal (c : Char) : Prop := c ≠ '\x00' ∧ c ≠ '(' ∧ c ≠ ')' ∧ c ≠ '*' ∧ c ≠ '\\'

instance (c : Char) : Decidable (Normal c) := by unfold Normal; infer_instance

/-- A text that stands for itself as a value. -/
def Plain (t : Text) : Prop := ∀ c ∈ t, Normal c

instance (t : Text) : Decidable (Plain t) := by unfold Plain; infer_instance

def hexVal (c : Char) : Option UInt8 :=
  if c.isDigit then some (c.val - 48).toUInt8
  else if 'a' ≤ c ∧ c ≤ 'f' then some (c.val - 87).toUInt8
  else if 'A' ≤ c ∧ c ≤ 'F' then some (c.val - 55).toUInt8
  else none

/-- `valueencoding`. -/
inductive Value : Text → Octets → Prop where
  | nil : Value [] []
  | normal {c : Char} {t : Text} {bs : Octets} (hc : Normal c) (ht : Value t bs) :
      Value (c :: t) (String.utf8EncodeChar c ++ bs)
  | escaped {h l : Char} {x y : UInt8} {t : Text} {bs : Octets} (hh : hexVal h = some x)
      (hl : hexVal l = some y) (ht : Value t bs) : Value ('\\' :: h :: l :: t) ((16 * x + y) :: bs)

/-! ## Attributes -/

def isKeyChar (c : Char) : Bool := c.isAlpha || c.isDigit || c == '-'

def KeyString (t : Text) : Prop := ∃ c cs, t = c :: cs ∧ c.isAlpha = true ∧ cs.all isKeyChar = true

def Number (t : Text) : Prop :=
  t ≠ [] ∧ t.all Char.isDigit = true ∧ (t.head? = some '0' → t = ['0'])

def NumericOid (t : Text) : Prop :=
  ∃ (n : Text) (ns : List Text), Number n ∧ ns ≠ [] ∧ (∀ m ∈ ns, Number m) ∧
    t = n ++ ns.flatMap fun m => '.' :: m

def Oid (t : Text) : Prop := KeyString t ∨ NumericOid t

/-- `attributedescription`: a type, by name or by number, and options. -/
def AttributeDescription (t : Text) : Prop :=
  ∃ (ty : Text) (options : List Text), Oid ty ∧
    (∀ o ∈ options, o ≠ [] ∧ o.all isKeyChar = true) ∧ t = ty ++ options.flatMap fun o => ';' :: o

/-! ## Filters -/

inductive FilterType where
  | equal
  | approx
  | greaterOrEqual
  | lessOrEqual
  deriving DecidableEq

def FilterType.text : FilterType → Text
  | .equal => ['=']
  | .approx => ['~', '=']
  | .greaterOrEqual => ['>', '=']
  | .lessOrEqual => ['<', '=']

inductive Filter where
  | and (fs : List Filter)
  | or (fs : List Filter)
  | not (f : Filter)
  | simple (attr : Text) (type : FilterType) (value : Octets)
  | present (attr : Text)
  /-- The values between the asterisks, with the one before the first and the one after the last. -/
  | substring (attr : Text) (initial : Octets) (any : List Octets) (final : Octets)
  | extensible (attr : Option Text) (dnAttrs : Bool) (rule : Option Text) (value : Octets)

/-- `*(assertionvalue ASTERISK)`. -/
inductive Pieces : Text → List Octets → Prop where
  | nil : Pieces [] []
  | cons {v t : Text} {b : Octets} {bs : List Octets} (hv : Value v b) (ht : Pieces t bs) :
      Pieces (v ++ '*' :: t) (b :: bs)

/-- `item`. A lone asterisk is a presence filter, and not a substring filter without substrings. -/
inductive Item : Text → Filter → Prop where
  | simple {a v : Text} {b : Octets} (type : FilterType) (ha : AttributeDescription a)
      (hv : Value v b) : Item (a ++ (type.text ++ v)) (.simple a type b)
  | present {a : Text} (ha : AttributeDescription a) : Item (a ++ ['=', '*']) (.present a)
  | substring {a i t f : Text} {bi bf : Octets} {bs : List Octets} (ha : AttributeDescription a)
      (hi : Value i bi) (ht : Pieces t bs) (hf : Value f bf) (hne : i ++ t ++ f ≠ []) :
      Item (a ++ '=' :: (i ++ '*' :: (t ++ f))) (.substring a bi bs bf)
  | extensible {v : Text} {b : Octets} {attr rule : Option Text} (dnAttrs : Bool)
      (ha : ∀ a ∈ attr, AttributeDescription a) (hr : ∀ r ∈ rule, Oid r)
      (hsome : attr ≠ none ∨ rule ≠ none) (hv : Value v b) :
      Item (attr.getD [] ++ ((if dnAttrs then [':', 'd', 'n'] else []) ++
          (rule.elim [] fun r => ':' :: r) ++ ':' :: '=' :: v))
        (.extensible attr dnAttrs rule b)

mutual

/-- `filter`. -/
inductive Derives : Text → Filter → Prop where
  | parens {t : Text} {f : Filter} (h : Comp t f) : Derives ('(' :: (t ++ [')'])) f

/-- `filtercomp`. -/
inductive Comp : Text → Filter → Prop where
  | and {t : Text} {fs : List Filter} (h : DerivesAll t fs) (hne : fs ≠ []) :
      Comp ('&' :: t) (.and fs)
  | or {t : Text} {fs : List Filter} (h : DerivesAll t fs) (hne : fs ≠ []) :
      Comp ('|' :: t) (.or fs)
  | not {t : Text} {f : Filter} (h : Derives t f) : Comp ('!' :: t) (.not f)
  | item {t : Text} {f : Filter} (h : Item t f) : Comp t f

/-- `filterlist`, or nothing. -/
inductive DerivesAll : Text → List Filter → Prop where
  | nil : DerivesAll [] []
  | cons {t ts : Text} {f : Filter} {fs : List Filter} (h : Derives t f) (hs : DerivesAll ts fs) :
      DerivesAll (t ++ ts) (f :: fs)

end

/-! ## What values are made of -/

theorem utf8_cons (c : Char) (t : Text) : utf8 (c :: t) = String.utf8EncodeChar c ++ utf8 t := rfl

theorem utf8_append (t t' : Text) : utf8 (t ++ t') = utf8 t ++ utf8 t' := List.flatMap_append

theorem utf8_ne_nil {t : Text} (h : t ≠ []) : utf8 t ≠ [] := by
  obtain ⟨c, cs, rfl⟩ := List.exists_cons_of_ne_nil h
  rw [utf8_cons]
  intro hnil
  exact String.utf8EncodeChar_ne_nil (List.append_eq_nil_iff.mp hnil).1

/-- A plain text is read as itself. -/
theorem Plain.value {t : Text} (h : Plain t) : Value t (utf8 t) := by
  induction t with
  | nil => exact .nil
  | cons c t ih =>
    rw [utf8_cons]
    exact .normal (h c List.mem_cons_self) (ih fun d hd => h d (List.mem_cons_of_mem c hd))

theorem hexVal_ne {c : Char} {x : UInt8} (h : hexVal c = some x) : c ≠ '(' ∧ c ≠ ')' ∧ c ≠ '*' := by
  refine ⟨?_, ?_, ?_⟩ <;>
  · rintro rfl
    simp [hexVal, Char.isDigit] at h

/-- No parenthesis and no asterisk stands in a value. -/
theorem Value.ne_of_mem {v : Text} {b : Octets} (h : Value v b) {c : Char} (hc : c ∈ v) :
    c ≠ '(' ∧ c ≠ ')' ∧ c ≠ '*' := by
  induction h with
  | nil => cases hc
  | normal hn _ ih =>
    rcases List.mem_cons.mp hc with rfl | hc
    · exact ⟨hn.2.1, hn.2.2.1, hn.2.2.2.1⟩
    · exact ih hc
  | escaped hh hl _ ih =>
    rcases List.mem_cons.mp hc with rfl | hc
    · decide
    rcases List.mem_cons.mp hc with rfl | hc
    · exact hexVal_ne hh
    rcases List.mem_cons.mp hc with rfl | hc
    · exact hexVal_ne hl
    · exact ih hc

/-- A text is at most one value. -/
theorem Value.unique {v : Text} {b b' : Octets} (h : Value v b) (h' : Value v b') : b = b' := by
  induction h generalizing b' with
  | nil =>
    cases h'
    rfl
  | normal hc _ ih =>
    cases h' with
    | normal _ ht => rw [ih ht]
    | escaped => exact absurd rfl hc.2.2.2.2
  | escaped hh hl _ ih =>
    cases h' with
    | normal hc => exact absurd rfl hc.2.2.2.2
    | escaped hh' hl' ht =>
      rw [hh] at hh'
      rw [hl] at hl'
      cases hh'
      cases hl'
      rw [ih ht]

/-- A value takes at least as much room as its octets, and more if anything in it is escaped. -/
theorem Value.length_le {v : Text} {b : Octets} (h : Value v b) :
    b.length ≤ (utf8 v).length ∧ (b.length = (utf8 v).length → Plain v) := by
  induction h with
  | nil => exact ⟨Nat.le_refl _, fun _ => nofun⟩
  | normal hc _ ih =>
    rw [utf8_cons, List.length_append, List.length_append]
    refine ⟨Nat.add_le_add_left ih.1 _, fun heq => ?_⟩
    have hplain := ih.2 (Nat.add_left_cancel heq)
    intro d hd
    rcases List.mem_cons.mp hd with rfl | hd
    · exact hc
    · exact hplain d hd
  | @escaped h l x y t bs hh hl _ ih =>
    have hpos : ∀ c : Char, 0 < (String.utf8EncodeChar c).length := fun c =>
      List.length_pos_iff.mpr String.utf8EncodeChar_ne_nil
    have hlt : bs.length + 1 < (utf8 ('\\' :: h :: l :: t)).length := by
      rw [utf8_cons, utf8_cons, utf8_cons]
      simp only [List.length_append]
      have := hpos '\\'
      have := hpos h
      have := hpos l
      omega
    refine ⟨Nat.le_of_lt hlt, fun heq => ?_⟩
    rw [List.length_cons] at heq
    omega

/-! ## What attributes are made of -/

/-- The characters of attribute descriptions. -/
def isAttrChar (c : Char) : Bool := isKeyChar c || c == '.' || c == ';'

theorem isAttrChar_of_all {t : Text} (h : t.all isKeyChar = true) {c : Char} (hc : c ∈ t) :
    isAttrChar c = true := by
  simp [isAttrChar, List.all_eq_true.mp h c hc]

theorem Number.isAttrChar {t : Text} (h : Number t) {c : Char} (hc : c ∈ t) :
    isAttrChar c = true := by
  simp [LdapFilter.isAttrChar, isKeyChar, List.all_eq_true.mp h.2.1 c hc]

theorem Oid.isAttrChar {t : Text} (h : Oid t) {c : Char} (hc : c ∈ t) : isAttrChar c = true := by
  rcases h with ⟨d, cs, rfl, hd, hcs⟩ | ⟨n, ns, hn, -, hns, rfl⟩
  · rcases List.mem_cons.mp hc with rfl | hc
    · simp [LdapFilter.isAttrChar, isKeyChar, hd]
    · exact isAttrChar_of_all hcs hc
  · rcases List.mem_append.mp hc with hc | hc
    · exact hn.isAttrChar hc
    · obtain ⟨m, hm, hc⟩ := List.mem_flatMap.mp hc
      rcases List.mem_cons.mp hc with rfl | hc
      · rfl
      · exact (hns m hm).isAttrChar hc

theorem AttributeDescription.isAttrChar {t : Text} (h : AttributeDescription t) {c : Char}
    (hc : c ∈ t) : isAttrChar c = true := by
  obtain ⟨ty, options, hty, hoptions, rfl⟩ := h
  rcases List.mem_append.mp hc with hc | hc
  · exact hty.isAttrChar hc
  · obtain ⟨o, ho, hc⟩ := List.mem_flatMap.mp hc
    rcases List.mem_cons.mp hc with rfl | hc
    · rfl
    · exact isAttrChar_of_all (hoptions o ho).2 hc

theorem Oid.ne_nil {t : Text} (h : Oid t) : t ≠ [] := by
  rcases h with ⟨c, cs, rfl, -⟩ | ⟨n, ns, hn, -, -, rfl⟩
  · exact List.cons_ne_nil c cs
  · exact List.append_ne_nil_of_left_ne_nil hn.1 _

theorem AttributeDescription.ne_nil {t : Text} (h : AttributeDescription t) : t ≠ [] := by
  obtain ⟨ty, options, hty, -, rfl⟩ := h
  exact List.append_ne_nil_of_left_ne_nil hty.ne_nil _

theorem KeyString.attributeDescription {t : Text} (h : KeyString t) : AttributeDescription t :=
  ⟨t, [], .inl h, nofun, by simp⟩

/-! ## What follows a value cannot change what it is read as -/

/-- Where a text of such characters ends is seen from the text. -/
theorem append_cons_inj {p : Char → Prop} {a a' r r' : Text} {x y : Char} (ha : ∀ c ∈ a, p c)
    (ha' : ∀ c ∈ a', p c) (hx : ¬ p x) (hy : ¬ p y) (h : a ++ x :: r = a' ++ y :: r') :
    a = a' ∧ x = y ∧ r = r' := by
  induction a generalizing a' with
  | nil =>
    cases a' with
    | nil =>
      cases h
      exact ⟨rfl, rfl, rfl⟩
    | cons c cs =>
      cases h
      exact absurd (ha' _ List.mem_cons_self) hx
  | cons c cs ih =>
    cases a' with
    | nil =>
      cases h
      exact absurd (ha _ List.mem_cons_self) hy
    | cons c' cs' =>
      rw [List.cons_append, List.cons_append, List.cons.injEq] at h
      obtain ⟨rfl, h⟩ := h
      obtain ⟨rfl, hxy, hr⟩ := ih (fun d hd => ha d (List.mem_cons_of_mem c hd))
        (fun d hd => ha' d (List.mem_cons_of_mem c hd)) h
      exact ⟨rfl, hxy, hr⟩

/-- An item starts with an attribute, or with a colon. -/
theorem Item.head {t : Text} {f : Filter} (h : Item t f) :
    ∃ c cs, t = c :: cs ∧ (isAttrChar c = true ∨ c = ':') := by
  have hattr : ∀ {a r : Text}, AttributeDescription a →
      ∃ c cs, a ++ r = c :: cs ∧ (isAttrChar c = true ∨ c = ':') := by
    intro a r ha
    obtain ⟨c, cs, rfl⟩ := List.exists_cons_of_ne_nil ha.ne_nil
    exact ⟨c, cs ++ r, rfl, .inl (ha.isAttrChar List.mem_cons_self)⟩
  cases h with
  | simple _ ha => exact hattr ha
  | present ha => exact hattr ha
  | substring ha => exact hattr ha
  | @extensible v b attr rule dnAttrs ha =>
    cases attr with
    | some a => exact hattr (ha a rfl)
    | none =>
      cases dnAttrs <;> cases rule <;> exact ⟨_, _, rfl, .inr rfl⟩

/-- No parenthesis closes inside an item. -/
theorem Item.ne_rparen {t : Text} {f : Filter} (h : Item t f) {c : Char} (hc : c ∈ t) :
    c ≠ ')' := by
  have hattr : ∀ {d : Char}, isAttrChar d = true → d ≠ ')' := by
    intro d hd heq
    rw [heq] at hd
    cases hd
  have hpieces : ∀ {u : Text} {bs : List Octets}, Pieces u bs → ∀ d ∈ u, d ≠ ')' := by
    intro u bs hu
    induction hu with
    | nil => exact nofun
    | cons hv _ ih =>
      intro d hd
      rcases List.mem_append.mp hd with hd | hd
      · exact (hv.ne_of_mem hd).2.1
      rcases List.mem_cons.mp hd with rfl | hd
      · decide
      · exact ih d hd
  -- What an item is made of: attributes, values in which it is escaped, and fixed characters.
  cases h with
  | simple ty ha hv =>
    rcases List.mem_append.mp hc with hc | hc
    · exact hattr (ha.isAttrChar hc)
    rcases List.mem_append.mp hc with hc | hc
    · cases ty <;> simp only [FilterType.text, List.mem_cons, List.not_mem_nil, or_false] at hc <;>
        rcases hc with rfl | rfl <;> decide
    · exact (hv.ne_of_mem hc).2.1
  | present ha =>
    rcases List.mem_append.mp hc with hc | hc
    · exact hattr (ha.isAttrChar hc)
    · simp only [List.mem_cons, List.not_mem_nil, or_false] at hc
      rcases hc with rfl | rfl <;> decide
  | substring ha hi ht hf =>
    rcases List.mem_append.mp hc with hc | hc
    · exact hattr (ha.isAttrChar hc)
    rcases List.mem_cons.mp hc with rfl | hc
    · decide
    rcases List.mem_append.mp hc with hc | hc
    · exact (hi.ne_of_mem hc).2.1
    rcases List.mem_cons.mp hc with rfl | hc
    · decide
    rcases List.mem_append.mp hc with hc | hc
    · exact hpieces ht c hc
    · exact (hf.ne_of_mem hc).2.1
  | @extensible v b attr rule dnAttrs ha hr _ hv =>
    rcases List.mem_append.mp hc with hc | hc
    · cases attr with
      | none => cases hc
      | some a => exact hattr ((ha a rfl).isAttrChar hc)
    rcases List.mem_append.mp hc with hc | hc
    · rcases List.mem_append.mp hc with hc | hc
      · cases dnAttrs <;> simp at hc
        rcases hc with rfl | rfl | rfl <;> decide
      · cases rule with
        | none => cases hc
        | some r =>
          rcases List.mem_cons.mp hc with rfl | hc
          · decide
          · exact hattr ((hr r rfl).isAttrChar hc)
    rcases List.mem_cons.mp hc with rfl | hc
    · decide
    rcases List.mem_cons.mp hc with rfl | hc
    · decide
    · exact (hv.ne_of_mem hc).2.1

/-- An equality match is no other item. -/
theorem Item.equality {a v : Text} {b : Octets} {f : Filter} (ha : AttributeDescription a)
    (hv : Value v b) (h : Item (a ++ '=' :: v) f) : f = .simple a .equal b := by
  generalize ht : a ++ '=' :: v = t at h
  have hchars : ∀ {a' : Text}, AttributeDescription a' → ∀ c ∈ a', isAttrChar c = true :=
    fun ha' c hc => ha'.isAttrChar hc
  have heq : ¬ isAttrChar '=' = true := by decide
  cases h with
  | @simple a' v' b' ty ha' hv' =>
    cases ty with
    | equal =>
      obtain ⟨rfl, -, rfl⟩ := append_cons_inj (hchars ha) (hchars ha') heq heq ht
      rw [hv.unique hv']
    | approx =>
      obtain ⟨-, hne, -⟩ := append_cons_inj (hchars ha) (hchars ha') heq (by decide) ht
      cases hne
    | greaterOrEqual =>
      obtain ⟨-, hne, -⟩ := append_cons_inj (hchars ha) (hchars ha') heq (by decide) ht
      cases hne
    | lessOrEqual =>
      obtain ⟨-, hne, -⟩ := append_cons_inj (hchars ha) (hchars ha') heq (by decide) ht
      cases hne
  | present ha' =>
    obtain ⟨-, -, rfl⟩ := append_cons_inj (hchars ha) (hchars ha') heq heq ht
    exact absurd rfl (hv.ne_of_mem List.mem_cons_self).2.2
  | substring ha' =>
    obtain ⟨-, -, rfl⟩ := append_cons_inj (hchars ha) (hchars ha') heq heq ht
    exact absurd rfl (hv.ne_of_mem (List.mem_append_right _ List.mem_cons_self)).2.2
  | @extensible v' b' attr rule dnAttrs ha' =>
    -- What follows the attribute, if there is one, is a colon.
    obtain ⟨r, hr⟩ : ∃ r, (if dnAttrs then [':', 'd', 'n'] else []) ++
        (rule.elim [] fun r => ':' :: r) ++ ':' :: '=' :: v' = ':' :: r := by
      cases dnAttrs <;> cases rule <;> exact ⟨_, rfl⟩
    rw [hr] at ht
    have hattr : ∀ c ∈ attr.getD [], isAttrChar c = true := by
      cases attr with
      | none => exact nofun
      | some a' => exact hchars (ha' a' rfl)
    obtain ⟨-, hne, -⟩ := append_cons_inj (hchars ha) hattr heq (by decide) ht
    cases hne

/-- `(attr=value)`. -/
def equality (a v : Text) : Text := '(' :: (a ++ '=' :: v ++ [')'])

theorem derives_equality {a v : Text} {b : Octets} (ha : AttributeDescription a) (hv : Value v b) :
    Derives (equality a v) (.simple a .equal b) :=
  .parens (.item (.simple .equal ha hv))

/-- What is left of a filter without its parentheses, when it starts like an item, is an item. -/
theorem Comp.item_of_head {t : Text} {f : Filter} (h : Comp t f) {c : Char} {cs : Text}
    (ht : t = c :: cs) (hc : isAttrChar c = true) : Item t f := by
  cases h with
  | and => cases ht; cases hc
  | or => cases ht; cases hc
  | not => cases ht; cases hc
  | item h => exact h

/-- **An equality match is read as itself**, whatever its value is and whatever follows it. -/
theorem Derives.equality {a v t r r' : Text} {b : Octets} {f : Filter}
    (ha : AttributeDescription a) (hv : Value v b) (h : Derives t f)
    (ht : t ++ r = LdapFilter.equality a v ++ r') :
    r = r' ∧ f = .simple a .equal b := by
  cases h with
  | @parens t f hcomp =>
    have hbody : t ++ ')' :: r = (a ++ '=' :: v) ++ ')' :: r' := by
      simpa [LdapFilter.equality] using ht
    obtain ⟨c, cs, rfl⟩ := List.exists_cons_of_ne_nil ha.ne_nil
    have hc : isAttrChar c = true := ha.isAttrChar List.mem_cons_self
    have hitem : Item t f := by
      cases t with
      | nil =>
        cases hbody
        cases hc
      | cons d ds =>
        obtain rfl : d = c := (List.cons.inj hbody).1
        exact hcomp.item_of_head rfl hc
    have hclosed : ∀ d ∈ c :: cs ++ '=' :: v, d ≠ ')' := by
      intro d hd
      exact (Item.simple .equal ha hv).ne_rparen hd
    obtain ⟨rfl, -, rfl⟩ :=
      append_cons_inj (p := (· ≠ ')')) (fun d hd => hitem.ne_rparen hd) hclosed
      (not_not.mpr rfl) (not_not.mpr rfl) hbody
    exact ⟨rfl, hitem.equality ha hv⟩

/-! ## Disjunctions of equality matches -/

/-- An attribute, a value as it is written, and the octets it stands for. -/
structure Match where
  attr : Text
  text : Text
  value : Octets

def Match.Written (m : Match) : Prop := AttributeDescription m.attr ∧ Value m.text m.value

def Match.filter (m : Match) : Filter := .simple m.attr .equal m.value

/-- `(|(attr=value)…)`. -/
def disjunction (ms : List Match) : Text :=
  '(' :: ('|' :: ms.flatMap (fun m => LdapFilter.equality m.attr m.text) ++ [')'])

theorem derivesAll_matches {ms : List Match} (h : ∀ m ∈ ms, m.Written) :
    DerivesAll (ms.flatMap fun m => LdapFilter.equality m.attr m.text) (ms.map Match.filter) := by
  induction ms with
  | nil => exact .nil
  | cons m ms ih =>
    obtain ⟨ha, hv⟩ := h m List.mem_cons_self
    rw [List.flatMap_cons, List.map_cons]
    exact .cons (derives_equality ha hv) (ih fun m' hm' => h m' (List.mem_cons_of_mem m hm'))

theorem DerivesAll.matches {ms : List Match} (h : ∀ m ∈ ms, m.Written) {fs : List Filter}
    (hd : DerivesAll (ms.flatMap fun m => LdapFilter.equality m.attr m.text) fs) :
    fs = ms.map Match.filter := by
  induction ms generalizing fs with
  | nil =>
    generalize ht : List.flatMap (fun m : Match => LdapFilter.equality m.attr m.text) [] = t at hd
    cases hd with
    | nil => rfl
    | cons hf =>
      cases hf
      cases ht
  | cons m ms ih =>
    obtain ⟨ha, hv⟩ := h m List.mem_cons_self
    generalize ht : (m :: ms).flatMap (fun m => LdapFilter.equality m.attr m.text) = t at hd
    rw [List.flatMap_cons] at ht
    cases hd with
    | nil => cases ht
    | cons hf hfs =>
      obtain ⟨rfl, rfl⟩ := hf.equality ha hv ht.symm
      rw [List.map_cons, ih (fun m' hm' => h m' (List.mem_cons_of_mem m hm')) hfs]
      rfl

/-- **A disjunction of equality matches is read as that disjunction**, whatever the values are. -/
theorem derives_disjunction_iff {ms : List Match} (hne : ms ≠ []) (h : ∀ m ∈ ms, m.Written)
    {f : Filter} : Derives (disjunction ms) f ↔ f = .or (ms.map Match.filter) := by
  constructor
  · intro hd
    generalize ht : disjunction ms = t at hd
    cases hd with
    | @parens t f hcomp =>
      have hbody : t = '|' :: ms.flatMap fun m => LdapFilter.equality m.attr m.text := by
        have hcons := (List.cons.inj ht).2
        exact (List.append_cancel_right hcons).symm
      subst hbody
      generalize hu : '|' :: ms.flatMap (fun m => LdapFilter.equality m.attr m.text) = u at hcomp
      cases hcomp with
      | and => cases hu
      | not => cases hu
      | or hfs =>
        cases hu
        rw [hfs.matches h]
      | item hitem =>
        obtain ⟨c, cs, rfl, hc⟩ := hitem.head
        cases hu
        rcases hc with hc | hc <;> cases hc
  · intro hf
    subst hf
    refine .parens (.or (derivesAll_matches h) fun hnil => hne ?_)
    exact List.map_eq_nil_iff.mp hnil

/-! ## Reading a disjunction backwards -/

theorem exists_of_derives_simple {t a : Text} {b : Octets} (h : Derives t (.simple a .equal b)) :
    ∃ v, t = LdapFilter.equality a v ∧ Value v b := by
  cases h with
  | parens hcomp =>
    cases hcomp with
    | item hitem =>
      cases hitem with
      | simple _ _ hv => exact ⟨_, rfl, hv⟩

theorem exists_of_derives_or {t : Text} {fs : List Filter} (h : Derives t (.or fs)) :
    ∃ u, t = '(' :: ('|' :: u ++ [')']) ∧ DerivesAll u fs := by
  cases h with
  | parens hcomp =>
    cases hcomp with
    | or hfs => exact ⟨_, rfl, hfs⟩
    | item hitem => cases hitem

/-- Two texts of one length that one text starts with are one text. -/
theorem eq_of_append_eq {t t' r r' : Text} (h : t ++ r = t' ++ r')
    (hlength : (utf8 t).length = (utf8 t').length) : t = t' := by
  have hempty : ∀ {u : Text}, (utf8 u).length = 0 → u = [] := by
    intro u hu
    by_contra hne
    exact utf8_ne_nil hne (List.length_eq_zero_iff.mp hu)
  rcases List.append_eq_append_iff.mp h with ⟨u, rfl, -⟩ | ⟨u, rfl, -⟩
  · rw [utf8_append, List.length_append] at hlength
    rw [hempty (u := u) (by omega), List.append_nil]
  · rw [utf8_append, List.length_append] at hlength
    rw [hempty (u := u) (by omega), List.append_nil]

/-- A text that stands, unchanged, twice in a disjunction and is read as itself there is plain: had
    anything in it been read as an escape, it would stand for fewer octets than it is long. -/
theorem plain_of_derives {a a' s : Text}
    (h : Derives ('(' :: ('|' :: (LdapFilter.equality a s ++ LdapFilter.equality a' s) ++ [')']))
      (.or [.simple a .equal (utf8 s), .simple a' .equal (utf8 s)])) : Plain s := by
  obtain ⟨u, hu, hall⟩ := exists_of_derives_or h
  cases hall with
  | cons h₁ hrest =>
    cases hrest with
    | cons h₂ hnil =>
      cases hnil
      obtain ⟨v₁, rfl, hv₁⟩ := exists_of_derives_simple h₁
      obtain ⟨v₂, rfl, hv₂⟩ := exists_of_derives_simple h₂
      have htext : s ++ ')' :: (LdapFilter.equality a' s ++ [')']) =
          v₁ ++ ')' :: (LdapFilter.equality a' v₂ ++ [')']) := by
        simpa [LdapFilter.equality] using hu
      have hlength : 2 * (utf8 s).length = (utf8 v₁).length + (utf8 v₂).length := by
        have hutf8 := congrArg (fun t => (utf8 t).length) htext
        simp only [LdapFilter.equality, utf8_append, utf8_cons, List.length_append] at hutf8
        omega
      have hle₁ := hv₁.length_le
      have hle₂ := hv₂.length_le
      have hsame : (utf8 v₁).length = (utf8 s).length := by omega
      rw [← eq_of_append_eq htext.symm hsame]
      exact hle₁.2 hsame.symm

end LdapFilter
