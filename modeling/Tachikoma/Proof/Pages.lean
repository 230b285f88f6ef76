import Tachikoma.Lib.Decimal
import Tachikoma.Web.Pages

/-!
# What a page says for itself

The page of API tokens shows texts that its users chose, and none of its templates escapes anything.
So **the page has no `<` but its own exactly if none of the texts has one**: nothing between the
form and the page takes a `<` out of a name. As long as that is so the tags are the templates',
whatever else the texts say.
-/

set_option autoImplicit false

namespace Tachikoma

open Markup

/-! ## The texts that are shown -/

/-- What `Display` prints of an integer. -/
theorem angleless_toString (n : Int) : Angleless (toString n) := by
  have hdigits : ∀ m, '<' ∉ Nat.toDigits 10 m := fun m hm =>
    absurd (Decimal.isDigit_of_mem_toDigits hm) (by decide)
  unfold Angleless
  cases n with
  | ofNat m =>
    have hlist : (toString (Int.ofNat m)).toList = Nat.toDigits 10 m :=
      Decimal.toList_toString_nat m
    rw [hlist]
    exact hdigits m
  | negSucc m =>
    rw [Decimal.toList_toString_negSucc, List.mem_cons]
    exact not_or.mpr ⟨by decide, hdigits _⟩

/-- None of the texts has a `<`: those that users choose, and those of the server. -/
structure PlainTexts (page : HostsPage TokensPage) : Prop where
  names : ∀ token ∈ page.page.tokens, ∀ name ∈ token.name, Angleless name
  createdToken : ∀ createdToken ∈ page.page.createdToken, Angleless createdToken
  error : ∀ error ∈ page.page.error, Angleless error
  login : Angleless page.user.login
  groups : ∀ group ∈ page.user.groups, Angleless group
  createdAt : ∀ token ∈ page.page.tokens, Angleless token.createdAt
  version : Angleless page.appInfo.version
  link : ∀ authLink ∈ page.authLink, Angleless page.user.link ∧ Angleless authLink

namespace TokensPage

theorem harmless_errorPieces {error : Option String} :
    Harmless (errorPieces error) ↔ ∀ s ∈ error, Angleless s := by
  cases error <;> simp [errorPieces]

theorem harmless_createdPieces {createdToken : Option String} :
    Harmless (createdPieces createdToken) ↔ ∀ s ∈ createdToken, Angleless s := by
  cases createdToken <;> simp [createdPieces]

theorem harmless_tokenPieces {token : TokensTokenInfo} :
    Harmless (tokenPieces token) ↔ (∀ name ∈ token.name, Angleless name) ∧
      Angleless token.createdAt := by
  have hid : Angleless token.id.display := angleless_toString _
  cases hname : token.name <;> simp [tokenPieces, namePieces, hname, hid]

theorem harmless_listPieces {tokens : List TokensTokenInfo} :
    Harmless (listPieces tokens) ↔
      ∀ token ∈ tokens, (∀ name ∈ token.name, Angleless name) ∧ Angleless token.createdAt := by
  unfold listPieces
  split
  · rename_i hnil
    simp [hnil]
  · simp [harmless_tokenPieces]

theorem harmless_pieces {page : TokensPage} : Harmless (Template.pieces page) ↔
    (∀ s ∈ page.error, Angleless s) ∧ (∀ s ∈ page.createdToken, Angleless s) ∧
      ∀ token ∈ page.tokens, (∀ name ∈ token.name, Angleless name) ∧ Angleless token.createdAt := by
  show Harmless (List.flatten _) ↔ _
  simp [harmless_errorPieces, harmless_createdPieces, harmless_listPieces]

end TokensPage

theorem angleless_toString_bool (b : Bool) : Angleless (toString b) := by
  cases b <;> decide

namespace HostsPage

theorem harmless_linkPieces {link : String} {authLink : Option String} :
    Harmless (linkPieces link authLink) ↔ ∀ s ∈ authLink, Angleless link ∧ Angleless s := by
  cases authLink <;> simp [linkPieces]

/-- **The texts of a page** are these. -/
theorem harmless_pieces {page : HostsPage TokensPage} :
    Harmless (Template.pieces page) ↔ PlainTexts page := by
  have hgroup : ∀ group, Harmless (groupPieces group) ↔ Angleless group := fun group => by
    simp [groupPieces]
  have hpieces : Harmless (Template.pieces page) ↔ Harmless (Template.pieces page.page) ∧
      Angleless page.appInfo.version ∧ Angleless page.user.login ∧
      (∀ s ∈ page.authLink, Angleless page.user.link ∧ Angleless s) ∧
      ∀ group ∈ page.user.groups, Angleless group := by
    show Harmless (basePieces (List.flatten _)) ↔ _
    simp [basePieces, harmless_linkPieces, hgroup, angleless_toString_bool]
  rw [hpieces, TokensPage.harmless_pieces]
  constructor
  · intro h
    obtain ⟨⟨herror, hcreated, htokens⟩, hversion, hlogin, hlink, hgroups⟩ := h
    exact {
      names := fun token htoken => (htokens token htoken).1
      createdToken := hcreated
      error := herror
      login := hlogin
      groups := hgroups
      createdAt := fun token htoken => (htokens token htoken).2
      version := hversion
      link := hlink }
  · intro h
    exact ⟨⟨h.error, h.createdToken, fun token htoken =>
      ⟨h.names token htoken, h.createdAt token htoken⟩⟩, h.version, h.login, h.link, h.groups⟩

end HostsPage

/-! ## The templates' own text -/

namespace TokensPage

theorem whole_errorPieces (error : Option String) : Whole (errorPieces error) := by
  cases error
  all_goals
    simp only [errorPieces, whole_text, whole_hole, whole_nil, and_true]
  and_intros
  all_goals
    apply closed_ofList
    decide

theorem whole_createdPieces (createdToken : Option String) :
    Whole (createdPieces createdToken) := by
  cases createdToken
  all_goals
    simp only [createdPieces, whole_text, whole_hole, whole_nil, and_true]
  and_intros
  all_goals
    apply closed_ofList
    decide +kernel

theorem whole_namePieces (name : Option String) : Whole (namePieces name) := by
  cases name
  all_goals
    simp only [namePieces, whole_text, whole_hole, whole_nil, and_true]
  all_goals and_intros
  all_goals
    apply closed_ofList
    decide

theorem whole_tokenPieces (token : TokensTokenInfo) : Whole (tokenPieces token) := by
  simp only [tokenPieces, List.flatten_cons, List.flatten_nil, List.append_nil, whole_append,
    whole_text, whole_hole, whole_nil, whole_namePieces, and_true, true_and]
  and_intros
  all_goals
    apply closed_ofList
    decide +kernel

theorem whole_listPieces (tokens : List TokensTokenInfo) : Whole (listPieces tokens) := by
  have htokens : Whole (tokens.flatMap tokenPieces) :=
    Whole.flatMap fun token _ => whole_tokenPieces token
  unfold listPieces
  split
  all_goals
    simp only [List.flatten_cons, List.flatten_nil, List.append_nil, whole_append, whole_text,
      whole_nil, htokens, and_true, true_and]
  all_goals and_intros
  all_goals
    apply closed_ofList
    decide

theorem whole_pieces (page : TokensPage) : Whole (Template.pieces page) := by
  show Whole (List.flatten _)
  simp only [List.flatten_cons, List.flatten_nil, List.append_nil, whole_append, whole_text,
    whole_nil, whole_errorPieces, whole_createdPieces, whole_listPieces, and_true, true_and]
  and_intros
  all_goals
    apply closed_ofList
    decide +kernel

end TokensPage

namespace HostsPage

theorem whole_linkPieces (link : String) (authLink : Option String) :
    Whole (linkPieces link authLink) := by
  cases authLink
  all_goals
    simp only [linkPieces, whole_text, whole_hole, whole_nil, and_true]
  all_goals and_intros
  all_goals
    apply closed_ofList
    decide

theorem whole_groupPieces (group : String) : Whole (groupPieces group) := by
  simp only [groupPieces, whole_text, whole_hole, whole_nil, and_true]
  and_intros
  all_goals
    apply closed_ofList
    decide

/-- A template ends its tags before it puts a text in. -/
theorem whole_pieces (page : HostsPage TokensPage) : Whole (Template.pieces page) := by
  have hgroups : Whole (page.user.groups.flatMap groupPieces) :=
    Whole.flatMap fun group _ => whole_groupPieces group
  show Whole (basePieces (List.flatten _))
  simp only [basePieces, List.flatten_cons, List.flatten_nil, List.append_nil, whole_append,
    whole_text, whole_hole, whole_nil, TokensPage.whole_pieces, whole_linkPieces, hgroups, and_true,
    true_and]
  and_intros
  all_goals
    apply closed_ofList
    decide +kernel

end HostsPage

/-! ## Pages that differ in what users chose -/

/-- The page with the users' texts left out. -/
def TokensPage.blank (page : TokensPage) : TokensPage where
  tokens := page.tokens.map fun token => { token with name := token.name.map fun _ => "" }
  createdToken := page.createdToken.map fun _ => ""
  error := page.error.map fun _ => ""

def HostsPage.blank (page : HostsPage TokensPage) : HostsPage TokensPage :=
  { page with
    page := page.page.blank
    user := { page.user with login := "", groups := page.user.groups.map fun _ => "" } }

theorem TokensPage.literal_tokenPieces (token : TokensTokenInfo) : literal (tokenPieces token) =
    literal (tokenPieces { token with name := token.name.map fun _ => "" }) := by
  obtain ⟨id, name, createdAt⟩ := token
  cases name <;> rfl

theorem TokensPage.literal_pieces (page : TokensPage) :
    literal (Template.pieces page) = literal (Template.pieces page.blank) := by
  have herror : literal (errorPieces page.error) = literal (errorPieces page.blank.error) := by
    unfold blank
    cases page.error <;> rfl
  have hcreated : literal (createdPieces page.createdToken) =
      literal (createdPieces page.blank.createdToken) := by
    unfold blank
    cases page.createdToken <;> rfl
  have hloop : literal (page.tokens.flatMap tokenPieces) =
      literal (page.blank.tokens.flatMap tokenPieces) := by
    unfold blank
    rw [literal_flatMap, literal_flatMap, List.flatMap_map]
    exact List.flatMap_congr fun token _ => literal_tokenPieces token
  have htokens : literal (listPieces page.tokens) = literal (listPieces page.blank.tokens) := by
    unfold listPieces
    by_cases hnil : page.tokens = []
    · have hblank : page.blank.tokens = [] := by
        unfold blank
        rw [hnil]
        rfl
      rw [if_pos hnil, if_pos hblank]
    · have hblank : page.blank.tokens ≠ [] := fun h => hnil (List.map_eq_nil_iff.mp h)
      rw [if_neg hnil, if_neg hblank]
      simp only [List.flatten_cons, literal_append, hloop]
  show literal (List.flatten _) = literal (List.flatten _)
  simp only [List.flatten_cons, literal_append, herror, hcreated, htokens]

/-- The literal pieces are the same with the texts left out. -/
theorem HostsPage.literal_pieces (page : HostsPage TokensPage) :
    literal (Template.pieces page) = literal (Template.pieces page.blank) := by
  have hlink : ∀ link, literal (linkPieces link page.authLink) =
      literal (linkPieces page.blank.user.link page.blank.authLink) := by
    intro link
    unfold blank
    cases page.authLink <;> rfl
  have hgroups : literal (page.user.groups.flatMap groupPieces) =
      literal (page.blank.user.groups.flatMap groupPieces) := by
    unfold blank
    rw [literal_flatMap, literal_flatMap, List.flatMap_map]
    rfl
  show literal (basePieces (List.flatten _)) = literal (basePieces (List.flatten _))
  simp only [basePieces, List.flatten_cons, literal_append, hgroups, hlink,
    page.page.literal_pieces]
  rfl

/-! ## The page of tokens -/

/-- The page has no `<` but those of the templates' own text. -/
def OwnMarkup (page : HostsPage TokensPage) : Prop :=
  angles (Template.page page) = anglesIn (literal (Template.pieces page))

theorem ownMarkup_iff {page : HostsPage TokensPage} : OwnMarkup page ↔ PlainTexts page := by
  rw [← HostsPage.harmless_pieces, ← angles_render_iff]
  rfl

/-- **User text stays text exactly if it has no `<`**: a page has no `<` but its own if and only if
    none of the texts that are shown has one; and of two pages that differ in what users chose, both
    are so and have the same tags if and only if no text of either has a `<`. -/
theorem tokens_page_iff (page : HostsPage TokensPage) :
    (OwnMarkup page ↔ PlainTexts page) ∧
      ∀ page' : HostsPage TokensPage, page.blank = page'.blank →
        ((OwnMarkup page ∧ OwnMarkup page' ∧
            tags (Template.page page) = tags (Template.page page')) ↔
          PlainTexts page ∧ PlainTexts page') := by
  refine ⟨ownMarkup_iff, fun page' hblank => ?_⟩
  rw [ownMarkup_iff, ownMarkup_iff]
  refine and_congr_right fun hplain => and_iff_left_of_imp fun hplain' => ?_
  have hsame : literal (Template.pieces page) = literal (Template.pieces page') := by
    rw [page.literal_pieces, page'.literal_pieces, hblank]
  exact tags_render_congr hsame page.whole_pieces (HostsPage.harmless_pieces.mpr hplain)
    (HostsPage.harmless_pieces.mpr hplain')

/-! ## What a user can put there

The messages of the two handlers have no `<`, so what is left are the names of the tokens and what
the directory says of the user. -/

/-- A message of `create_token` or `revoke_token`. -/
def HandlerFlash (flash : FlashLevel × String) : Prop :=
  (∃ token bytes, flash = createTokenFlash (.ok ⟨token, tokenPlaintext bytes⟩)) ∨
    (∃ e, flash = createTokenFlash (.error e)) ∨ ∃ r, revokeTokenFlash r = some flash

theorem angleless_tokenPlaintext (bytes : Vector UInt8 32) : Angleless (tokenPlaintext bytes) := by
  intro hmem
  rw [tokenPlaintext, String.toList_append, List.mem_append] at hmem
  rcases hmem with hmem | hmem
  · exact absurd hmem (by decide)
  · exact absurd (Hex.mem_encode hmem) (by decide)

theorem ApiTokenError.angleless_message (e : ApiTokenError) : Angleless e.message := by
  cases e with
  | databaseError e =>
    show Angleless "Database error"
    decide
  | notFound => decide
  | limitExceeded => decide

theorem HandlerFlash.angleless {flash : FlashLevel × String} (h : HandlerFlash flash) :
    Angleless flash.2 := by
  rcases h with ⟨token, bytes, rfl⟩ | ⟨e, rfl⟩ | ⟨r, hr⟩
  · exact angleless_tokenPlaintext bytes
  · exact e.angleless_message
  · cases r with
    | ok => cases hr
    | error e =>
      obtain rfl := Option.some.inj hr
      exact e.angleless_message

/-- A text that is shown is that of a message. -/
theorem readFlashes_angleless {flashes : List (FlashLevel × String)}
    (h : ∀ f ∈ flashes, Angleless f.2) {createdToken error : Option String}
    (hcreated : ∀ s ∈ createdToken, Angleless s)
    (herror : ∀ s ∈ error, Angleless s) :
    (∀ s ∈ (readFlashes flashes createdToken error).1, Angleless s) ∧
      ∀ s ∈ (readFlashes flashes createdToken error).2, Angleless s := by
  induction flashes generalizing createdToken error with
  | nil => exact ⟨hcreated, herror⟩
  | cons flash flashes ih =>
    obtain ⟨level, msg⟩ := flash
    have hrest : ∀ f ∈ flashes, Angleless f.2 := fun f hf => h f (List.mem_cons_of_mem _ hf)
    have hmsg : ∀ s ∈ some msg, Angleless s := fun s hs => by
      obtain rfl := Option.mem_some_iff.mp hs
      exact h _ List.mem_cons_self
    cases level with
    | success => exact ih hrest hmsg herror
    | _ => exact ih hrest hcreated hmsg

/-- **What `tokens_page` shows** is without a `<` exactly if the names of the user's tokens are, and
    the login and the groups. -/
theorem tokensPage_plain_iff {rfc3339 : Time → String} (htime : ∀ t, Angleless (rfc3339 t))
    {appInfo : AppInfo} (hversion : Angleless appInfo.version) {authLink : Option String}
    {user : AuthUser} (hlink : ∀ s ∈ authLink, Angleless user.link ∧ Angleless s)
    {flashes : List (FlashLevel × String)} (hflashes : ∀ f ∈ flashes, HandlerFlash f)
    (tokens : Except ApiTokenError (List ApiToken)) :
    PlainTexts (tokensPage rfc3339 appInfo authLink tokens flashes user) ↔
      (∀ ts, tokens = .ok ts → ∀ t ∈ ts, ∀ name ∈ t.name, Angleless name) ∧
        Angleless user.username ∧
        ∀ group ∈ user.groups, Angleless group := by
  -- The two messages come from the handlers, so they are harmless.
  have hmsgs : (∀ s ∈ (readFlashes flashes none none).1, Angleless s) ∧
      ∀ s ∈ (readFlashes flashes none none).2, Angleless s :=
    readFlashes_angleless (fun f hf => (hflashes f hf).angleless) nofun nofun
  constructor
  · intro h
    refine ⟨fun ts hts t ht => ?_, h.login, h.groups⟩
    subst hts
    exact h.names ⟨t.id, t.name, rfc3339 t.createdAt⟩ (List.mem_map.mpr ⟨t, ht, rfl⟩)
  · intro h
    obtain ⟨hnames, hlogin, hgroups⟩ := h
    refine {
      names := fun token htoken => ?_
      createdToken := hmsgs.1
      error := hmsgs.2
      login := hlogin
      groups := hgroups
      createdAt := fun token htoken => ?_
      version := hversion
      link := hlink }
    all_goals obtain ⟨t, ht, rfl⟩ := List.mem_map.mp htoken
    · cases tokens with
      | ok ts => exact hnames ts rfl t ht
      | error e => cases ht
    · exact htime t.createdAt

/-- A page of one token. -/
def smallPage (name : String) : HostsPage TokensPage where
  page := ⟨[⟨⟨1⟩, some name, "2025-04-02T13:31:05+00:00"⟩], none, none⟩
  user := ⟨"alice", ["staff"], true, "link-alice"⟩
  authLink := some "https://t.me/tachikoma"
  appInfo := ⟨"0.1.0"⟩

/-- What is on it but the name. -/
def smallTexts : List String :=
  ["2025-04-02T13:31:05+00:00", (⟨1⟩ : ApiTokenId).display, "0.1.0", "alice", toString true,
    "link-alice", "https://t.me/tachikoma", "https://t.me/tachikoma", "staff"]

theorem holes_smallPage (name : String) :
    holes (Template.pieces (smallPage name)) = name :: smallTexts := rfl

theorem smallTexts_angleless : ∀ s ∈ smallTexts, Angleless s := by
  decide

theorem smallPage_plain {name : String} (h : Angleless name) : PlainTexts (smallPage name) := by
  rw [← HostsPage.harmless_pieces, Harmless, holes_smallPage]
  exact List.forall_mem_cons.mpr ⟨h, smallTexts_angleless⟩

/-- Two names that are no markup. -/
theorem tokens_page_iff_small :
    tags (Template.page (smallPage "laptop")) =
      tags (Template.page (smallPage "CI & \"more\" >")) :=
  (((tokens_page_iff (smallPage "laptop")).2 (smallPage "CI & \"more\" >") rfl).mpr
    ⟨smallPage_plain (by decide), smallPage_plain (by decide)⟩).2.2

/-- A name puts its own tags on the page. -/
theorem length_tags_smallPage {name : String} (h : Closed name) :
    (tags (Template.page (smallPage name))).length =
      ((literal (Template.pieces (smallPage ""))).flatMap tags).length + (tags name).length := by
  have hholes : ∀ s ∈ holes (Template.pieces (smallPage name)), Closed s := by
    rw [holes_smallPage]
    exact List.forall_mem_cons.mpr ⟨h, fun s hs => (smallTexts_angleless s hs).closed⟩
  have hrest : smallTexts.flatMap tags = [] :=
    List.flatMap_eq_nil_iff.mpr fun s hs => (tagsFrom_plain (smallTexts_angleless s hs)).1
  have htags : tags (Template.page (smallPage name)) =
      (Template.pieces (smallPage name)).flatMap fun p => tags p.content :=
    tags_render_of_closed (closed_content (smallPage name).whole_pieces hholes)
  rw [htags, length_tags, holes_smallPage, List.flatMap_cons, hrest, List.append_nil]
  rfl

/-- The name `<b>` is stored as it is, and turns what follows it bold. -/
theorem not_tokens_page : tokenName (some "<b>") = some "<b>" ∧
    tokenName (some "laptop") = some "laptop" ∧
    (smallPage "<b>").blank = (smallPage "laptop").blank ∧ ¬ OwnMarkup (smallPage "<b>") ∧
    tags (Template.page (smallPage "<b>")) ≠ tags (Template.page (smallPage "laptop")) := by
  refine ⟨by decide, by decide, rfl, ?_, ?_⟩
  · intro hown
    have hharmless := (angles_render_iff _).mp hown
    rw [Harmless, holes_smallPage] at hharmless
    exact absurd (hharmless "<b>" List.mem_cons_self) (by decide)
  · intro hsame
    have hbold : Closed "<b>" := closed_ofList (by decide)
    have hplain : Angleless "laptop" := by decide
    have hlength := congrArg List.length hsame
    rw [length_tags_smallPage hbold, length_tags_smallPage hplain.closed] at hlength
    exact absurd (Nat.add_left_cancel hlength) (by decide)

end Tachikoma
