import Mathlib.Data.List.Basic

/-!
# Texts with holes

A page is made of literal pieces and of texts that were put between them as they are. Which `<` of
the page is whose is a matter of counting, and the tags of the page are read off by a scanner.

The one fact that matters: **if no text that was put in has a `<`, the tags of the page are those of
its literal pieces** (`tags_render`), whatever the texts.
-/

set_option autoImplicit false

namespace Markup

inductive Piece where
  | text (s : String)
  | hole (s : String)
  deriving DecidableEq, Repr

def Piece.content : Piece → String
  | .text s => s
  | .hole s => s

/-- The page. -/
def render : List Piece → String
  | [] => ""
  | piece :: pieces => piece.content ++ render pieces

/-- The literal pieces. -/
def literal : List Piece → List String
  | [] => []
  | .text s :: pieces => s :: literal pieces
  | .hole _ :: pieces => literal pieces

/-- What was put in. -/
def holes : List Piece → List String
  | [] => []
  | .text _ :: pieces => holes pieces
  | .hole s :: pieces => s :: holes pieces

@[simp] theorem literal_append (ps qs : List Piece) :
    literal (ps ++ qs) = literal ps ++ literal qs := by
  induction ps with
  | nil => rfl
  | cons p ps ih => cases p <;> simp [literal, ih]

@[simp] theorem holes_append (ps qs : List Piece) : holes (ps ++ qs) = holes ps ++ holes qs := by
  induction ps with
  | nil => rfl
  | cons p ps ih => cases p <;> simp [holes, ih]

theorem literal_flatMap {α : Type} (f : α → List Piece) (l : List α) :
    literal (l.flatMap f) = l.flatMap fun a => literal (f a) := by
  induction l with
  | nil => rfl
  | cons a l ih => rw [List.flatMap_cons, List.flatMap_cons, literal_append, ih]

/-! ## Whose `<` it is -/

def angles (s : String) : Nat := s.toList.count '<'

/-- The text has no `<`. -/
def Angleless (s : String) : Prop := '<' ∉ s.toList

instance (s : String) : Decidable (Angleless s) := inferInstanceAs (Decidable (¬ _))

theorem angles_eq_zero {s : String} : angles s = 0 ↔ Angleless s := List.count_eq_zero

theorem angles_append (s t : String) : angles (s ++ t) = angles s + angles t := by
  rw [angles, String.toList_append, List.count_append]
  rfl

/-- The `<` of all of them. -/
def anglesIn : List String → Nat
  | [] => 0
  | s :: texts => angles s + anglesIn texts

theorem anglesIn_eq_zero {texts : List String} : anglesIn texts = 0 ↔ ∀ s ∈ texts, Angleless s := by
  induction texts with
  | nil => simp [anglesIn]
  | cons s texts ih => rw [anglesIn, Nat.add_eq_zero_iff, ih, angles_eq_zero, List.forall_mem_cons]

/-- Every `<` of the page stands in a literal piece or in a text that was put in. -/
theorem angles_render (ps : List Piece) :
    angles (render ps) = anglesIn (literal ps) + anglesIn (holes ps) := by
  induction ps with
  | nil => rfl
  | cons p ps ih =>
    rw [render, angles_append, ih]
    cases p with
    | text s =>
      show _ = angles s + anglesIn (literal ps) + _
      rw [Nat.add_assoc]
      rfl
    | hole s =>
      show _ = _ + (angles s + anglesIn (holes ps))
      rw [Nat.add_left_comm]
      rfl

/-- Nothing that was put in has a `<`. -/
def Harmless (ps : List Piece) : Prop := ∀ s ∈ holes ps, Angleless s

section Harmless

variable {ps qs : List Piece} {s : String}

@[simp] theorem harmless_nil : Harmless [] := fun _ hs => absurd hs List.not_mem_nil

@[simp] theorem harmless_text : Harmless (.text s :: ps) ↔ Harmless ps := Iff.rfl

@[simp] theorem harmless_hole : Harmless (.hole s :: ps) ↔ Angleless s ∧ Harmless ps :=
  List.forall_mem_cons

@[simp] theorem harmless_append : Harmless (ps ++ qs) ↔ Harmless ps ∧ Harmless qs := by
  rw [Harmless, holes_append, List.forall_mem_append]
  rfl

@[simp] theorem harmless_flatMap {α : Type} {f : α → List Piece} {l : List α} :
    Harmless (l.flatMap f) ↔ ∀ a ∈ l, Harmless (f a) := by
  induction l with
  | nil => simp
  | cons a l ih => rw [List.flatMap_cons, harmless_append, ih, List.forall_mem_cons]

end Harmless

/-- The page has no `<` but those of its literal pieces. -/
theorem angles_render_iff (ps : List Piece) :
    angles (render ps) = anglesIn (literal ps) ↔ Harmless ps := by
  rw [angles_render, Nat.add_eq_left, anglesIn_eq_zero]
  rfl

/-! ## The tags -/

/-- How far a reader has got: in text, after a `<`, or in the name of a tag. What follows the name
    is read as text again. -/
inductive Mode where
  | text
  | opened
  | name (cs : List Char)
  deriving DecidableEq

/-- A `<` opens a tag if a letter, `/`, `!` or `?` follows it. -/
def opens (c : Char) : Bool := c.isAlpha || c == '/' || c == '!' || c == '?'

/-- The name is over at a blank or `>`. -/
def closes (c : Char) : Bool := c.isWhitespace || c == '>'

def read : Mode → Char → Mode
  | .text, c => if c = '<' then .opened else .text
  | .opened, c => if opens c then .name [c] else if c = '<' then .opened else .text
  | .name cs, c => if closes c then .text else .name (cs ++ [c])

/-- The tag that is over with this character. -/
def ended : Mode → Char → List String
  | .name cs, c => if closes c then [String.ofList cs] else []
  | _, _ => []

def tagsFrom : Mode → List Char → List String
  | _, [] => []
  | mode, c :: cs => ended mode c ++ tagsFrom (read mode c) cs

/-- The names of the tags, in their order; the name of an end tag has its `/`. -/
def tags (s : String) : List String := tagsFrom .text s.toList

theorem tagsFrom_append (mode : Mode) (cs ds : List Char) :
    tagsFrom mode (cs ++ ds) = tagsFrom mode cs ++ tagsFrom (cs.foldl read mode) ds := by
  induction cs generalizing mode with
  | nil => rfl
  | cons c cs ih =>
      rw [List.cons_append, tagsFrom, tagsFrom, ih, List.append_assoc, List.foldl_cons]

theorem read_text_of_ne {c : Char} (h : c ≠ '<') : read .text c = .text := if_neg h

/-- A text without a `<` is read without anything to show for it. -/
theorem tagsFrom_plain {cs : List Char} (h : '<' ∉ cs) :
    tagsFrom .text cs = [] ∧ cs.foldl read .text = .text := by
  induction cs with
  | nil => exact ⟨rfl, rfl⟩
  | cons c cs ih =>
    have hc : c ≠ '<' := fun heq => h (heq ▸ List.mem_cons_self)
    have hrest := ih fun hmem => h (List.mem_cons_of_mem c hmem)
    rw [tagsFrom, List.foldl_cons, read_text_of_ne hc]
    exact hrest

/-- The piece leaves the reader in text. -/
def Closed (s : String) : Prop := s.toList.foldl read .text = .text

theorem closed_ofList {cs : List Char} (h : cs.foldl read .text = .text) :
    Closed (String.ofList cs) := by
  rw [Closed, String.toList_ofList]
  exact h

theorem Angleless.closed {s : String} (h : Angleless s) : Closed s := (tagsFrom_plain h).2

/-- The literal pieces leave the reader in text, all of them. -/
def Whole (ps : List Piece) : Prop := ∀ s ∈ literal ps, Closed s

section Whole

variable {ps qs : List Piece} {s : String}

@[simp] theorem whole_nil : Whole [] := fun _ hs => absurd hs List.not_mem_nil

@[simp] theorem whole_text : Whole (.text s :: ps) ↔ Closed s ∧ Whole ps := List.forall_mem_cons

@[simp] theorem whole_hole : Whole (.hole s :: ps) ↔ Whole ps := Iff.rfl

@[simp] theorem whole_append : Whole (ps ++ qs) ↔ Whole ps ∧ Whole qs := by
  rw [Whole, literal_append, List.forall_mem_append]
  rfl

theorem Whole.flatMap {α : Type} {f : α → List Piece} {l : List α} (h : ∀ a ∈ l, Whole (f a)) :
    Whole (l.flatMap f) := by
  induction l with
  | nil => exact whole_nil
  | cons a l ih =>
    rw [List.flatMap_cons, whole_append]
    exact ⟨h a List.mem_cons_self, ih fun a' ha' => h a' (List.mem_cons_of_mem _ ha')⟩

end Whole

/-- A page is read piece by piece. -/
theorem tags_render_of_closed {ps : List Piece} (h : ∀ p ∈ ps, Closed p.content) :
    tags (render ps) = ps.flatMap fun p => tags p.content := by
  induction ps with
  | nil => rfl
  | cons p ps ih =>
    have hp : p.content.toList.foldl read .text = .text := h p List.mem_cons_self
    rw [List.flatMap_cons, ← ih fun q hq => h q (List.mem_cons_of_mem p hq), render, tags,
      String.toList_append, tagsFrom_append, hp]
    rfl

theorem closed_content {ps : List Piece} (hwhole : Whole ps) (hholes : ∀ s ∈ holes ps, Closed s) :
    ∀ p ∈ ps, Closed p.content := by
  induction ps with
  | nil => exact fun p hp => absurd hp List.not_mem_nil
  | cons p ps ih =>
    cases p with
    | text s =>
      obtain ⟨hs, hps⟩ := whole_text.mp hwhole
      exact List.forall_mem_cons.mpr ⟨hs, ih hps hholes⟩
    | hole s =>
      obtain ⟨hs, hps⟩ := List.forall_mem_cons.mp hholes
      exact List.forall_mem_cons.mpr ⟨hs, ih hwhole hps⟩

/-- What is put in adds its own tags. -/
theorem length_tags (ps : List Piece) : (ps.flatMap fun p => tags p.content).length =
    ((literal ps).flatMap tags).length + ((holes ps).flatMap tags).length := by
  induction ps with
  | nil => rfl
  | cons p ps ih =>
    rw [List.flatMap_cons, List.length_append, ih]
    cases p with
    | text s =>
      show (tags s).length + _ = ((s :: literal ps).flatMap tags).length + _
      rw [List.flatMap_cons, List.length_append, Nat.add_assoc]
      rfl
    | hole s =>
      show (tags s).length + _ = _ + ((s :: holes ps).flatMap tags).length
      rw [List.flatMap_cons, List.length_append, Nat.add_left_comm]
      rfl

/-- **The tags of a page** are those of its literal pieces. -/
theorem tags_render {ps : List Piece} (hwhole : Whole ps) (hharmless : Harmless ps) :
    tags (render ps) = (literal ps).flatMap tags := by
  rw [tags_render_of_closed (closed_content hwhole fun s hs => (hharmless s hs).closed)]
  induction ps with
  | nil => rfl
  | cons p ps ih =>
    rw [List.flatMap_cons]
    cases p with
    | text s =>
      rw [ih (whole_text.mp hwhole).2 hharmless]
      rfl
    | hole s =>
      obtain ⟨hs, hps⟩ := harmless_hole.mp hharmless
      have hnone : tags (Piece.hole s).content = [] := (tagsFrom_plain hs).1
      rw [hnone, ih hwhole hps]
      rfl

/-- **Two pages with the same literal pieces** have the same tags. -/
theorem tags_render_congr {ps qs : List Piece} (hsame : literal ps = literal qs) (hwhole : Whole ps)
    (hps : Harmless ps) (hqs : Harmless qs) : tags (render ps) = tags (render qs) := by
  have hwhole' : Whole qs := fun s hs => hwhole s (hsame ▸ hs)
  rw [tags_render hwhole hps, tags_render hwhole' hqs, hsame]

end Markup
