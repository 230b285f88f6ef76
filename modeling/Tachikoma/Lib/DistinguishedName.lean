import Tachikoma.Lib.LdapFilter

/-!
# Distinguished names as text

How a value is written in a distinguished name: a character stands for itself, or behind a
backslash, or as its bytes in hexadecimal, and for some characters only the latter. One value has
many such texts, so that `Escapes` is a relation; `escape` is the text with the fewest backslashes.
-/

set_option autoImplicit false

namespace DistinguishedName

open LdapFilter (hexVal)

/-- The characters that must not stand for themselves, wherever they stand. -/
def isEscaped (c : Char) : Bool :=
  c = '"' || c = '+' || c = ',' || c = ';' || c = '<' || c = '>' || c = '\\'

/-- The characters that may stand behind a backslash. -/
def isSpecial (c : Char) : Bool := isEscaped c || c = ' ' || c = '#' || c = '='

/-- The character stands for itself: a blank not at the ends, and a `#` not at the beginning. -/
def isLiteral (first last : Bool) (c : Char) : Bool :=
  !isEscaped c && c ≠ '\x00' && !(first && (c = ' ' || c = '#')) && !(last && c = ' ')

/-- Bytes in hexadecimal, two digits behind a backslash each. -/
inductive HexPairs : List UInt8 → List Char → Prop where
  | nil : HexPairs [] []
  | cons {h l : Char} {x y : UInt8} {bs : List UInt8} {t : List Char} (hh : hexVal h = some x)
      (hl : hexVal l = some y) (ht : HexPairs bs t) :
      HexPairs ((16 * x + y) :: bs) ('\\' :: h :: l :: t)

/-- The ways to write one character. -/
inductive Written (first last : Bool) (c : Char) : List Char → Prop where
  | literal (hc : isLiteral first last c = true) : Written first last c [c]
  | pair (hc : isSpecial c = true) : Written first last c ['\\', c]
  | hex {t : List Char} (ht : HexPairs (String.utf8EncodeChar c) t) : Written first last c t

/-- The ways to write a value, or (`first = false`) what is left of one. -/
inductive EscapesFrom : Bool → List Char → List Char → Prop where
  | nil {first : Bool} : EscapesFrom first [] []
  | cons {first : Bool} {c : Char} {v s s' : List Char} (hc : Written first v.isEmpty c s)
      (hv : EscapesFrom false v s') : EscapesFrom first (c :: v) (s ++ s')

abbrev Escapes (v s : List Char) : Prop := EscapesFrom true v s

/-! ## Every value can be written -/

def escapeChar (first last : Bool) (c : Char) : List Char :=
  if isLiteral first last c then [c]
  else if c = '\x00' then ['\\', '0', '0']
  else ['\\', c]

def escapeFrom : Bool → List Char → List Char
  | _, [] => []
  | first, c :: v => escapeChar first v.isEmpty c ++ escapeFrom false v

def escape (v : List Char) : List Char := escapeFrom true v

theorem written_escapeChar (first last : Bool) (c : Char) :
    Written first last c (escapeChar first last c) := by
  unfold escapeChar
  by_cases hliteral : isLiteral first last c = true
  · rw [if_pos hliteral]
    exact .literal hliteral
  rw [if_neg hliteral]
  by_cases hnul : c = '\x00'
  · rw [if_pos hnul, hnul]
    exact .hex (.cons (x := 0) (y := 0) rfl rfl .nil)
  · rw [if_neg hnul]
    refine .pair ?_
    -- What is not literal is escaped, or a blank or a `#` at an end.
    by_contra hspecial
    refine hliteral ?_
    simp only [isSpecial, Bool.or_eq_true, decide_eq_true_eq, not_or] at hspecial
    obtain ⟨⟨⟨hescaped, hblank⟩, hsharp⟩, -⟩ := hspecial
    simp [isLiteral, hescaped, hnul, hblank, hsharp]

theorem escapesFrom_escapeFrom (first : Bool) (v : List Char) :
    EscapesFrom first v (escapeFrom first v) := by
  induction v generalizing first with
  | nil => exact .nil
  | cons c v ih => exact .cons (written_escapeChar _ _ c) (ih false)

theorem escapes_escape (v : List Char) : Escapes v (escape v) := escapesFrom_escapeFrom true v

/-! ## Commas -/

section Commas

variable {first last : Bool} {c : Char} {v s : List Char}

theorem hexVal_ne_comma {x : UInt8} (h : hexVal c = some x) : c ≠ ',' := by
  rintro rfl
  simp [hexVal, Char.isDigit] at h

theorem HexPairs.not_mem {bs : List UInt8} {t : List Char} (h : HexPairs bs t) : ',' ∉ t := by
  induction h with
  | nil => simp
  | cons hh hl _ ih =>
    simp only [List.mem_cons, not_or]
    exact ⟨by decide, (hexVal_ne_comma hh).symm, (hexVal_ne_comma hl).symm, ih⟩

/-- A comma is only ever written for a comma. -/
theorem Written.mem (h : Written first last c s) (hs : ',' ∈ s) : c = ',' := by
  cases h with
  | literal hc => exact (List.mem_singleton.mp hs).symm
  | pair hc =>
    rcases List.mem_cons.mp hs with heq | hs
    · exact absurd heq (by decide)
    · exact (List.mem_singleton.mp hs).symm
  | hex ht => exact absurd hs ht.not_mem

theorem EscapesFrom.mem (h : EscapesFrom first v s) (hs : ',' ∈ s) : ',' ∈ v := by
  induction h with
  | nil => exact hs
  | cons hc _ ih =>
    rcases List.mem_append.mp hs with hs | hs
    · rw [hc.mem hs]
      exact List.mem_cons_self
    · exact List.mem_cons_of_mem _ (ih hs)

/-! ## Values that are written as they are -/

theorem HexPairs.length {bs : List UInt8} {t : List Char} (h : HexPairs bs t) :
    t.length = 3 * bs.length := by
  induction h with
  | nil => rfl
  | cons _ _ _ ih => simp only [List.length_cons, ih]; omega

theorem Written.length_le (h : Written first last c s) :
    1 ≤ s.length ∧ (s.length = 1 → isLiteral first last c = true) := by
  cases h with
  | literal hc => exact ⟨le_rfl, fun _ => hc⟩
  | pair hc => exact ⟨by simp, fun h => by simp at h⟩
  | hex ht =>
    have hpos : 0 < (String.utf8EncodeChar c).length :=
      List.length_pos_iff.mpr String.utf8EncodeChar_ne_nil
    rw [ht.length]
    exact ⟨by omega, fun h => by omega⟩

/-- A text is no shorter than the value, and if it is as long it has no comma. -/
theorem EscapesFrom.length_le (h : EscapesFrom first v s) :
    v.length ≤ s.length ∧ (s.length = v.length → ',' ∉ v) := by
  induction h with
  | nil => exact ⟨le_rfl, fun _ => List.not_mem_nil⟩
  | cons hc _ ih =>
    obtain ⟨hone, hliteral⟩ := hc.length_le
    rw [List.length_append, List.length_cons]
    refine ⟨by omega, fun hlength => ?_⟩
    rw [List.mem_cons, not_or]
    refine ⟨?_, ih.2 (by omega)⟩
    rintro rfl
    simpa [isLiteral, isEscaped] using hliteral (by omega)

/-- A value that is written as it is has no comma. -/
theorem EscapesFrom.not_mem_of_eq (h : EscapesFrom first v v) : ',' ∉ v := h.length_le.2 rfl

end Commas

end DistinguishedName
