import Mathlib.Data.Nat.Digits.Defs

/-!
# Integers written in decimal

How an integer type is read from a string: a sign, which may be left out, and decimal digits, and
the number has to be one the type can hold. A minus is a sign only where the type has negative
numbers; elsewhere it is a character that is no digit, and even `-0` is refused.

The half that matters to a format is `parse_toString`: **what was printed is read back.**
-/

set_option autoImplicit false

namespace Decimal

/-- The sign and the digits; `signed` says whether a minus is a sign. -/
def splitSign (signed : Bool) : List Char → Bool × List Char
  | '-' :: cs => if signed then (true, cs) else (false, '-' :: cs)
  | '+' :: cs => (false, cs)
  | cs => (false, cs)

/-- The number of a type that holds those from `lo` up to, and not including, `hi`. -/
def parse (lo hi : Int) (s : String) : Option Int :=
  let (negative, digits) := splitSign (lo < 0) s.toList
  if digits ≠ [] ∧ digits.all Char.isDigit then
    let m : Int := Nat.ofDigitChars 10 digits 0
    let n : Int := if negative then -m else m
    if lo ≤ n ∧ n < hi then some n else none
  else none

/-! ## Printed numbers -/

theorem isDigit_of_mem_toDigits {m : Nat} {c : Char} (h : c ∈ Nat.toDigits 10 m) :
    c.isDigit = true := Nat.isDigit_of_mem_toDigits (by omega) (by omega) h

theorem toDigits_all_isDigit (m : Nat) : (Nat.toDigits 10 m).all Char.isDigit = true := by
  rw [List.all_eq_true]
  intro c hc
  exact isDigit_of_mem_toDigits hc

/-- Digits are not mistaken for a sign. -/
theorem splitSign_toDigits (signed : Bool) (m : Nat) :
    splitSign signed (Nat.toDigits 10 m) = (false, Nat.toDigits 10 m) := by
  have hdigit : ∀ c ∈ Nat.toDigits 10 m, c.isDigit = true := fun c => isDigit_of_mem_toDigits
  generalize Nat.toDigits 10 m = cs at hdigit
  unfold splitSign
  split
  · exact absurd (hdigit '-' List.mem_cons_self) (by decide)
  · exact absurd (hdigit '+' List.mem_cons_self) (by decide)
  · rfl

theorem toList_toString_nat (m : Nat) : (toString m).toList = Nat.toDigits 10 m := Nat.toList_repr

theorem toList_toString_negSucc (m : Nat) :
    (toString (Int.negSucc m)).toList = '-' :: Nat.toDigits 10 (m + 1) := by
  show ("-" ++ Nat.repr (m + 1)).toList = _
  rw [String.toList_append, Nat.toList_repr]
  rfl

/-- A printed natural number is read if it is not too large, or too small. -/
theorem parse_toString_nat {lo hi : Int} (m : Nat) :
    parse lo hi (toString m) = if lo ≤ m ∧ m < hi then some (m : Int) else none := by
  have hvalue : ((Nat.ofDigitChars 10 (Nat.toDigits 10 m) 0 : Nat) : Int) = m := by
    rw [Nat.ofDigitChars_ten_toDigits]
  simp only [parse, toList_toString_nat, splitSign_toDigits, toDigits_all_isDigit, hvalue]
  exact if_pos ⟨Nat.toDigits_ne_nil, trivial⟩

/-- What was printed is read back. -/
theorem parse_toString {lo hi k : Int} (hlo : lo ≤ k) (hhi : k < hi) :
    parse lo hi (toString k) = some k := by
  cases k with
  | ofNat m =>
    have hparse : parse lo hi (toString m) = _ := parse_toString_nat m
    exact hparse.trans (if_pos ⟨hlo, hhi⟩)
  | negSucc m =>
    have hneg : lo < 0 := by omega
    have hvalue : -((Nat.ofDigitChars 10 (Nat.toDigits 10 (m + 1)) 0 : Nat) : Int) =
        Int.negSucc m := by
      rw [Nat.ofDigitChars_ten_toDigits]
      rfl
    simp only [parse, toList_toString_negSucc, splitSign, hneg, decide_true, if_true,
      toDigits_all_isDigit, hvalue]
    rw [if_pos ⟨Nat.toDigits_ne_nil, trivial⟩]
    exact if_pos ⟨hlo, hhi⟩

end Decimal
