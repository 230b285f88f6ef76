import Mathlib.Data.List.DropRight

/-!
# Prefixes and blanks

`str::strip_prefix` and `str::trim`, with what they take off: a text is its prefix and what is left
of it (`stripPrefix_eq_some`), and a text is the trimmed text between blanks (`exists_of_trim`).
-/

set_option autoImplicit false

namespace Text

/-- `str::as_bytes`. -/
def asBytes (s : String) : List UInt8 := s.toByteArray.data.toList

/-- What is left after the prefix, if the text begins with it. -/
def stripPrefix (pre s : String) : Option String :=
  (pre.toList.isPrefixOf? s.toList).map String.ofList

/-- The characters with the property `White_Space`. -/
def isWhitespace (c : Char) : Bool :=
  let n := c.toNat
  (0x09 ≤ n ∧ n ≤ 0x0D) ∨ n = 0x20 ∨ n = 0x85 ∨ n = 0xA0 ∨ n = 0x1680 ∨ (0x2000 ≤ n ∧ n ≤ 0x200A) ∨
    n = 0x2028 ∨ n = 0x2029 ∨ n = 0x202F ∨ n = 0x205F ∨ n = 0x3000

/-- Without the blanks at both ends. -/
def trim (s : String) : String :=
  String.ofList ((s.toList.dropWhile isWhitespace).rdropWhile isWhitespace)

/-- `str::trim_matches`: without the characters of a kind at both ends. -/
def trimMatches (p : Char → Bool) (s : String) : String :=
  String.ofList ((s.toList.dropWhile p).rdropWhile p)

theorem asBytes_ofList (l : List Char) :
    asBytes (String.ofList l) = l.flatMap String.utf8EncodeChar := by
  simp [asBytes, List.utf8Encode]

theorem utf8EncodeChar_ofNat :
    ∀ n < 128, String.utf8EncodeChar (Char.ofNat n) = [UInt8.ofNat n] := by
  decide

theorem toNat_ofNat_of_ascii : ∀ n < 128, (Char.ofNat n).toNat = n := by
  decide

/-- The bytes of a text in ASCII are the numbers of its characters. -/
theorem asBytes_of_ascii {s : String} (h : ∀ c ∈ s.toList, c.toNat < 128) :
    asBytes s = s.toList.map fun c => UInt8.ofNat c.toNat := by
  have hbytes := asBytes_ofList s.toList
  rw [String.ofList_toList] at hbytes
  rw [hbytes, List.map_eq_flatMap]
  refine List.flatMap_congr fun c hc => ?_
  rw [← utf8EncodeChar_ofNat c.toNat (h c hc), Char.ofNat_toNat]

/-- And bytes below 128 are the bytes of such a text. -/
theorem asBytes_ofList_map {v : List UInt8} (h : ∀ b ∈ v, b.toNat < 128) :
    asBytes (String.ofList (v.map fun b => Char.ofNat b.toNat)) = v := by
  rw [asBytes_ofList, List.flatMap_map]
  refine Eq.trans (List.flatMap_congr fun b hb => ?_) (List.flatMap_singleton' v)
  rw [utf8EncodeChar_ofNat b.toNat (h b hb), UInt8.ofNat_toNat]

theorem stripPrefix_eq_some {pre s t : String} :
    stripPrefix pre s = some t ↔ s.toList = pre.toList ++ t.toList := by
  simp only [stripPrefix, Option.map_eq_some_iff, List.isPrefixOf?_eq_some_iff_append_eq]
  constructor
  · intro hyp
    obtain ⟨l, happ, ht⟩ := hyp
    rw [← ht, String.toList_ofList, happ]
  · intro h
    exact ⟨t.toList, h.symm, String.ofList_toList⟩

/-- Only blanks are taken off. -/
theorem exists_of_trim (s : String) : ∃ l r, s.toList = l ++ (trim s).toList ++ r ∧
    (∀ c ∈ l, isWhitespace c = true) ∧ ∀ c ∈ r, isWhitespace c = true := by
  refine ⟨s.toList.takeWhile isWhitespace,
    (s.toList.dropWhile isWhitespace).rtakeWhile isWhitespace, ?_, ?_, ?_⟩
  · rw [trim, String.toList_ofList, List.append_assoc, List.rdropWhile, List.rtakeWhile,
      ← List.reverse_append, List.takeWhile_append_dropWhile, List.reverse_reverse,
      List.takeWhile_append_dropWhile]
  · exact fun c hc => List.mem_takeWhile_imp hc
  · exact fun c hc => List.mem_rtakeWhile_imp hc

/-- A text without blanks is all that is left between blanks. -/
theorem trim_of_padded {s t : String} {l r : List Char} (hs : s.toList = l ++ t.toList ++ r)
    (hl : ∀ c ∈ l, isWhitespace c = true) (hr : ∀ c ∈ r, isWhitespace c = true)
    (ht : ∀ c ∈ t.toList, isWhitespace c = false) : trim s = t := by
  have hfront : s.toList.dropWhile isWhitespace = (t.toList ++ r).dropWhile isWhitespace := by
    rw [hs, List.append_assoc, List.dropWhile_append_of_pos hl]
  rw [trim, hfront]
  cases hcs : t.toList with
  | nil =>
    have hnone : r.dropWhile isWhitespace = [] := List.dropWhile_eq_nil_iff.mpr hr
    rw [List.nil_append, hnone, List.rdropWhile_nil, ← hcs, String.ofList_toList]
  | cons c cs =>
    rw [hcs] at ht
    have hc : ¬ isWhitespace c = true := by simp [ht c List.mem_cons_self]
    have hback : ((c :: cs).reverse).dropWhile isWhitespace = (c :: cs).reverse := by
      rw [List.dropWhile_eq_self_iff]
      intro hne
      simp only [Bool.not_eq_true]
      exact ht _ (List.mem_reverse.mp (List.getElem_mem hne))
    rw [List.cons_append, List.dropWhile_cons_of_neg hc, ← List.cons_append, List.rdropWhile,
      List.reverse_append, List.dropWhile_append_of_pos (fun a ha => hr a (List.mem_reverse.mp ha)),
      hback, List.reverse_reverse, ← hcs, String.ofList_toList]

end Text
