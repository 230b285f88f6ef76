import Tachikoma.Tokens

/-!
# What a header says

A header has a token in it exactly when it is `Bearer `, the token, and blanks around the token
(`bearerToken_eq_some`). Of the characters that `trim` takes off, only the space and the tab can
stand in a header that is read as text.
-/

set_option autoImplicit false

namespace Tachikoma

open Text

/-- A character of a header that is read as text. -/
def Visible (c : Char) : Prop := (32 ≤ c.toNat ∧ c.toNat < 127) ∨ c.toNat = 9

/-- A character of a token. -/
def Graphic (c : Char) : Prop := 33 ≤ c.toNat ∧ c.toNat < 127

/-- Spaces and tabs. -/
def Blank (s : String) : Prop := ∀ c ∈ s.toList, c = ' ' ∨ c = '\t'

theorem Graphic.visible {c : Char} (h : Graphic c) : Visible c :=
  .inl ⟨(Nat.le_succ 32).trans h.1, h.2⟩

theorem Graphic.not_isWhitespace {c : Char} (h : Graphic c) : isWhitespace c = false := by
  unfold Graphic at h
  simp only [isWhitespace, decide_eq_false_iff_not]
  omega

theorem visible_of_blank {c : Char} (h : c = ' ' ∨ c = '\t') : Visible c := by
  rcases h with rfl | rfl
  · exact .inl (by decide)
  · exact .inr rfl

theorem isWhitespace_of_blank {c : Char} (h : c = ' ' ∨ c = '\t') : isWhitespace c = true := by
  rcases h with rfl | rfl <;> rfl

theorem char_eq_of_toNat {c d : Char} (h : c.toNat = d.toNat) : c = d := by
  rw [← Char.ofNat_toNat c, h, Char.ofNat_toNat]

/-- Among the visible characters only two are taken off by `trim`. -/
theorem blank_of_isWhitespace {c : Char} (hv : Visible c) (hw : isWhitespace c = true) :
    c = ' ' ∨ c = '\t' := by
  simp only [isWhitespace, decide_eq_true_eq] at hw
  unfold Visible at hv
  have hcode : c.toNat = 32 ∨ c.toNat = 9 := by omega
  exact hcode.imp (fun h => char_eq_of_toNat h) fun h => char_eq_of_toNat h

/-- A header is read as text when it is the bytes of visible characters. -/
theorem headerToStr_eq_some {value : List UInt8} {s : String} :
    headerToStr value = some s ↔ value = asBytes s ∧ ∀ c ∈ s.toList, Visible c := by
  unfold headerToStr
  constructor
  · intro h
    split at h
    · rename_i hall
      obtain rfl := Option.some.inj h
      have hcode : ∀ b ∈ value, (32 ≤ b.toNat ∧ b.toNat < 127) ∨ b.toNat = 9 := by
        intro b hb
        have hb := of_decide_eq_true (List.all_eq_true.mp hall b hb)
        simpa [UInt8.le_iff_toNat_le, UInt8.lt_iff_toNat_lt, ← UInt8.toNat_inj] using hb
      refine ⟨(asBytes_ofList_map fun b hb => ?_).symm, fun c hc => ?_⟩
      · have := hcode b hb
        omega
      · rw [String.toList_ofList] at hc
        obtain ⟨b, hb, rfl⟩ := List.mem_map.mp hc
        have hb := hcode b hb
        rw [Visible, toNat_ofNat_of_ascii b.toNat (by omega)]
        exact hb
    · cases h
  · intro hyp
    obtain ⟨hvalue, hvisible⟩ := hyp
    -- Visible characters are ASCII, so each of them is one byte and comes back from it.
    have hascii : ∀ c ∈ s.toList, c.toNat < 128 := by
      intro c hc
      have := hvisible c hc
      unfold Visible at this
      omega
    have hbyte : ∀ c ∈ s.toList, (UInt8.ofNat c.toNat).toNat = c.toNat := by
      intro c hc
      have := hascii c hc
      rw [UInt8.toNat_ofNat']
      omega
    have hback : (s.toList.map fun c => UInt8.ofNat c.toNat).map (fun b => Char.ofNat b.toNat) =
        s.toList := by
      rw [List.map_map]
      conv_rhs => rw [← List.map_id s.toList]
      refine List.map_congr_left fun c hc => ?_
      show Char.ofNat (UInt8.ofNat c.toNat).toNat = c
      rw [hbyte c hc, Char.ofNat_toNat]
    rw [hvalue, asBytes_of_ascii hascii, hback, String.ofList_toList, if_pos]
    rw [List.all_eq_true]
    intro b hb
    obtain ⟨c, hc, rfl⟩ := List.mem_map.mp hb
    have hc' := hvisible c hc
    rw [Visible, ← hbyte c hc] at hc'
    simpa [UInt8.le_iff_toNat_le, UInt8.lt_iff_toNat_lt, ← UInt8.toNat_inj] using hc'

theorem bearerToken_some {value : List UInt8} {p : String} :
    bearerToken (some value) = some p ↔ ∃ header token, headerToStr value = some header ∧
      stripPrefix "Bearer " header = some token ∧ trim token = p ∧ p ≠ "" := by
  simp only [bearerToken, Option.bind_eq_bind, Option.bind_some, Option.bind_eq_some_iff]
  constructor
  · intro hyp
    obtain ⟨header, hheader, token, htoken, h⟩ := hyp
    by_cases hempty : trim token = ""
    · rw [if_pos hempty] at h
      cases h
    · rw [if_neg hempty] at h
      obtain rfl := Option.some.inj h
      exact ⟨header, token, hheader, htoken, rfl, hempty⟩
  · intro hyp
    obtain ⟨header, token, hheader, htoken, htrim, hempty⟩ := hyp
    refine ⟨header, hheader, token, htoken, ?_⟩
    rw [htrim, if_neg hempty]

/-- **What a header with a token in it looks like.** -/
theorem bearerToken_eq_some {authHeader : Option (List UInt8)} {p : String} (hne : p ≠ "")
    (hp : ∀ c ∈ p.toList, Graphic c) :
    bearerToken authHeader = some p ↔ ∃ l r, Blank l ∧ Blank r ∧
      authHeader = some (asBytes ("Bearer " ++ l ++ p ++ r)) := by
  have hprefix : ∀ c ∈ "Bearer ".toList, Visible c := by
    have hall : "Bearer ".toList.all (fun c => 32 ≤ c.toNat ∧ c.toNat < 127) = true := by decide
    exact fun c hc => .inl (of_decide_eq_true (List.all_eq_true.mp hall c hc))
  constructor
  · intro h
    cases authHeader with
    | none => cases h
    | some value =>
      -- What was trimmed off is white space, and all that a header has of it are blanks and tabs.
      obtain ⟨header, token, hheader, htoken, rfl, -⟩ := bearerToken_some.mp h
      obtain ⟨rfl, hvisible⟩ := headerToStr_eq_some.mp hheader
      have hparts := stripPrefix_eq_some.mp htoken
      obtain ⟨l, r, hpad, hl, hr⟩ := exists_of_trim token
      rw [hpad] at hparts
      have hseen : ∀ c ∈ l ++ (trim token).toList ++ r, Visible c := fun c hc =>
        hvisible c (hparts ▸ List.mem_append_right _ hc)
      refine ⟨String.ofList l, String.ofList r, fun c hc => ?_, fun c hc => ?_, ?_⟩
      · rw [String.toList_ofList] at hc
        exact blank_of_isWhitespace (hseen c (by simp [hc])) (hl c hc)
      · rw [String.toList_ofList] at hc
        exact blank_of_isWhitespace (hseen c (by simp [hc])) (hr c hc)
      · congr 2
        apply String.toList_inj.mp
        simpa using hparts
  · intro hyp
    obtain ⟨l, r, hl, hr, hheader⟩ := hyp
    subst hheader
    refine bearerToken_some.mpr ⟨"Bearer " ++ l ++ p ++ r, l ++ p ++ r, ?_, ?_, ?_, hne⟩
    · refine headerToStr_eq_some.mpr ⟨rfl, fun c hc => ?_⟩
      simp only [String.toList_append, List.mem_append] at hc
      rcases hc with ((hc | hc) | hc) | hc
      · exact hprefix c hc
      · exact visible_of_blank (hl c hc)
      · exact (hp c hc).visible
      · exact visible_of_blank (hr c hc)
    · refine stripPrefix_eq_some.mpr ?_
      simp only [String.toList_append, List.append_assoc]
    · refine trim_of_padded (by simp only [String.toList_append])
        (fun c hc => isWhitespace_of_blank (hl c hc)) (fun c hc => isWhitespace_of_blank (hr c hc))
        fun c hc => (hp c hc).not_isWhitespace

/-! ## Plaintexts -/

theorem graphic_tokenPlaintext (bytes : Vector UInt8 32) :
    ∀ c ∈ (tokenPlaintext bytes).toList, Graphic c := by
  have hdigits : Hex.digits.all (fun c => 33 ≤ c.toNat ∧ c.toNat < 127) = true := by decide
  have hprefix : "tk_".toList.all (fun c => 33 ≤ c.toNat ∧ c.toNat < 127) = true := by decide
  intro c hc
  rw [tokenPlaintext, String.toList_append, List.mem_append] at hc
  rcases hc with hc | hc
  · have hcode := List.all_eq_true.mp hprefix c hc
    simpa [Graphic] using hcode
  · have hcode := List.all_eq_true.mp hdigits c (Hex.mem_encode hc)
    simpa [Graphic] using hcode

theorem tokenPlaintext_ne_empty (bytes : Vector UInt8 32) : tokenPlaintext bytes ≠ "" := by
  intro h
  have hlist := congrArg String.toList h
  simp [tokenPlaintext] at hlist

end Tachikoma
