/-!
# Bytes written in hexadecimal

Two digits a byte, in lower case (`{:02x}`). Nothing is lost (`encode_injective`), and nothing but
digits is written (`mem_encode`).
-/

set_option autoImplicit false

namespace Hex

def ofByte (b : UInt8) : List Char := [Nat.digitChar (b.toNat / 16), Nat.digitChar (b.toNat % 16)]

def encode (bytes : List UInt8) : String := String.ofList (bytes.flatMap ofByte)

def digits : List Char := "0123456789abcdef".toList

theorem digitChar_injective : ∀ m < 16, ∀ n < 16, Nat.digitChar m = Nat.digitChar n → m = n := by
  decide

theorem digitChar_mem : ∀ n < 16, Nat.digitChar n ∈ digits := by
  decide

theorem ofByte_injective {a b : UInt8} (h : ofByte a = ofByte b) : a = b := by
  have ha := a.toNat_lt
  have hb := b.toNat_lt
  simp only [ofByte, List.cons.injEq, and_true] at h
  have hhigh := digitChar_injective _ (by omega) _ (by omega) h.1
  have hlow := digitChar_injective _ (by omega) _ (by omega) h.2
  exact UInt8.toNat_inj.mp (by omega)

theorem flatMap_ofByte_injective {as bs : List UInt8} (h : as.flatMap ofByte = bs.flatMap ofByte) :
    as = bs := by
  induction as generalizing bs with
  | nil =>
    cases bs with
    | nil => rfl
    | cons b bs => simp [ofByte] at h
  | cons a as ih =>
    cases bs with
    | nil => simp [ofByte] at h
    | cons b bs =>
      rw [List.flatMap_cons, List.flatMap_cons] at h
      obtain ⟨hbyte, hrest⟩ := List.append_inj h rfl
      rw [ofByte_injective hbyte, ih hrest]

theorem encode_injective {as bs : List UInt8} (h : encode as = encode bs) : as = bs :=
  flatMap_ofByte_injective (String.ofList_injective h)

theorem mem_encode {bytes : List UInt8} {c : Char} (h : c ∈ (encode bytes).toList) :
    c ∈ digits := by
  rw [encode, String.toList_ofList, List.mem_flatMap] at h
  obtain ⟨b, -, hc⟩ := h
  have hb := b.toNat_lt
  rcases List.mem_cons.mp hc with rfl | hc
  · exact digitChar_mem _ (by omega)
  · obtain rfl := List.mem_singleton.mp hc
    exact digitChar_mem _ (by omega)

end Hex
