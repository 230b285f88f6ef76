import Mathlib

/-!
# Reading and writing JSON values

What a derived `Serialize` writes and what a derived `Deserialize` reads back, at the level of JSON
values. A type that has both is a **codec**; a type that is only read has a decoder.

* A new type around one value is written as that value.
* An optional value is written as the value, or as `null`.
* A record is written as a map of its fields. It is read from a map, in any order, with fields of
  other names left aside and a field that stands twice refused; or from a sequence of all its
  fields.
* `try_from` replaces the reader of a type by that of a string and a conversion. *It does not touch
  the writer*, and nothing in the format ties the two together; whether a value **round-trips** is
  a fact about the pair.

Which of several errors is reported first is the one thing not kept here.
-/

set_option autoImplicit false

namespace Serde

inductive Json where
  | null
  | bool (b : Bool)
  | int (n : Int)
  /-- A number that is no integer, as it is written. -/
  | float (text : String)
  | string (s : String)
  | array (vs : List Json)
  | object (entries : List (String × Json))

inductive DecodeError where
  | invalidType
  | invalidValue
  | invalidLength
  | missingField (name : String)
  | duplicateField (name : String)
  | custom (msg : String)
  deriving DecidableEq

abbrev Decoder (α : Type) : Type := Json → Except DecodeError α

variable {α β : Type}

/-- What is read after something else: both are read, or the whole is refused. -/
theorem exists_of_bind_eq_ok {x : Except DecodeError α} {f : α → Except DecodeError β} {b : β}
    (h : x >>= f = .ok b) : ∃ a, x = .ok a ∧ f a = .ok b := by
  cases x with
  | ok a => exact ⟨a, rfl, h⟩
  | error e => cases h

@[simp] theorem ok_bind (a : α) (f : α → Except DecodeError β) : (Except.ok a >>= f) = f a := rfl

@[simp] theorem error_bind (e : DecodeError) (f : α → Except DecodeError β) :
    (Except.error e >>= f) = .error e := rfl

/-- A type that is written and read. Nothing that is not optional is written as `null`. -/
structure Codec (α : Type) where
  encode : α → Json
  decode : Decoder α
  encode_ne_null : ∀ a, encode a ≠ .null

/-- What is written is read back. -/
def Codec.RoundTrips (c : Codec α) (a : α) : Prop := c.decode (c.encode a) = .ok a

/-! ## Scalars, optional values, sequences -/

def decodeString : Decoder String
  | .string s => .ok s
  | _ => .error .invalidType

def string : Codec String := ⟨.string, decodeString, fun _ => nofun⟩

theorem string_roundTrips (s : String) : string.RoundTrips s := rfl

/-- An integer of a type that holds those from `lo` up to, and not including, `hi`. -/
def decodeInt (lo hi : Int) : Decoder Int
  | .int n => if lo ≤ n ∧ n < hi then .ok n else .error .invalidValue
  | _ => .error .invalidType

def decodeU8 : Decoder UInt8 := fun v => (decodeInt 0 256 v).map fun n => UInt8.ofNat n.toNat

def decodeI32 : Decoder Int32 := fun v => (decodeInt (-2 ^ 31) (2 ^ 31) v).map Int32.ofInt

def i32 : Codec Int32 := ⟨fun n => .int n.toInt, decodeI32, fun _ => nofun⟩

theorem i32_roundTrips (n : Int32) : i32.RoundTrips n := by
  have hlo : -2 ^ 31 ≤ n.toInt := n.le_toInt
  have hhi : n.toInt < 2 ^ 31 := n.toInt_lt
  show decodeI32 (.int n.toInt) = .ok n
  rw [decodeI32, decodeInt, if_pos ⟨hlo, hhi⟩]
  show Except.ok (Int32.ofInt n.toInt) = _
  rw [Int32.ofInt_toInt]

def encodeOption (c : Codec α) : Option α → Json
  | none => .null
  | some a => c.encode a

def decodeOption (d : Decoder α) : Decoder (Option α)
  | .null => .ok none
  | v => (d v).map some

theorem decodeOption_encodeOption {c : Codec α} {a : Option α} (h : ∀ b ∈ a, c.RoundTrips b) :
    decodeOption c.decode (encodeOption c a) = .ok a := by
  cases a with
  | none => rfl
  | some b =>
    have hne := c.encode_ne_null b
    have hb : c.decode (c.encode b) = .ok b := h b rfl
    show decodeOption c.decode (c.encode b) = _
    unfold decodeOption
    split
    · rename_i heq
      exact absurd heq hne
    · rw [hb]
      rfl

/-- The elements of a sequence, up to the first that is refused. -/
def decodeElements (d : Decoder α) : List Json → Except DecodeError (List α)
  | [] => .ok []
  | v :: vs => do
    let a ← d v
    let rest ← decodeElements d vs
    return a :: rest

def decodeVec (d : Decoder α) : Decoder (List α)
  | .array vs => decodeElements d vs
  | _ => .error .invalidType

/-- A sequence of values each of which is refused is accepted only when it is empty. -/
theorem decodeElements_eq_ok_iff {d : Decoder α} {vs : List Json} {as : List α}
    (h : ∀ v ∈ vs, ∃ e, d v = .error e) : decodeElements d vs = .ok as ↔ vs = [] ∧ as = [] := by
  cases vs with
  | nil => simp [decodeElements, eq_comm]
  | cons v vs =>
    obtain ⟨e, he⟩ := h v List.mem_cons_self
    rw [decodeElements, he]
    show Except.error e = .ok as ↔ _
    simp

theorem decodeElements_map {d : Decoder α} {f : α → Json} {as : List α}
    (h : ∀ a ∈ as, d (f a) = .ok a) : decodeElements d (as.map f) = .ok as := by
  induction as with
  | nil => rfl
  | cons a as ih =>
    rw [List.map_cons, decodeElements, h a List.mem_cons_self,
      ih fun b hb => h b (List.mem_cons_of_mem a hb)]
    rfl

/-- `#[serde(try_from = "String")]`. -/
def viaString (convert : String → Except String α) : Decoder α := fun v => do
  let s ← decodeString v
  match convert s with
  | .ok a => .ok a
  | .error msg => .error (.custom msg)

theorem viaString_string {convert : String → Except String α} {s : String} {a : α}
    (h : convert s = .ok a) : viaString convert (.string s) = .ok a := by
  show (match convert s with
    | .ok a => Except.ok a
    | .error msg => .error (DecodeError.custom msg)) = _
  rw [h]

/-! ## Records -/

abbrev Entries : Type := List (String × Json)

/-- The entries of a record with the fields `names`. -/
def entriesOf (names : List String) : Json → Except DecodeError Entries
  | .object entries => .ok entries
  | .array vs => if vs.length = names.length then .ok (names.zip vs) else .error .invalidLength
  | _ => .error .invalidType

/-- A reader of records: what it makes of the entries. -/
def record (names : List String) (read : Entries → Except DecodeError α) : Decoder α := fun v => do
  let entries ← entriesOf names v
  read entries

/-- The value of an entry, if there is one. -/
def valueAt? (name : String) (entries : Entries) : Except DecodeError (Option Json) :=
  match entries.filter (fun entry => entry.1 = name) with
  | [] => .ok none
  | [entry] => .ok (some entry.2)
  | _ => .error (.duplicateField name)

/-- A field that has to be there. -/
def field (d : Decoder α) (name : String) (entries : Entries) : Except DecodeError α := do
  match ← valueAt? name entries with
  | some v => d v
  | none => .error (.missingField name)

/-- A field of an optional type, which may be left out. -/
def optionField (d : Decoder α) (name : String) (entries : Entries) :
    Except DecodeError (Option α) := do
  match ← valueAt? name entries with
  | some v => decodeOption d v
  | none => return none

/-- `#[serde(default)]`. -/
def defaultField (a : α) (d : Decoder α) (name : String) (entries : Entries) :
    Except DecodeError α := do
  match ← valueAt? name entries with
  | some v => d v
  | none => return a

/-- The value that a map has under a name. -/
def Json.get? (j : Json) (name : String) : Option Json :=
  match j with
  | .object entries => (entries.find? fun entry => entry.1 = name).map Prod.snd
  | _ => none

/-- A map with another value under a name. -/
def Json.set (j : Json) (name : String) (v : Json) : Json :=
  match j with
  | .object entries => .object (entries.map fun entry =>
      if entry.1 = name then (name, v) else entry)
  | j => j

variable {name other : String} {v : Json} {entries : Entries}

@[simp] theorem valueAt?_nil : valueAt? name [] = .ok none := rfl

theorem valueAt?_cons_self (h : name ∉ entries.map Prod.fst) :
    valueAt? name ((name, v) :: entries) = .ok (some v) := by
  have hnone : entries.filter (fun entry => decide (entry.1 = name)) = [] := by
    rw [List.filter_eq_nil_iff]
    intro entry hentry hname
    exact h (List.mem_map.mpr ⟨entry, hentry, of_decide_eq_true hname⟩)
  simp [valueAt?, hnone]

theorem field_of_entry {d : Decoder α} (h : valueAt? name entries = .ok (some v)) :
    field d name entries = d v := by
  rw [field, h]
  rfl

theorem defaultField_of_entry {a : α} {d : Decoder α} (h : valueAt? name entries = .ok (some v)) :
    defaultField a d name entries = d v := by
  rw [defaultField, h]
  rfl

end Serde
