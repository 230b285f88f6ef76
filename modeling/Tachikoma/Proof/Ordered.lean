import Tachikoma.Proof.Statements

/-!
# What `ORDER BY` orders by

The comparisons of the model are written as the columns are listed in the source. To call an answer
*sorted* they have to be transitive, and for `inet` this is not plain to see: how many bits of two
addresses are compared first depends on **both** of them. `IpNetwork.cmp_eq` says it without that:
the family, the address with its host part cleared, the length of the network part, the address.
-/

set_option autoImplicit false

namespace Tachikoma

open Unordered

/-! ## Addresses -/

/-- The address with its host part cleared. -/
def IpNetwork.network (a : IpNetwork) : Nat :=
  let host := (if a.v6 then 128 else 32) - a.bits
  a.addr / 2 ^ host * 2 ^ host

/-- Clearing more bits leaves no more. -/
theorem floor_anti {k k' : Nat} (h : k ≤ k') (n : Nat) :
    n / 2 ^ k' * 2 ^ k' ≤ n / 2 ^ k * 2 ^ k := by
  obtain ⟨j, rfl⟩ := Nat.exists_eq_add_of_le h
  have hdiv : n / 2 ^ (k + j) = n / 2 ^ k / 2 ^ j := by rw [Nat.pow_add, Nat.div_div_eq_div_mul]
  have hpow : 2 ^ (k + j) = 2 ^ j * 2 ^ k := by rw [Nat.pow_add, Nat.mul_comm]
  calc n / 2 ^ (k + j) * 2 ^ (k + j)
      = n / 2 ^ k / 2 ^ j * 2 ^ j * 2 ^ k := by rw [hdiv, hpow, Nat.mul_assoc]
    _ ≤ n / 2 ^ k * 2 ^ k := Nat.mul_le_mul_right _ (Nat.div_mul_le_self _ _)

/-- Where two addresses differ in their first bits, so do their networks, and the same way. -/
theorem floor_lt {k k' m n : Nat} (h : m / 2 ^ k' < n / 2 ^ k') (hk : k ≤ k') (j : Nat) :
    m / 2 ^ j * 2 ^ j < n / 2 ^ k * 2 ^ k := by
  calc m / 2 ^ j * 2 ^ j
      ≤ m := Nat.div_mul_le_self _ _
    _ < n / 2 ^ k' * 2 ^ k' := Nat.lt_mul_of_div_lt h (Nat.two_pow_pos _)
    _ ≤ n / 2 ^ k * 2 ^ k := floor_anti hk n

/-- The same comparison of two addresses, column by column. -/
def IpNetwork.cmpColumns : IpNetwork → IpNetwork → Ordering :=
  compareLex (compareOn (·.v6)) <| compareLex (compareOn (·.network)) <|
    compareLex (compareOn (·.bits)) (compareOn (·.addr))

theorem IpNetwork.cmp_eq (a b : IpNetwork) : a.cmp b = a.cmpColumns b := by
  simp only [cmp, cmpColumns, compareLex, compareOn]
  cases hv : compare a.v6 b.v6 with
  | lt => rfl
  | gt => rfl
  | eq =>
    have hv6 : a.v6 = b.v6 := Std.LawfulEqCmp.eq_of_compare hv
    simp only [Ordering.then, network, ← hv6]
    generalize hW : (if a.v6 then 128 else 32) = W
    -- What the two addresses share of their networks is compared first.
    cases hshared : compare (a.addr / 2 ^ (W - min a.bits b.bits))
        (b.addr / 2 ^ (W - min a.bits b.bits)) with
    | lt =>
      have hlt := floor_lt (Nat.compare_eq_lt.mp hshared)
        (show W - b.bits ≤ W - min a.bits b.bits by omega) (W - a.bits)
      rw [Nat.compare_eq_lt.mpr hlt]
    | gt =>
      have hlt := floor_lt (Nat.compare_eq_gt.mp hshared)
        (show W - a.bits ≤ W - min a.bits b.bits by omega) (W - b.bits)
      rw [Nat.compare_eq_gt.mpr hlt]
    | eq =>
      -- Then the shorter network is the smaller one, or its host bits are all there is.
      have heq := Nat.compare_eq_eq.mp hshared
      rcases Nat.lt_trichotomy a.bits b.bits with hlt | hbits | hgt
      · rw [Nat.min_eq_left hlt.le] at heq
        have hle := floor_anti (show W - b.bits ≤ W - a.bits by omega) b.addr
        rw [← heq] at hle
        rw [Nat.compare_eq_lt.mpr hlt]
        rcases hle.lt_or_eq with hnet | hnet
        · rw [Nat.compare_eq_lt.mpr hnet]
        · rw [Nat.compare_eq_eq.mpr hnet]
      · rw [← hbits, Nat.min_self] at heq
        simp only [← hbits, heq, Nat.compare_eq_eq.mpr]
      · rw [Nat.min_eq_right hgt.le] at heq
        have hle := floor_anti (show W - a.bits ≤ W - b.bits by omega) a.addr
        rw [heq] at hle
        rw [Nat.compare_eq_gt.mpr hgt]
        rcases hle.lt_or_eq with hnet | hnet
        · rw [Nat.compare_eq_gt.mpr hnet]
        · rw [Nat.compare_eq_eq.mpr hnet.symm]

instance : Std.TransCmp IpNetwork.cmp := by
  have h : IpNetwork.cmp = IpNetwork.cmpColumns := funext fun a => funext fun b => a.cmp_eq b
  rw [h]
  unfold IpNetwork.cmpColumns
  infer_instance

/-! ## Answers -/

/-- A nullable column by what is in it, the rows with nothing in it last. -/
theorem cmpNullable_eq (a b : Option Time) :
    cmpNullable a b = compareLex (compareOn Option.isNone) (compareOn (·.getD 0)) a b := by
  cases a <;> cases b <;> rfl

instance : Std.TransCmp cmpNullable := by
  have h : cmpNullable = _ := funext fun a => funext fun b => cmpNullable_eq a b
  rw [h]
  infer_instance

/-- A comparison by something that is compared in a transitive way. -/
theorem transCmp_by {α β : Type} (cmp : β → β → Ordering) [Std.TransCmp cmp] (f : α → β) :
    Std.TransCmp fun a b => cmp (f a) (f b) where
  eq_swap := Std.OrientedCmp.eq_swap
  isLE_trans := Std.TransCmp.isLE_trans

instance : Std.TransCmp cmpDeadline := by
  have := transCmp_by cmpNullable fun r : Host × User => r.1.leasedUntil
  have := transCmp_by IpNetwork.cmp fun r : Host × User => r.1.ipAddress
  have h : cmpDeadline = compareLex (fun a b => cmpNullable a.1.leasedUntil b.1.leasedUntil)
      fun a b => a.1.ipAddress.cmp b.1.ipAddress := rfl
  rw [h]
  infer_instance

/-- An answer with an `ORDER BY` is sorted. -/
theorem orderBy_sorted {α : Type} (cmp : α → α → Ordering) [Std.TransCmp cmp] (order : List Nat)
    (rows : List α) : (orderBy cmp order rows).Pairwise fun a b => cmp a b ≠ .gt := by
  have hle : ∀ a b : α, cmp a b ≠ .gt ↔ (cmp a b).isLE := fun a b => by cases cmp a b <;> decide
  have htotal : Std.Total fun a b : α => cmp a b ≠ .gt := ⟨fun a b => by
    have hswap : cmp b a = (cmp a b).swap := Std.OrientedCmp.eq_swap
    rw [hswap]
    cases cmp a b <;> decide⟩
  have htrans : IsTrans α fun a b : α => cmp a b ≠ .gt := ⟨fun a b c hab hbc =>
    (hle a c).mpr (Std.TransCmp.isLE_trans ((hle a b).mp hab) ((hle b c).mp hbc))⟩
  exact List.pairwise_insertionSort _ _

/-- `ORDER BY hosts.leased_until, hosts.ip_address ASC`, of decoded rows. -/
def LeasedHost.cmpDeadline (a b : LeasedHost) : Ordering :=
  (compare a.leasedUntil b.leasedUntil).then (a.ipAddress.cmp b.ipAddress)

/-- Decoding keeps the order of the rows. -/
theorem decodeAll_sorted {rs : List (Host × User)} {ls : List LeasedHost}
    (h : decodeAll rs = .ok ls) (hrs : rs.Pairwise fun a b => Tachikoma.cmpDeadline a b ≠ .gt) :
    ls.Pairwise fun a b => a.cmpDeadline b ≠ .gt := by
  have hcmp : ∀ {r r' : Host × User} {l l' : LeasedHost}, LeasedHost.ofRow r = .ok l →
      LeasedHost.ofRow r' = .ok l' → l.cmpDeadline l' = Tachikoma.cmpDeadline r r' := by
    intro r r' l l' hl hl'
    obtain ⟨-, -, hip, huntil, -⟩ := LeasedHost.ofRow_ok.mp hl
    obtain ⟨-, -, hip', huntil', -⟩ := LeasedHost.ofRow_ok.mp hl'
    simp only [LeasedHost.cmpDeadline, Tachikoma.cmpDeadline, huntil, huntil', hip, hip',
      cmpNullable]
  rw [decodeAll_ok] at h
  induction h with
  | nil => exact .nil
  | @cons r l rs ls hr hrows ih =>
    obtain ⟨hhead, htail⟩ := List.pairwise_cons.mp hrs
    refine List.pairwise_cons.mpr ⟨fun l' hl' => ?_, ih htail⟩
    obtain ⟨r', hr', hrow'⟩ := (mem_of_decodeAll (decodeAll_ok.mpr hrows)).mp hl'
    rw [hcmp hr hrow']
    exact hhead r' hr'

theorem getLeasedHosts_sorted {order : List Nat} {v : View} {userId : UserId}
    {ls : List LeasedHost} (h : Select.run order v (.getLeasedHosts userId) = .ok ls) :
    ls.Pairwise fun a b => a.cmpDeadline b ≠ .gt :=
  decodeAll_sorted h (orderBy_sorted _ _ _)

end Tachikoma
