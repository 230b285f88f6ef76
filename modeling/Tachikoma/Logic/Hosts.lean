import Tachikoma.Db.Tx

/-!
# Leasing and freeing (`src/logic/hosts.rs`)

A `HashSet` is a list without duplicates; its order shows only where the source iterates it.
-/

set_option autoImplicit false

namespace Tachikoma

open Unordered

inductive HostError where
  | databaseError (e : SqlxError)
  | thereIsNoFreeHosts
  | alreadyLeased (hostsIds : List HostId)
  | leaseLimit
  /-- An `anyhow::Error`; the one that arises is a database error in `get_lease_limit`. -/
  | unexpectedError (e : SqlxError)
  deriving DecidableEq, Repr

structure HostsService where
  leaseLimit : Nat
  deriving DecidableEq

namespace HostsService

/-- `i32::try_into::<usize>()`. -/
def toUsize (limit : Int) : Option Nat := if 0 ≤ limit then some limit.toNat else none

/-- The limit that the rows of `lease_limits_by_ad_group` give; `none` is the panic of
    `try_into().unwrap()`. -/
def limitOf (self : HostsService) (groupsLimits : List AdGroupLeaseLimit) : Option Nat :=
  (groupsLimits.mapM fun gl => toUsize gl.limit).map fun limits => limits.max?.getD self.leaseLimit

def getLeaseLimit (self : HostsService) (tx : RegistryTx) (groups : List String) :
    Task SqlxError Nat := do
  let groupsLimits ← tx.getAdGroupsLeaseLimits groups
  match self.limitOf groupsLimits with
  | some limit => return limit
  | none => Task.panic "called `Result::unwrap()` on an `Err` value"

def getAllHosts : Task HostError (List Host) :=
  withTx .databaseError fun tx => do
    let hosts ← tx.getAllHosts.mapErr .databaseError
    tx.commit.mapErr .databaseError
    return hosts

def lease (self : HostsService) (userId : UserId) (userGroups : List String)
    (hostsIds : List HostId) (leaseFor : TimeDelta) : Task HostError (List LeasedHost) :=
  withTx .databaseError fun tx => do
    let leased ← (tx.getLeasedHosts userId).mapErr .databaseError
    let leased := (leased.map (·.id)).dedup
    let hostsIdsSet := hostsIds.dedup
    let intersection := leased.filter (· ∈ hostsIdsSet)
    if intersection ≠ [] then do
      let order ← hashOrder
      Task.throw (.alreadyLeased (arrange order intersection))
    else do
      let leaseLimit ← (self.getLeaseLimit tx userGroups).mapErr .unexpectedError
      if leaseLimit < leased.length + hostsIdsSet.length then
        Task.throw .leaseLimit
      else do
        let now ← utcNow
        let untill ← addTimeDelta now leaseFor
        (tx.leaseHosts userId hostsIds untill).mapErr .databaseError
        let leased ← (tx.getLeasedHosts userId).mapErr .databaseError
        tx.commit.mapErr .databaseError
        return leased

def free (userId : UserId) (hostsIds : List HostId) : Task HostError Unit :=
  withTx .databaseError fun tx => do
    (tx.freeHostsForUser hostsIds userId).mapErr .databaseError
    tx.commit.mapErr .databaseError

def freeAll (userId : UserId) : Task HostError Unit :=
  withTx .databaseError fun tx => do
    (tx.freeAll userId).mapErr .databaseError
    tx.commit.mapErr .databaseError

def leaseRandom (self : HostsService) (userId : UserId) (userGroups : List String)
    (leaseFor : TimeDelta) (groupId : GroupId) : Task HostError LeasedHost :=
  withTx .databaseError fun tx => do
    let leaseLimit ← (self.getLeaseLimit tx userGroups).mapErr .unexpectedError
    let leased ← (tx.getLeasedHosts userId).mapErr .databaseError
    if leaseLimit ≤ leased.length then
      Task.throw .leaseLimit
    else do
      match ← (tx.getFirstAvailableGroupHost groupId).mapErr .databaseError with
      | some host => do
        let now ← utcNow
        let untill ← addTimeDelta now leaseFor
        (tx.leaseHosts userId [host.id] untill).mapErr .databaseError
        let leased ← (tx.getLeasedHost host.id).mapErr .databaseError
        tx.commit.mapErr .databaseError
        return leased
      | none => Task.throw .thereIsNoFreeHosts

end HostsService

end Tachikoma
