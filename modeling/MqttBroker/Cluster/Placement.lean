-- Which nodes hold the copies of a placement group (`hrw.rs`, `placement.rs`):
-- the owner of its lease first, then the nodes of the highest weight. A
-- narrower set is a prefix of a wider one.
import MqttBroker.Cluster.Quorum
import Mathlib.Data.List.Sort

namespace mqtt_cluster

open cluster_log

/-! ## Rendezvous hashing -/

namespace hrw

def weight (node : NodeId) (key : Bytes) : UInt64 :=
  mix64 (fnv1a (fnv1a FNV_OFFSET (as_bytes node)) key)

/-- `a` comes before `b`: a higher weight, or the larger id of the same weight. -/
def Before (key : Bytes) (a b : NodeId) : Prop :=
  weight b key < weight a key ∨ weight a key = weight b key ∧ b ≤ a

instance (key : Bytes) (a b : NodeId) : Decidable (Before key a b) :=
  inferInstanceAs (Decidable (_ ∨ _))

def owner (key : Bytes) (nodes : List NodeId) : Option NodeId :=
  nodes.foldl (fun best n => match best with
    | none => some n
    | some b => if Before key n b then some n else some b) none

/-- Up to `r` nodes, highest weight first. -/
def replica_set (key : Bytes) (nodes : List NodeId) (r : Nat) : List NodeId :=
  (nodes.insertionSort (Before key)).take r

end hrw

/-! ## The ring -/

namespace placement

def group_key (group : GroupId) : String := "group/" ++ toString group

/-- What a node knows of the members, the lease voters and the leases. -/
structure Placement where
  node : NodeId
  eligible : BTreeSet NodeId
  voters : BTreeSet NodeId := ∅
  lease_owners : BTreeMap GroupId NodeId := ∅
  replicas : Nat
  jointPrefix : Option Nat := none

namespace Placement

def members (p : Placement) : List NodeId := p.eligible.toList

def owner_over (p : Placement) (group : GroupId) (nodes : List NodeId) : NodeId :=
  let voter_pool := if p.voters.isEmpty then [] else nodes.filter (fun n => p.voters.contains n)
  let pool := if voter_pool.isEmpty then nodes else voter_pool
  (hrw.owner (as_bytes (group_key group)) pool).getD p.node

def hrw_owner (p : Placement) (group : GroupId) : NodeId := p.owner_over group p.members

/-- The holder of the lease while it is a member, else the owner by weight. -/
def group_owner (p : Placement) (group : GroupId) : NodeId :=
  (p.lease_owners[group]?.filter (fun holder => p.eligible.contains holder)).getD
    (p.hrw_owner group)

def owner_led_set_of_width (group : GroupId) (nodes : List NodeId) (owner : NodeId) (width : Nat) :
    List NodeId :=
  let set := hrw.replica_set (as_bytes (group_key group)) nodes width
  (owner :: set.filter (fun n => n ≠ owner)).take (max width 1)

def group_replica_set (p : Placement) (group : GroupId) : List NodeId :=
  owner_led_set_of_width group p.members (p.group_owner group) p.replicas

/-- The set that the group will have without the leaving node, led by its owner by weight. -/
def group_replica_set_without (p : Placement) (group : GroupId) (leaving : NodeId) : List NodeId :=
  let nodes := p.members.filter (fun n => n ≠ leaving)
  owner_led_set_of_width group nodes (p.owner_over group nodes) p.replicas

/-! ## The sets -/

theorem members_nodup (p : Placement) : p.members.Nodup := by
  have h := p.eligible.distinct_toList
  apply h.imp
  intro a b hab heq
  exact hab (by rw [heq]; exact Std.ReflCmp.compare_self)

theorem owner_led_set_nodup (group : GroupId) {nodes : List NodeId} (hn : nodes.Nodup)
    (owner : NodeId) (width : Nat) : (owner_led_set_of_width group nodes owner width).Nodup := by
  have hset : (hrw.replica_set (as_bytes (group_key group)) nodes width).Nodup := by
    have hsort : (nodes.insertionSort (hrw.Before (as_bytes (group_key group)))).Nodup :=
      (List.perm_insertionSort _ nodes).nodup_iff.mpr hn
    exact hsort.sublist (List.take_sublist _ _)
  have hfull : (owner :: (hrw.replica_set (as_bytes (group_key group)) nodes width).filter
      (fun n => n ≠ owner)).Nodup := by
    rw [List.nodup_cons]
    exact ⟨by simp, hset.filter _⟩
  exact hfull.sublist (List.take_sublist _ _)

theorem group_replica_set_nodup (p : Placement) (group : GroupId) :
    (p.group_replica_set group).Nodup :=
  owner_led_set_nodup group p.members_nodup _ _

end Placement

end placement

end mqtt_cluster
