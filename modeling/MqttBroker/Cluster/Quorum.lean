-- The write quorum of a replica set, and how a lease-holder counts the acks of
-- an op toward it (`cluster_log.rs`).
import MqttBroker.Cluster.ReplicaOps

namespace mqtt_cluster.cluster_log

abbrev NodeId := String

/-! ## The rule -/

/-- Acks counted toward a quorum: all of them, and those from the prefix. -/
structure Tally where
  all : Nat := 0
  inPrefix : Nat := 0
  deriving DecidableEq, Repr

def Tally.add (t : Tally) (inPrefix : Bool) : Tally :=
  { all := t.all + 1, inPrefix := t.inPrefix + inPrefix.toNat }

/-- A majority of an ordered replica set and, while a change of the replication factor is
open, also one of the members in its prefix. -/
structure Quorum where
  membersInPrefix : List Bool
  need : Nat
  needPrefix : Nat
  deriving DecidableEq, Repr

namespace Quorum

def majority (width : Nat) : Quorum where
  membersInPrefix := List.replicate width true
  need := width / 2 + 1
  needPrefix := 0

/-- The joint rule of a set whose first `pre` members form the other set. -/
def joint (width pre : Nat) : Quorum :=
  let pre := min pre width
  if pre = width then majority width
  else
    { membersInPrefix := (List.range width).map (fun i => i < pre)
      need := width / 2 + 1
      needPrefix := pre / 2 + 1 }

def inPrefix (q : Quorum) (index : Nat) : Bool := (q.membersInPrefix[index]?).getD false

def met (q : Quorum) (tally : Tally) : Bool :=
  decide (q.need ≤ tally.all) && decide (q.needPrefix ≤ tally.inPrefix)

/-- Whether the members at these indices of the ordered set meet the rule. -/
def met_by (q : Quorum) (indices : List Nat) : Bool :=
  q.met (indices.foldl (fun tally i => tally.add (q.inPrefix i)) {})

theorem met_by_eq (q : Quorum) (is : List Nat) :
    q.met_by is = (decide (q.need ≤ is.length) && decide (q.needPrefix ≤ is.countP q.inPrefix)) := by
  have hfold : ∀ (is : List Nat) (t : Tally),
      is.foldl (fun tally i => tally.add (q.inPrefix i)) t =
        { all := t.all + is.length, inPrefix := t.inPrefix + is.countP q.inPrefix } := by
    intro is
    induction is with
    | nil => exact fun t => rfl
    | cons i is ih =>
      intro t
      rw [List.foldl_cons, ih]
      simp only [Tally.add, List.length_cons, List.countP_cons, Bool.toNat, Tally.mk.injEq]
      constructor
      · omega
      · cases q.inPrefix i
        · simp
        · simp
          omega
  unfold met_by met
  rw [hfold]
  simp

end Quorum

/-! ## The set of a lease-holder -/

/-- The members of a lease-holder's replica set, as its log counts their acks. -/
structure ClusterLog where
  followers : List NodeId := []
  localInPrefix : Bool := true
  followersInPrefix : List Bool := []
  quorum : Quorum

namespace ClusterLog

/-- Places one member: the owner, or the next follower. -/
def place (owner : NodeId) (quorum : Quorum) (log : ClusterLog) (x : NodeId × Nat) : ClusterLog :=
  if x.1 = owner then { log with localInPrefix := quorum.inPrefix x.2 }
  else
    { log with
      followers := log.followers ++ [x.1]
      followersInPrefix := log.followersInPrefix ++ [quorum.inPrefix x.2] }

/-- Places the members under a rule: the followers in set order, and which of them, and the
owner, lie in the prefix. -/
def set_quorum (owner : NodeId) (replica_set : List NodeId) (quorum : Quorum) : ClusterLog :=
  replica_set.zipIdx.foldl (place owner quorum) { quorum }

def new (owner : NodeId) (replica_set : List NodeId) : ClusterLog :=
  set_quorum owner replica_set (.majority replica_set.length)

def with_joint_prefix (owner : NodeId) (replica_set : List NodeId) (pre : Nat) : ClusterLog :=
  set_quorum owner replica_set (.joint replica_set.length pre)

/-- A fresh tally with the owner's own ack if there is one. -/
def tally_with_local (log : ClusterLog) (own : Bool) : Tally :=
  if own then ({} : Tally).add log.localInPrefix else {}

def add_follower (log : ClusterLog) (tally : Tally) (f : Nat) : Tally :=
  tally.add ((log.followersInPrefix[f]?).getD false)

/-- The tally of the owner's ack and those of the followers. -/
def tally_of (log : ClusterLog) (own : Bool) (acked : List Nat) : Tally :=
  acked.foldl log.add_follower (log.tally_with_local own)

theorem tally_of_all (log : ClusterLog) (own : Bool) (acked : List Nat) :
    (log.tally_of own acked).all = own.toNat + acked.length := by
  have hfold : ∀ (acked : List Nat) (t : Tally),
      (acked.foldl log.add_follower t).all = t.all + acked.length := by
    intro acked
    induction acked with
    | nil => exact fun t => rfl
    | cons f acked ih =>
      intro t
      rw [List.foldl_cons, ih]
      simp only [add_follower, Tally.add, List.length_cons]
      omega
  unfold tally_of
  rw [hfold]
  cases own <;> simp [tally_with_local, Tally.add]

theorem set_quorum_followers (owner : NodeId) (replica_set : List NodeId) (quorum : Quorum) :
    (set_quorum owner replica_set quorum).quorum = quorum ∧
      (set_quorum owner replica_set quorum).followers = replica_set.filter (fun n => n ≠ owner) := by
  have hfold : ∀ (set : List (NodeId × Nat)) (log : ClusterLog),
      (set.foldl (place owner quorum) log).quorum = log.quorum ∧
      (set.foldl (place owner quorum) log).followers =
        log.followers ++ (set.map (fun x => x.1)).filter (fun n => n ≠ owner) := by
    intro set
    induction set with
    | nil => intro log; simp
    | cons x set ih =>
      intro log
      rw [List.foldl_cons]
      obtain ⟨h1, h2⟩ := ih (place owner quorum log x)
      rw [h1, h2]
      unfold place
      by_cases hx : x.1 = owner
      · simp [hx]
      · simp [hx]
  obtain ⟨h1, h2⟩ := hfold replica_set.zipIdx { quorum }
  refine ⟨h1, h2.trans ?_⟩
  simp

theorem new_quorum {owner : NodeId} {replica_set : List NodeId} (hown : owner ∈ replica_set)
    (hset : replica_set.Nodup) :
    (new owner replica_set).quorum = .majority replica_set.length ∧
      (new owner replica_set).followers.length + 1 = replica_set.length := by
  obtain ⟨h1, h2⟩ := set_quorum_followers owner replica_set (.majority replica_set.length)
  refine ⟨h1, ?_⟩
  unfold new
  rw [h2]
  have herase : replica_set.filter (fun n => n ≠ owner) = replica_set.erase owner := by
    rw [hset.erase_eq_filter]
    refine List.filter_congr (fun n _ => ?_)
    rw [Bool.eq_iff_iff]
    simp
  rw [herase, List.length_erase_of_mem hown]
  have hpos := List.length_pos_of_mem hown
  omega

end ClusterLog

end mqtt_cluster.cluster_log
