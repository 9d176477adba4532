-- The memo of a placement's replica sets (`placement.rs`): each change that can move a set
-- raises the version of the ring, and a memo of another version is not read. A clone of a
-- placement has a memo of its own.
import MqttBroker.Cluster.PlacementSets

namespace mqtt_cluster.placement

open cluster_log

/-! ## A placement with its memo -/

structure MemoState where
  /-- The version of the ring that the sets were computed at. -/
  version : Nat := 0
  sets : BTreeMap GroupId (List NodeId) := ∅
  computes : Nat := 0

structure Ring where
  placement : Placement
  addrs : BTreeMap NodeId String := ∅
  ring_version : Nat := 0
  memo : MemoState := {}

inductive MemberState
  | Alive
  | Suspect
  | Dead
  deriving DecidableEq, Repr

namespace Ring

def new (node : NodeId) (replicas : Nat) : Ring where
  placement := { node, eligible := (∅ : BTreeSet NodeId).insert node, replicas := max replicas 1 }

variable (r : Ring)

/-- The node itself, or the ring one version on. -/
def note_change (changed : Bool) : Ring :=
  if changed then { r with ring_version := r.ring_version + 1 } else r

/-- A member that is not dead is eligible, with its address; this node always is. -/
def observe (id : NodeId) (state : MemberState) (addr : String) : Ring :=
  if id = r.placement.node then r
  else
    match state with
    | .Dead =>
      { r with
        placement := { r.placement with eligible := r.placement.eligible.erase id }
        addrs := r.addrs.erase id }.note_change
          (r.placement.eligible.contains id || (r.addrs[id]?).isSome)
    | _ =>
      let joined := { r with
        placement := { r.placement with eligible := r.placement.eligible.insert id } }.note_change
          (!r.placement.eligible.contains id)
      if addr.isEmpty then joined
      else { joined with addrs := r.addrs.insert id addr }.note_change (r.addrs[id]? != some addr)

def set_voters (voters : BTreeSet NodeId) : Ring :=
  { r with placement := { r.placement with voters } }.note_change
    (r.placement.voters.toList != voters.toList)

def set_lease_owners (owners : BTreeMap GroupId NodeId) : Ring :=
  { r with placement := { r.placement with lease_owners := owners } }.note_change
    (r.placement.lease_owners.toList != owners.toList)

def set_replicas (replicas : Nat) : Ring :=
  let replicas := max replicas 1
  if replicas = r.placement.replicas then r
  else { r with placement := { r.placement with replicas } }.note_change true

/-- The committed replication record: the width of every set, and the joint prefix. -/
def set_replication (width : Nat) (joint : Option Nat) : Ring :=
  let r := r.set_replicas width
  let jointPrefix := (joint.map (max · 1)).filter (fun p => p < r.placement.replicas)
  { r with placement := { r.placement with jointPrefix } }

/-! ## The memo -/

def memo_get (group : GroupId) : Option (List NodeId) :=
  if r.memo.version ≠ r.ring_version then none else r.memo.sets[group]?

/-- Records a set, and forgets all the sets of another version first. -/
def memo_put (group : GroupId) (set : List NodeId) : Ring :=
  let memo := if r.memo.version ≠ r.ring_version then
      { r.memo with version := r.ring_version, sets := ∅ }
    else r.memo
  { r with memo := { memo with computes := memo.computes + 1, sets := memo.sets.insert group set } }

def group_replica_set (group : GroupId) : List NodeId × Ring :=
  match r.memo_get group with
  | some set => (set, r)
  | none =>
    let set := Placement.owner_led_set_of_width group r.placement.members
      (r.placement.group_owner group) r.placement.replicas
    (set, r.memo_put group set)

/-- Memoised only at the width that the ring has. -/
def group_replica_set_of_width (group : GroupId) (width : Nat) : List NodeId × Ring :=
  if max width 1 = r.placement.replicas then r.group_replica_set group
  else (Placement.owner_led_set_of_width group r.placement.members
    (r.placement.group_owner group) width, r)

/-- The smallest set of any group: it reads and fills the memo too. -/
def replication_health : Option Nat × Ring :=
  (List.range NUM_GROUPS).foldl (fun acc group =>
    let l := acc.2.group_replica_set group
    (some (match acc.1 with
      | none => l.1.length
      | some least => min least l.1.length), l.2)) (none, r)

end Ring

/-! ## Many clones -/

inductive Op
  | Observe (id : NodeId) (state : MemberState) (addr : String)
  | SetVoters (voters : BTreeSet NodeId)
  | SetLeaseOwners (owners : BTreeMap GroupId NodeId)
  | SetReplicas (replicas : Nat)
  | SetReplication (width : Nat) (joint : Option Nat)
  | Lookup (group : GroupId)
  | LookupOfWidth (group : GroupId) (width : Nat)
  | Health

namespace Ring

def step (r : Ring) : Op → Ring
  | .Observe id state addr => r.observe id state addr
  | .SetVoters voters => r.set_voters voters
  | .SetLeaseOwners owners => r.set_lease_owners owners
  | .SetReplicas replicas => r.set_replicas replicas
  | .SetReplication width joint => r.set_replication width joint
  | .Lookup group => (r.group_replica_set group).2
  | .LookupOfWidth group width => (r.group_replica_set_of_width group width).2
  | .Health => r.replication_health.2

end Ring

inductive Call
  | On (clone : Nat) (op : Op)
  | Clone (clone : Nat)

def callOn (rings : List Ring) : Call → List Ring
  | .On i op => rings.modify i (·.step op)
  | .Clone i => rings ++ (rings[i]?).toList

def runCalls (rings : List Ring) (calls : List Call) : List Ring := calls.foldl callOn rings

/-! ## The memo holds what would be computed -/

namespace Ring

variable {r : Ring}

/-- A set computed from the present members and leases. -/
def recomputed (r : Ring) (group : GroupId) (width : Nat) : List NodeId :=
  Placement.owner_led_set_of_width group r.placement.members (r.placement.group_owner group) width

/-- The memo is of no later version, and one of this version holds what would be computed. -/
structure Sound (r : Ring) : Prop where
  version : r.memo.version ≤ r.ring_version
  sets : r.memo.version = r.ring_version → ∀ (group : GroupId) set, r.memo.sets[group]? = some set →
    set = r.recomputed group r.placement.replicas
  member : r.placement.node ∈ r.placement.members

theorem sound_new (node : NodeId) (replicas : Nat) : Sound (new node replicas) := by
  refine ⟨le_refl _, ?_, ?_⟩
  · intro _ group set h
    simp [new] at h
  · simp [new, Placement.members]

variable {r' : Ring}

theorem Sound.changed (h : Sound r) (hmemo : r'.memo = r.memo)
    (hversion : r.ring_version < r'.ring_version)
    (hmember : r'.placement.node ∈ r'.placement.members) : Sound r' := by
  have hlt : r'.memo.version < r'.ring_version := by
    rw [hmemo]
    exact lt_of_le_of_lt h.version hversion
  exact ⟨le_of_lt hlt, fun he => absurd he (ne_of_lt hlt), hmember⟩

/-- What no set depends on may change. -/
theorem Sound.same (h : Sound r) (hmemo : r'.memo = r.memo)
    (hversion : r'.ring_version = r.ring_version)
    (hset : ∀ group, r'.recomputed group r'.placement.replicas =
      r.recomputed group r.placement.replicas)
    (hmember : r'.placement.node ∈ r'.placement.members) : Sound r' := by
  refine ⟨?_, ?_, hmember⟩
  · rw [hmemo, hversion]
    exact h.version
  · rw [hmemo, hversion]
    intro he group set hs
    rw [hset]
    exact h.sets he group set hs

theorem Sound.note {changed : Bool} (h : Sound r) (hmemo : r'.memo = r.memo)
    (hversion : r'.ring_version = r.ring_version)
    (hset : changed = false → ∀ group, r'.recomputed group r'.placement.replicas =
      r.recomputed group r.placement.replicas)
    (hmember : r'.placement.node ∈ r'.placement.members) : Sound (r'.note_change changed) := by
  unfold note_change
  cases changed with
  | false => exact h.same hmemo hversion (hset rfl) hmember
  | true =>
    refine h.changed hmemo ?_ hmember
    simp [hversion]

theorem sound_put (h : Sound r) (group : GroupId) :
    Sound (r.memo_put group (r.recomputed group r.placement.replicas)) := by
  have hget (sets : BTreeMap GroupId (List NodeId))
      (hsets : ∀ (g : GroupId) set, sets[g]? = some set → set = r.recomputed g r.placement.replicas)
      (g : GroupId) (set : List NodeId)
      (hg : (sets.insert group (r.recomputed group r.placement.replicas))[g]? = some set) :
      set = r.recomputed g r.placement.replicas := by
    rw [BTreeMap.get_insert] at hg
    split at hg
    · rename_i heq
      cases hg
      rw [heq]
    · exact hsets g set hg
  unfold memo_put
  by_cases hv : r.memo.version = r.ring_version
  · simp only [hv, ne_eq, not_true_eq_false, if_false]
    refine ⟨?_, fun _ g set hg => hget _ (h.sets hv) g set hg, h.member⟩
    simp
  · simp only [ne_eq, hv, not_false_eq_true, if_true]
    refine ⟨le_refl _, fun _ g set hg => hget _ ?_ g set hg, h.member⟩
    intro g' set' hnone
    simp at hnone

theorem group_replica_set_spec (h : Sound r) (group : GroupId) :
    (r.group_replica_set group).1 = r.recomputed group r.placement.replicas ∧
      Sound (r.group_replica_set group).2 := by
  unfold group_replica_set memo_get
  by_cases hv : r.memo.version = r.ring_version
  · simp only [hv, ne_eq, not_true_eq_false, if_false]
    rcases hm : r.memo.sets[group]? with _ | set
    · exact ⟨rfl, sound_put h group⟩
    · exact ⟨h.sets hv group set hm, h⟩
  · simp only [ne_eq, hv, not_false_eq_true, if_true]
    exact ⟨rfl, sound_put h group⟩

theorem sound_health (h : Sound r) : Sound r.replication_health.2 := by
  unfold replication_health
  generalize (none : Option Nat) = least
  induction List.range NUM_GROUPS generalizing r least with
  | nil => exact h
  | cons group rest ih => exact ih (group_replica_set_spec h group).2 _

variable {p : Placement} {id n : NodeId}

theorem mem_members_insert (h : n ∈ p.members) : n ∈ (p.eligible.insert id).toList := by
  rw [Std.ExtTreeSet.mem_toList]
  exact Std.ExtTreeSet.mem_insert.mpr (.inr (Std.ExtTreeSet.mem_toList.mp h))

theorem mem_members_erase (h : n ∈ p.members) (hn : id ≠ n) : n ∈ (p.eligible.erase id).toList := by
  rw [Std.ExtTreeSet.mem_toList, BTreeSet.mem_erase]
  exact ⟨fun he => hn he.symm, Std.ExtTreeSet.mem_toList.mp h⟩

variable {s : BTreeSet NodeId}

/-- A member that is there already changes no set. -/
theorem insert_same (h : s.contains id = true) : s.insert id = s := by
  apply Std.ExtTreeSet.ext_mem
  intro n
  rw [BTreeSet.mem_insert]
  constructor
  · rintro (rfl | hn)
    · exact Std.ExtTreeSet.mem_iff_contains.mpr h
    · exact hn
  · exact .inr

theorem erase_same (h : s.contains id = false) : s.erase id = s := by
  apply Std.ExtTreeSet.ext_mem
  intro n
  rw [BTreeSet.mem_erase]
  constructor
  · exact fun hn => hn.2
  · intro hn
    refine ⟨?_, hn⟩
    rintro rfl
    rw [Std.ExtTreeSet.mem_iff_contains, h] at hn
    cases hn

theorem sound_observe (h : Sound r) (id : NodeId) (state : MemberState) (addr : String) :
    Sound (r.observe id state addr) := by
  unfold observe
  by_cases hid : id = r.placement.node
  · rw [if_pos hid]
    exact h
  · rw [if_neg hid]
    have hjoin : Sound ({ r with
        placement := { r.placement with eligible := r.placement.eligible.insert id } }.note_change
          (!r.placement.eligible.contains id)) := by
      refine h.note rfl rfl ?_ (mem_members_insert h.member)
      intro hc group
      rw [Bool.not_eq_false'] at hc
      rw [insert_same hc]
    have haddr (joined : Ring) (hj : Sound joined) (addrs : BTreeMap NodeId String)
        (changed : Bool) : Sound ({ joined with addrs }.note_change changed) :=
      hj.note rfl rfl (fun _ _ => rfl) hj.member
    have halive : Sound (if addr.isEmpty = true then { r with
        placement := { r.placement with eligible := r.placement.eligible.insert id } }.note_change
          (!r.placement.eligible.contains id)
        else { { r with placement := { r.placement with
            eligible := r.placement.eligible.insert id } }.note_change
              (!r.placement.eligible.contains id) with
            addrs := r.addrs.insert id addr }.note_change (r.addrs[id]? != some addr)) := by
      split
      · exact hjoin
      · exact haddr _ hjoin _ _
    cases state with
    | Alive => exact halive
    | Suspect => exact halive
    | Dead =>
      refine h.note rfl rfl ?_ (mem_members_erase h.member hid)
      intro hc group
      rw [Bool.or_eq_false_iff] at hc
      rw [erase_same hc.1]
      rfl

theorem sound_set_voters (h : Sound r) (voters : BTreeSet NodeId) : Sound (r.set_voters voters) := by
  refine h.note rfl rfl ?_ h.member
  intro hc group
  have hsame : r.placement.voters = voters :=
    Std.ExtTreeSet.ext_toList (List.Perm.of_eq (bne_eq_false_iff_eq.mp hc))
  rw [← hsame]

theorem sound_set_lease_owners (h : Sound r) (owners : BTreeMap GroupId NodeId) :
    Sound (r.set_lease_owners owners) := by
  refine h.note rfl rfl ?_ h.member
  intro hc group
  have hsame : r.placement.lease_owners = owners :=
    Std.ExtTreeMap.ext_toList (List.Perm.of_eq (bne_eq_false_iff_eq.mp hc))
  rw [← hsame]

theorem sound_set_replicas (h : Sound r) (replicas : Nat) : Sound (r.set_replicas replicas) := by
  unfold set_replicas
  simp only
  split
  · exact h
  · exact h.note rfl rfl nofun h.member

theorem sound_step (h : Sound r) (op : Op) : Sound (r.step op) := by
  cases op with
  | Observe id state addr => exact sound_observe h id state addr
  | SetVoters voters => exact sound_set_voters h voters
  | SetLeaseOwners owners => exact sound_set_lease_owners h owners
  | SetReplicas replicas => exact sound_set_replicas h replicas
  | SetReplication width joint =>
    have hset := sound_set_replicas h width
    exact hset.same rfl rfl (fun _ => rfl) hset.member
  | Lookup group => exact (group_replica_set_spec h group).2
  | LookupOfWidth group width =>
    unfold step group_replica_set_of_width
    simp only
    split
    · exact (group_replica_set_spec h group).2
    · exact h
  | Health => exact sound_health h

theorem group_replica_set_of_width_eq (h : Sound r) (group : GroupId) (width : Nat) :
    (r.group_replica_set_of_width group width).1 = r.recomputed group width := by
  unfold group_replica_set_of_width
  split
  · rename_i hw
    rw [(group_replica_set_spec h group).1, ← hw]
    unfold recomputed
    -- A width of 0 is taken for 1.
    rw [Placement.owner_led_set_eq r.placement.members_nodup,
      Placement.owner_led_set_eq r.placement.members_nodup]
    congr 2
    omega
  · rfl

theorem length_recomputed (h : Sound r) (group : GroupId) (width : Nat) :
    (r.recomputed group width).length = min (max width 1) r.placement.members.length := by
  have hne : r.placement.members ≠ [] := List.ne_nil_of_mem h.member
  have howner := r.placement.group_owner_mem group hne
  have hrank : (Placement.rankingOf group r.placement.members).Perm r.placement.members :=
    hrw.perm_ranking _ _
  have hnodup : (Placement.rankingOf group r.placement.members).Nodup :=
    hrw.nodup_ranking _ r.placement.members_nodup
  have hcount := Ranks.countP_and_ne (p := fun _ => true) hnodup (r.placement.group_owner group)
  simp only [Bool.true_and, List.countP_true, and_true, hrank.length_eq,
    hrank.mem_iff.mpr howner, if_true] at hcount
  unfold recomputed
  rw [Placement.owner_led_set_eq r.placement.members_nodup, List.length_cons, List.length_take,
    ← List.countP_eq_length_filter]
  omega

theorem prefix_recomputed (r : Ring) (group : GroupId) {width wider : Nat} (h : width ≤ wider) :
    r.recomputed group width <+: r.recomputed group wider := by
  unfold recomputed
  rw [Placement.owner_led_set_eq r.placement.members_nodup,
    Placement.owner_led_set_eq r.placement.members_nodup, List.cons_prefix_cons]
  refine ⟨rfl, List.take_prefix_take_left (by omega)⟩

end Ring

theorem sound_call {rings : List Ring} (h : ∀ r ∈ rings, r.Sound) (c : Call) :
    ∀ r ∈ callOn rings c, r.Sound := by
  cases c with
  | On i op =>
    intro r hr
    obtain ⟨j, hj⟩ := List.mem_iff_getElem?.mp hr
    rw [callOn, List.getElem?_modify] at hj
    obtain ⟨r', hr', hstep⟩ := Option.map_eq_some_iff.mp hj
    have hsound := h r' (List.mem_of_getElem? hr')
    split at hstep
    · rw [← hstep]
      exact Ring.sound_step hsound op
    · rw [← hstep]
      exact hsound
  | Clone i =>
    intro r hr
    rcases List.mem_append.mp hr with hr | hr
    · exact h r hr
    · rw [Option.mem_toList] at hr
      exact h r (List.mem_of_getElem? hr)

theorem sound_calls {rings : List Ring} (h : ∀ r ∈ rings, r.Sound) (calls : List Call) :
    ∀ r ∈ runCalls rings calls, r.Sound := by
  induction calls generalizing rings with
  | nil => exact h
  | cons c rest ih => exact ih (sound_call h c)

/-- A look-up on any clone gives what would be computed without the memo: a set without
repeats, led by the group's owner, as long as the width and the members allow (a width of 0
being taken for 1), and with the narrower sets as its beginnings. -/
theorem the_memo_is_transparent (node : NodeId) (replicas : Nat) (calls : List Call) :
    ∀ r ∈ runCalls [Ring.new node replicas] calls, ∀ group : GroupId,
      (r.group_replica_set group).1 = r.recomputed group r.placement.replicas ∧
        ∀ width : Nat, (r.group_replica_set_of_width group width).1 = r.recomputed group width ∧
          (r.recomputed group width).Nodup ∧
          (r.recomputed group width).head? = some (r.placement.group_owner group) ∧
          (r.recomputed group width).length = min (max width 1) r.placement.members.length ∧
          ∀ wider, width ≤ wider → r.recomputed group width <+: r.recomputed group wider := by
  intro r hr group
  have hnew : ∀ r ∈ [Ring.new node replicas], r.Sound := by
    intro r hr
    rw [List.mem_singleton] at hr
    rw [hr]
    exact Ring.sound_new node replicas
  have hsound := sound_calls hnew calls r hr
  refine ⟨(Ring.group_replica_set_spec hsound group).1, fun width => ⟨?_, ?_, ?_, ?_, ?_⟩⟩
  · exact Ring.group_replica_set_of_width_eq hsound group width
  · exact Placement.owner_led_set_nodup group r.placement.members_nodup _ _
  · unfold Ring.recomputed
    rw [Placement.owner_led_set_eq r.placement.members_nodup]
    rfl
  · exact Ring.length_recomputed hsound group width
  · exact fun wider => r.prefix_recomputed group

def lookedUp : Ring := (Ring.new "a" 3).step (.Lookup 5)

theorem a_clone_that_looked_up_looks_up_again :
    lookedUp ∈ runCalls [Ring.new "a" 3] [.Clone 0, .On 1 (.Lookup 5)] ∧
      (lookedUp.group_replica_set 5).1 = lookedUp.recomputed 5 lookedUp.placement.replicas ∧
      (lookedUp.recomputed 5 2).length = min (max 2 1) lookedUp.placement.members.length := by
  have hmem : lookedUp ∈ runCalls [Ring.new "a" 3] [.Clone 0, .On 1 (.Lookup 5)] := by
    have hruns : runCalls [Ring.new "a" 3] [.Clone 0, .On 1 (.Lookup 5)] =
        [Ring.new "a" 3, lookedUp] := rfl
    rw [hruns]
    simp
  have h := the_memo_is_transparent "a" 3 _ lookedUp hmem 5
  exact ⟨hmem, h.1, (h.2 2).2.2.2.1⟩

theorem a_set_of_width_zero_has_its_owner :
    ¬ ∀ (node : NodeId) (replicas : Nat) (calls : List Call),
      ∀ r ∈ runCalls [Ring.new node replicas] calls, ∀ (group : GroupId) (width : Nat),
        (r.group_replica_set_of_width group width).1.length =
          min width r.placement.members.length := by
  intro h
  have hlen : ((Ring.new "a" 3).group_replica_set_of_width 0 0).1.length = 1 := by decide +kernel
  have h0 := h "a" 3 [] (Ring.new "a" 3) List.mem_cons_self 0 0
  rw [hlen] at h0
  simp at h0

end mqtt_cluster.placement
