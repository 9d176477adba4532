-- The copies that a smaller replication factor leaves behind (`collect_round` in
-- `replica_change.rs`): a copy is deleted only when each member of the set that was read at its
-- key's turn answered with all that the copy holds when it is deleted. The set is not looked at
-- again, so a node that comes back meanwhile loses the copy that it is to keep.
import MqttBroker.Cluster.ReplicaChange

namespace mqtt_cluster.replica_change

open cluster_log placement

/-! ## One pass -/

/-- What a pass meets at each key: the placement at its turn and at its deletion, the answers of
the members, how the commit of a deletion goes, and what other tasks do to the replicas while
the pass does not hold their lock. -/
structure Surroundings where
  placement : String → Placement
  placement_at_deletion : String → Placement
  read_replica : NodeId → String → Option ReplicaRead
  io : String → Nat → Bool
  before_turn : String → ReplicaState → ReplicaState
  during_reads : String → ReplicaState → ReplicaState

/-- The owner is asked to hand the key to a member that falls short. -/
structure CatchUpTo where
  owner : NodeId
  key : String
  member : NodeId
  deriving DecidableEq, Repr

/-- The replicas around the deletion of a key's copy, and the reads that came before it. -/
structure Deletion where
  key : String
  reads : List (NodeId × Option ReplicaRead)
  before : ReplicaState
  after : ReplicaState

structure Pass where
  groups : BTreeSet GroupId
  replicas : ReplicaState
  left : Nat := 0
  asked : List CatchUpTo := []
  deletions : List Deletion := []

/-- The member answered, is truncated as far as the copy, and holds its entries. -/
def has_copy (watermark : Offset) (entries : List EpochEntry) : Option ReplicaRead → Bool
  | some theirs =>
    decide (watermark ≤ theirs.watermark) && entries.all (fun e => holds theirs e.offset e.record)
  | none => false

/-- One member of the set: a member that falls short is handed the key by the owner. -/
def read_member (w : Surroundings) (key : String) (owner : NodeId) (watermark : Offset)
    (entries : List EpochEntry) (acc : Bool × List CatchUpTo) (member : NodeId) :
    Bool × List CatchUpTo :=
  if has_copy watermark entries (w.read_replica member key) then acc
  else (false, acc.2 ++ [⟨owner, key, member⟩])

/-- Whether all members have the copy, and what is asked for. -/
def read_members (w : Surroundings) (key : String) (owner : NodeId) (watermark : Offset)
    (entries : List EpochEntry) (set : List NodeId) : Bool × List CatchUpTo :=
  set.foldl (read_member w key owner watermark entries) (true, [])

def collect_key (w : Surroundings) (node : NodeId) (p : Pass) (key : String) : Pass :=
  let group := group_of_key key
  if ¬ p.groups.contains group then p
  else
    let set := (w.placement key).group_replica_set group
    let owner := (w.placement key).group_owner group
    if set.contains node then { p with groups := p.groups.erase group }
    else
      let seen := w.before_turn key p.replicas
      let watermark := seen.watermark key
      let entries := seen.epoch_entries key
      let (sufficient, asked) := read_members w key owner watermark entries set
      let r := w.during_reads key seen
      let p := { p with replicas := r, asked := p.asked ++ asked }
      if ¬ sufficient then { p with left := p.left + 1 }
      -- only the copy that was verified is deleted
      else if r.watermark key = watermark ∧ r.epoch_entries key = entries then
        let (forgotten, after) := r.forget (w.io key) key
        { p with
          replicas := after
          left := if forgotten then p.left else p.left + 1
          deletions := p.deletions ++
            [⟨key, set.map (fun member => (member, w.read_replica member key)), r, after⟩] }
      else { p with left := p.left + 1 }

def collect_round (w : Surroundings) (node : NodeId) (replicas : ReplicaState)
    (groups : BTreeSet GroupId) : Pass :=
  let p := replicas.keys.foldl (collect_key w node) { groups, replicas }
  if p.left = 0 then { p with groups := ∅ } else p

/-! ## What is deleted -/

variable {w : Surroundings} {node : NodeId}

theorem has_copy_iff (watermark : Offset) (entries : List EpochEntry)
    (read : Option ReplicaRead) :
    has_copy watermark entries read = true ↔ ∃ theirs, read = some theirs ∧
      watermark ≤ theirs.watermark ∧ ∀ e ∈ entries, holds theirs e.offset e.record = true := by
  cases read with
  | none => simp [has_copy]
  | some theirs => simp [has_copy, -Bool.forall_bool]

/-- Once a member falls short, the flag stays down. -/
theorem has_copy_of_loop {key : String} {owner : NodeId} {watermark : Offset}
    {entries : List EpochEntry} {set : List NodeId} {acc : Bool × List CatchUpTo}
    (h : (set.foldl (read_member w key owner watermark entries) acc).1 = true) :
    acc.1 = true ∧
      ∀ member ∈ set, has_copy watermark entries (w.read_replica member key) = true := by
  induction set generalizing acc with
  | nil => exact ⟨h, by simp⟩
  | cons member set ih =>
    obtain ⟨hfirst, hrest⟩ := ih h
    unfold read_member at hfirst
    split at hfirst
    case isTrue hmember => exact ⟨hfirst, List.forall_mem_cons.mpr ⟨hmember, hrest⟩⟩
    case isFalse => cases hfirst

theorem forget_keeps (io : Nat → Bool) (s : ReplicaState) {key other : String} (h : other ≠ key) :
    (s.forget io key).2.watermark other = s.watermark other ∧
      (s.forget io key).2.epoch_entries other = s.epoch_entries other := by
  have hlog : logOf (s.logs.erase key) other = logOf s.logs other := by
    rw [logOf_erase, if_neg (Ne.symm h)]
  have hmark : (s.truncated.erase key)[other]? = s.truncated[other]? := by
    rw [BTreeMap.get_erase, if_neg (Ne.symm h)]
  unfold ReplicaState.forget ReplicaState.apply
  dsimp only
  split
  · exact ⟨rfl, rfl⟩
  · split
    · exact ⟨rfl, rfl⟩
    · split
      · exact ⟨congrArg (·.getD 0) hmark,
          congrArg (·.toList.map (fun x => EpochEntry.of x.1 x.2)) hlog⟩
      · exact ⟨rfl, rfl⟩

def Surroundings.read_set (w : Surroundings) (key : String) : List NodeId :=
  (w.placement key).group_replica_set (group_of_key key)

/-- The set of a key when its copy is deleted. -/
def Surroundings.current_set (w : Surroundings) (key : String) : List NodeId :=
  (w.placement_at_deletion key).group_replica_set (group_of_key key)

/-- Each member of a set was read, and held every entry and at least the low-water that the copy
has when it is deleted. -/
def Deletion.HeldBy (d : Deletion) (set : List NodeId) : Prop :=
  ∀ member ∈ set, ∃ theirs, (member, some theirs) ∈ d.reads ∧
    d.before.watermark d.key ≤ theirs.watermark ∧
    ∀ e ∈ d.before.epoch_entries d.key, holds theirs e.offset e.record = true

/-- What a turn makes sure of before it deletes. -/
structure Verified (w : Surroundings) (node : NodeId) (d : Deletion) : Prop where
  outside : node ∉ w.read_set d.key
  reads : ∀ read ∈ d.reads, read.1 ∈ w.read_set d.key
  held : d.HeldBy (w.read_set d.key)
  others : ∀ other ≠ d.key, d.after.watermark other = d.before.watermark other ∧
    d.after.epoch_entries other = d.before.epoch_entries other

theorem deletions_of_turn (w : Surroundings) (node : NodeId) (p : Pass) (key : String) :
    (collect_key w node p key).deletions = p.deletions ∨
      ∃ d, (collect_key w node p key).deletions = p.deletions ++ [d] ∧ Verified w node d := by
  unfold collect_key
  dsimp only
  by_cases hgroup : ¬ p.groups.contains (group_of_key key)
  · exact .inl (by rw [if_pos hgroup])
  rw [if_neg hgroup]
  by_cases hback : ((w.placement key).group_replica_set (group_of_key key)).contains node
  · exact .inl (by rw [if_pos hback])
  rw [if_neg hback]
  split
  case isTrue => exact .inl rfl
  case isFalse hall =>
    split
    case isFalse => exact .inl rfl
    case isTrue hsame =>
      refine .inr ⟨_, rfl, by simpa [Surroundings.read_set] using hback, ?_, ?_,
        fun other hother => forget_keeps _ _ hother⟩
      · intro read hread
        obtain ⟨member, hmember, rfl⟩ := List.mem_map.mp hread
        exact hmember
      · intro member hmember
        have hcopy := (has_copy_of_loop (not_not.mp hall)).2 member hmember
        rw [← hsame.1, ← hsame.2] at hcopy
        obtain ⟨theirs, htheirs, hholds⟩ := (has_copy_iff _ _ _).mp hcopy
        exact ⟨theirs, List.mem_map.mpr ⟨member, hmember, by rw [htheirs]⟩, hholds⟩

theorem deletions_of_keys (keys : List String) (p : Pass)
    (h : ∀ d ∈ p.deletions, Verified w node d) :
    ∀ d ∈ (keys.foldl (collect_key w node) p).deletions, Verified w node d := by
  induction keys generalizing p with
  | nil => exact h
  | cons key keys ih =>
    apply ih
    rcases deletions_of_turn w node p key with heq | ⟨d, heq, hd⟩
    · rw [heq]
      exact h
    · rw [heq]
      intro d' hd'
      rcases List.mem_append.mp hd' with hold | hnew
      · exact h d' hold
      · rw [List.mem_singleton.mp hnew]
        exact hd

/-- Every copy that a pass deletes was held by each member of the set that its turn read, which
does not have this node, and the copies of other keys are left alone. The set of the moment of
the deletion does not have the node either, and its members held the copy, exactly when it has
nobody that the turn did not find in it. -/
theorem a_deleted_copy_is_redundant_iff (w : Surroundings) (node : NodeId)
    (replicas : ReplicaState) (groups : BTreeSet GroupId) :
    ∀ d ∈ (collect_round w node replicas groups).deletions,
      ((node ∉ w.current_set d.key ∧ d.HeldBy (w.current_set d.key)) ↔
        ∀ member ∈ w.current_set d.key, member ∈ w.read_set d.key) ∧
      (node ∉ w.read_set d.key ∧ d.HeldBy (w.read_set d.key)) ∧
      ∀ other ≠ d.key, d.after.watermark other = d.before.watermark other ∧
        d.after.epoch_entries other = d.before.epoch_entries other := by
  intro d hd
  have hkeys : d ∈ (replicas.keys.foldl (collect_key w node) { groups, replicas }).deletions := by
    unfold collect_round at hd
    dsimp only at hd
    split at hd <;> exact hd
  obtain ⟨houtside, hreads, hheld, hothers⟩ := deletions_of_keys replicas.keys _ (by simp) d hkeys
  refine ⟨⟨?_, ?_⟩, ⟨houtside, hheld⟩, hothers⟩
  · rintro ⟨-, hnow⟩ member hmember
    obtain ⟨theirs, hread, -⟩ := hnow member hmember
    exact hreads _ hread
  · intro hsub
    exact ⟨fun hback => houtside (hsub node hback),
      fun member hmember => hheld member (hsub member hmember)⟩

def spare_copy : ReplicaState := ReplicaState.apply_in_memory {} 1 (.Append "q/p" 1 1 [7])

def pair (first second : NodeId) : Placement :=
  { node := "c", eligible := Std.ExtTreeSet.ofList [first, second], replicas := 2 }

/-- Both members of the set hold its one entry. The second set is that of the deletion. -/
def both_hold_it (current : Placement) : Surroundings where
  placement _ := pair "a" "b"
  placement_at_deletion _ := current
  read_replica _ key := some (spare_copy.read key true)
  io _ _ := true
  before_turn _ r := r
  during_reads _ r := r

def collected (current : Placement) : Pass :=
  collect_round (both_hold_it current) "c" spare_copy
    ((∅ : BTreeSet GroupId).insert (group_of_key "q/p"))

theorem collected_keys : ∀ back ∈ ["b", "c"],
    (collected (pair "a" back)).deletions.map (fun d => (d.key, d.after.epoch_entries d.key)) =
      [("q/p", [])] := by
  decide +kernel

theorem a_spare_copy_is_deleted :
    ∃ d ∈ (collected (pair "a" "b")).deletions, d.key = "q/p" ∧
      "c" ∉ (both_hold_it (pair "a" "b")).current_set d.key ∧
      d.HeldBy ((both_hold_it (pair "a" "b")).current_set d.key) := by
  obtain ⟨d, hd, hkey⟩ := List.mem_map.mp
    (collected_keys "b" (by simp) ▸ List.mem_singleton.mpr rfl)
  exact ⟨d, hd, congrArg Prod.fst hkey,
    (a_deleted_copy_is_redundant_iff _ _ _ _ d hd).1.mpr (fun member hmember => hmember)⟩

/-- While the members are read the node comes back in for "b". Its copy is deleted though it is
one of the set now. -/
theorem a_node_that_is_back_loses_its_copy :
    ∃ d ∈ (collected (pair "a" "c")).deletions, d.key = "q/p" ∧
      d.after.epoch_entries d.key = [] ∧
      "c" ∈ (both_hold_it (pair "a" "c")).current_set d.key := by
  obtain ⟨d, hd, hkey⟩ := List.mem_map.mp
    (collected_keys "c" (by simp) ▸ List.mem_singleton.mpr rfl)
  have hname : d.key = "q/p" := congrArg Prod.fst hkey
  refine ⟨d, hd, hname, congrArg Prod.snd hkey, ?_⟩
  rw [hname]
  decide +kernel

end mqtt_cluster.replica_change
