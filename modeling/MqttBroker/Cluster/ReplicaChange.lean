-- A change of the replication factor while the cluster runs (`replica_change.rs`).
-- The lease leader checks every key against the copies before it lets the new
-- set take over: what a round without a finding says about the copies.
import MqttBroker.Cluster.LeaseRaft
import MqttBroker.Cluster.Placement
import MqttBroker.Cluster.Merge
import MqttBroker.Cluster.Serving
import MqttBroker.Lib.Majority

namespace mqtt_cluster

open cluster_log placement

namespace replica_change

open lease_raft

structure RoundOutcome where
  verified_groups : Nat := 0
  pending : Nat := 0
  deriving DecidableEq, Repr

/-- A key that falls short: the leader re-commits it, or asks its owner to. -/
inductive CatchUp
  | Own (key : String)
  | Ask (owner : NodeId) (key : String)
  deriving DecidableEq, Repr

/-- The read has the record at the offset, or has the offset truncated. -/
def holds (read : ReplicaRead) (offset : Offset) (record : Bytes) : Bool :=
  decide (offset ≤ read.watermark) ||
    read.entries.any (fun e => decide (e.offset = offset) && decide (e.record = record))

/-- The lease leader of an open change, with what a round finds: the placement at its start and
at each group, the keys that the nodes list, and the reads of each key. -/
structure ChangeVerifier where
  node : NodeId
  placement : Placement
  placement_at : GroupId → Placement
  own_keys : List String
  keys_of : NodeId → Option (List String)
  local_read : String → ReplicaRead
  read_replica : NodeId → String → Option ReplicaRead

namespace ChangeVerifier

def answers (v : ChangeVerifier) (members : List NodeId) : List (NodeId × List String) :=
  (members.filter (fun m => m ≠ v.node)).filterMap (fun peer => (v.keys_of peer).map (peer, ·))

/-- The keys that this node and the peers that answered hold, by group, and who answered. -/
def discover (v : ChangeVerifier) (members : List NodeId) :
    BTreeMap GroupId (BTreeSet String) × BTreeSet NodeId :=
  let answers := v.answers members
  let answered := answers.foldl (fun (set : BTreeSet NodeId) a => set.insert a.1)
    ((∅ : BTreeSet NodeId).insert v.node)
  let keys := v.own_keys ++ answers.flatMap (fun a => a.2)
  (BTreeMap.groupFold group_of_key (fun (set : BTreeSet String) key => set.insert key) ∅ keys ∅,
    answered)

def indices {α : Type} (p : α → Bool) (xs : List α) : List Nat :=
  (xs.zipIdx.filter (fun x => p x.1)).map (fun x => x.2)

def reads (v : ChangeVerifier) (key : String) (set : List NodeId) : List (Option ReplicaRead) :=
  set.map (fun m => if m = v.node then some (v.local_read key) else v.read_replica m key)

/-- Every entry up to `since` that the reads merge to is held by `need` of the first `new_len`
members. -/
def key_is_safe (v : ChangeVerifier) (key : String) (set : List NodeId) (quorum : Quorum)
    (new_len need : Nat) (since : Epoch) : Bool :=
  let reads := v.reads key set
  if !quorum.met_by (indices Option.isSome reads) then false
  else
    let answered := reads.filterMap id
    ((merge_replica_logs_tagged answered).filter (fun e => decide (e.epoch ≤ since))).all (fun e =>
      decide (need ≤
        ((reads.take new_len).filterMap id).countP (fun r => holds r e.offset e.record)))

def prefix_len (change : ReplicaChange) (set : List NodeId) : Nat :=
  min change.prefix_width set.length

/-- The width of the new set: the whole set when it grows, its prefix when it shrinks. -/
def new_len (change : ReplicaChange) (set : List NodeId) : Nat :=
  if change.to_ < change.from_ then prefix_len change set else set.length

/-- One group: its part of the outcome, and the keys that fall short. -/
def check_group (v : ChangeVerifier) (change : ReplicaChange)
    (keys : BTreeMap GroupId (BTreeSet String)) (answered : BTreeSet NodeId) (group : GroupId) :
    RoundOutcome × List CatchUp :=
  let p := v.placement_at group
  let set := p.group_replica_set group
  let owner := p.group_owner group
  let quorum := Quorum.joint set.length (prefix_len change set)
  let need := new_len change set / 2 + 1
  if !quorum.met_by (indices (fun n => answered.contains n) set) then ({ pending := 1 }, [])
  else
    let short := ((keys[group]?.getD ∅).toList.filter (fun key =>
      !v.key_is_safe key set quorum (new_len change set) need change.since))
    ({ verified_groups := if short.isEmpty then 1 else 0, pending := short.length },
      short.map (fun key => if owner = v.node then .Own key else .Ask owner key))

def adopted (v : ChangeVerifier) (change : ReplicaChange) : Bool :=
  decide (v.placement.replicas = change.joint_width) &&
    v.placement.jointPrefix.all (fun pre => decide (pre = change.prefix_width))

def round (v : ChangeVerifier) (change : ReplicaChange) : RoundOutcome × List CatchUp :=
  if !v.adopted change then ({ verified_groups := 0, pending := NUM_GROUPS }, [])
  else
    let (keys, answered) := v.discover v.placement.members
    (List.range NUM_GROUPS).foldl (fun acc group =>
      let g := v.check_group change keys answered group
      ({ verified_groups := acc.1.verified_groups + g.1.verified_groups
         pending := acc.1.pending + g.1.pending }, acc.2 ++ g.2)) ({}, [])

/-! ## Majorities of the two sets -/

def new_set (change : ReplicaChange) (set : List NodeId) : List NodeId :=
  set.take (new_len change set)

/-- The set that the change moves from: the other one of the whole set and its prefix. -/
def old_set (change : ReplicaChange) (set : List NodeId) : List NodeId :=
  set.take (if change.to_ < change.from_ then set.length else prefix_len change set)

variable {α : Type}

theorem indices_append (p : α → Bool) (xs : List α) (x : α) :
    indices p (xs ++ [x]) = indices p xs ++ if p x then [xs.length] else [] := by
  unfold indices
  rw [List.zipIdx_append, List.filter_append, List.map_append]
  congr 1
  by_cases hx : p x = true <;> simp [hx]

theorem countP_indices (p : α → Bool) (xs : List α) (k : Nat) :
    (indices p xs).countP (fun i => decide (i < k)) = (xs.take k).countP p := by
  induction xs using List.reverseRecOn with
  | nil => simp [indices]
  | append_singleton xs x ih =>
    rw [indices_append, List.countP_append, ih]
    rcases Nat.lt_or_ge xs.length k with hlt | hge
    · rw [List.take_of_length_le (by omega : xs.length ≤ k),
        List.take_of_length_le (by simp; omega : (xs ++ [x]).length ≤ k), List.countP_append]
      by_cases hx : p x = true <;> simp [hx, hlt]
    · rw [List.take_append_of_le_length hge]
      by_cases hx : p x = true <;> simp [hx, hge]

theorem length_indices (p : α → Bool) (xs : List α) : (indices p xs).length = xs.countP p := by
  unfold indices
  rw [List.length_map, ← List.countP_eq_length_filter]
  have h := List.countP_map (p := p) (f := Prod.fst) (l := xs.zipIdx)
  rw [List.zipIdx_map_fst] at h
  exact h.symm

/-- Members that meet the joint rule are a majority of the whole set and of its prefix. -/
theorem joint_met_by {xs : List α} {p : α → Bool} {pre : Nat}
    (h : (Quorum.joint xs.length pre).met_by (indices p xs) = true) :
    xs.length / 2 + 1 ≤ xs.countP p ∧
      min pre xs.length / 2 + 1 ≤ (xs.take (min pre xs.length)).countP p := by
  rw [Quorum.met_by_eq, Bool.and_eq_true, decide_eq_true_eq, decide_eq_true_eq, length_indices] at h
  unfold Quorum.joint at h
  simp only at h
  split at h
  · rename_i heq
    rw [heq, List.take_length]
    exact ⟨h.1, h.1⟩
  · refine ⟨h.1, Nat.le_trans h.2 ?_⟩
    rw [← countP_indices]
    refine List.countP_mono_left (fun i _ hi => ?_)
    simp only [Quorum.inPrefix, List.getElem?_map] at hi
    rcases hr : (List.range xs.length)[i]? with _ | j
    · simp [hr] at hi
    · have hj : j = i := by
        have := List.getElem?_range (n := xs.length) (i := i)
        grind
      subst hj
      simpa [hr] using hi

variable {change : ReplicaChange} {set : List NodeId}

theorem majorities_of_joint {p : NodeId → Bool} {P : NodeId → Prop}
    (h : (Quorum.joint set.length (prefix_len change set)).met_by (indices p set) = true)
    (hp : ∀ m ∈ set, p m = true → P m) :
    Majority.Of (old_set change set) P ∧ Majority.Of (new_set change set) P := by
  obtain ⟨hall, hpre⟩ := joint_met_by h
  have hmin : min (prefix_len change set) set.length = prefix_len change set :=
    Nat.min_eq_left (Nat.min_le_right _ _)
  rw [hmin] at hpre
  have htake : ∀ k, (set.take k).length / 2 + 1 ≤ (set.take k).countP p →
      Majority.Of (set.take k) P := fun k hk =>
    Majority.of_countP hk (fun m hm => hp m (List.mem_of_mem_take hm))
  have hwhole : Majority.Of (set.take set.length) P := by
    apply htake
    rwa [List.take_length]
  have hnarrow : Majority.Of (set.take (prefix_len change set)) P := by
    apply htake
    have hlen : (set.take (prefix_len change set)).length = prefix_len change set :=
      List.length_take_of_le (Nat.min_le_right _ _)
    rwa [hlen]
  unfold old_set new_set new_len
  split
  · exact ⟨hwhole, hnarrow⟩
  · exact ⟨hnarrow, hwhole⟩

/-! ## A round with nothing pending -/

variable {v : ChangeVerifier} {group : GroupId}

theorem round_pending (h : (v.round change).1.pending = 0) (hg : group < NUM_GROUPS) :
    (v.check_group change (v.discover v.placement.members).1 (v.discover v.placement.members).2
      group).1.pending = 0 := by
  have hfold : ∀ (groups : List GroupId) (acc : RoundOutcome × List CatchUp),
      (groups.foldl (fun acc group =>
        let g := v.check_group change (v.discover v.placement.members).1
          (v.discover v.placement.members).2 group
        ({ verified_groups := acc.1.verified_groups + g.1.verified_groups
           pending := acc.1.pending + g.1.pending }, acc.2 ++ g.2)) acc).1.pending = 0 →
      acc.1.pending = 0 ∧ ∀ group ∈ groups, (v.check_group change
        (v.discover v.placement.members).1 (v.discover v.placement.members).2
        group).1.pending = 0 := by
    intro groups
    induction groups with
    | nil => exact fun acc h => ⟨h, by simp⟩
    | cons group groups ih =>
      intro acc h
      obtain ⟨hacc, hrest⟩ := ih _ h
      simp only at hacc
      refine ⟨by omega, fun g hg => ?_⟩
      rcases List.mem_cons.mp hg with rfl | hg
      · omega
      · exact hrest g hg
  unfold round at h
  split at h
  · cases h
  · have hmem := List.mem_range.mpr hg
    generalize List.range NUM_GROUPS = groups at h hmem
    exact (hfold groups ({}, []) h).2 group hmem

theorem check_group_pending {keys : BTreeMap GroupId (BTreeSet String)}
    {answered : BTreeSet NodeId} (hset : set = (v.placement_at group).group_replica_set group)
    (h : (v.check_group change keys answered group).1.pending = 0) :
    (Quorum.joint set.length (prefix_len change set)).met_by
        (indices (fun n => answered.contains n) set) = true ∧
      ∀ key ∈ keys[group]?.getD ∅, v.key_is_safe key set
        (Quorum.joint set.length (prefix_len change set)) (new_len change set)
        (new_len change set / 2 + 1) change.since = true := by
  unfold check_group at h
  simp only [← hset] at h
  split at h
  · simp at h
  · rename_i hmet
    refine ⟨by simpa using hmet, fun key hkey => ?_⟩
    have hnone := List.eq_nil_of_length_eq_zero h
    rw [List.filter_eq_nil_iff] at hnone
    have := hnone key (Std.ExtTreeSet.mem_toList.mpr hkey)
    simpa using this

def Listed (v : ChangeVerifier) (key : String) : Prop :=
  key ∈ v.own_keys ∨ ∃ a ∈ v.answers v.placement.members, key ∈ a.2

variable {key : String}

theorem discover_keys (h : v.Listed key) :
    key ∈ (v.discover v.placement.members).1[group_of_key key]?.getD ∅ := by
  have hinsert : ∀ (keys : List String) (set : BTreeSet String), key ∈ keys ∨ key ∈ set →
      key ∈ keys.foldl (fun (set : BTreeSet String) key => set.insert key) set := by
    intro keys
    induction keys with
    | nil => simp
    | cons k keys ih =>
      intro set hk
      apply ih
      rw [Std.ExtTreeSet.mem_insert]
      rcases hk with hk | hk
      · rcases List.mem_cons.mp hk with rfl | hk
        · exact Or.inr (Or.inl Std.ReflCmp.compare_self)
        · exact Or.inl hk
      · exact Or.inr (Or.inr hk)
  unfold discover
  simp only
  rw [BTreeMap.get_groupFold]
  apply hinsert
  left
  rw [List.mem_filter, List.mem_append, List.mem_flatMap]
  exact ⟨h, by simp⟩

variable {m : NodeId}

theorem discover_answered (h : (v.discover v.placement.members).2.contains m = true) :
    m = v.node ∨ ∃ a ∈ v.answers v.placement.members, a.1 = m := by
  have hfold : ∀ (as : List (NodeId × List String)) (set : BTreeSet NodeId),
      m ∈ as.foldl (fun (set : BTreeSet NodeId) a => set.insert a.1) set →
      m ∈ set ∨ ∃ a ∈ as, a.1 = m := by
    intro as
    induction as with
    | nil => exact fun set h => Or.inl h
    | cons a as ih =>
      intro set h
      rcases ih _ h with h | ⟨b, hb, rfl⟩
      · rw [Std.ExtTreeSet.mem_insert] at h
        rcases h with h | h
        · exact Or.inr ⟨a, List.mem_cons_self, Std.LawfulEqCmp.eq_of_compare h⟩
        · exact Or.inl h
      · exact Or.inr ⟨b, List.mem_cons_of_mem a hb, rfl⟩
  rcases hfold _ _ (Std.ExtTreeSet.mem_iff_contains.mpr h) with h | h
  · rw [Std.ExtTreeSet.mem_insert] at h
    rcases h with h | h
    · exact Or.inl (Std.LawfulEqCmp.eq_of_compare h).symm
    · simp at h
  · exact Or.inr h

def read_of (v : ChangeVerifier) (key : String) (m : NodeId) : Option ReplicaRead :=
  if m = v.node then some (v.local_read key) else v.read_replica m key

def answered_reads (v : ChangeVerifier) (key : String) (set : List NodeId) : List ReplicaRead :=
  (v.reads key set).filterMap id

theorem mem_answered_reads {r : ReplicaRead} (hm : m ∈ set) (hr : v.read_of key m = some r) :
    r ∈ v.answered_reads key set := by
  unfold answered_reads reads
  rw [List.filterMap_map, List.mem_filterMap]
  exact ⟨m, hm, hr⟩

theorem key_is_safe_spec {quorum : Quorum} {new_len need : Nat} {since : Epoch}
    (h : v.key_is_safe key set quorum new_len need since = true) :
    quorum.met_by (indices (fun m => (v.read_of key m).isSome) set) = true ∧
      ∀ e ∈ merge_replica_logs_tagged (v.answered_reads key set), e.epoch ≤ since →
        need ≤ (set.take new_len).countP
          (fun m => (v.read_of key m).any (fun r => holds r e.offset e.record)) := by
  have hmap : indices Option.isSome (v.reads key set) =
      indices (fun m => (v.read_of key m).isSome) set := by
    unfold indices reads
    rw [List.zipIdx_map, List.filter_map, List.map_map]
    rfl
  unfold key_is_safe at h
  simp only [hmap] at h
  split at h
  · cases h
  · rename_i hmet
    refine ⟨by simpa using hmet, fun e he hle => ?_⟩
    rw [List.all_eq_true] at h
    have hcount := h e (List.mem_filter.mpr ⟨he, by simpa using hle⟩)
    rw [decide_eq_true_eq] at hcount
    refine Nat.le_trans hcount (Nat.le_of_eq ?_)
    unfold reads
    rw [← List.map_take, List.filterMap_map, List.countP_filterMap]
    refine List.countP_congr (fun m _ => ?_)
    change ((v.read_of key m).map _).getD false = true ↔ _
    rcases v.read_of key m with _ | r
    · simp
    · simp

end ChangeVerifier

/-! ## The copies during a round -/

/-- The copies of the nodes when a round starts, and the calls that each of them serves until
the round returns: ops of the owners, also those that re-commit a key, and raised fences. -/
structure Copies where
  start : NodeId → ReplicaState
  served : NodeId → List ((Nat → Bool) × ReplicaState.Call)

namespace Copies

/-- The copy when the round returns. -/
def final (w : Copies) (m : NodeId) : ReplicaState := (w.start m).serve (w.served m)

/-- A state that the copy goes through. -/
def Passes (w : Copies) (m : NodeId) (s : ReplicaState) : Prop :=
  ∃ n, s = (w.start m).serve ((w.served m).take n)

/-- The copy is read while it goes through its states: at one moment, or page by page, each
offset at the moment of its page. The low-water is the highest of the pages. -/
structure ReadOf (w : Copies) (m : NodeId) (key : String) (r : ReplicaRead) : Prop where
  low : ∃ s, w.Passes m s ∧ r.watermark = s.watermark key
  slot : ∀ o, r.watermark < o → ∃ s, w.Passes m s ∧ s.watermark key ≤ r.watermark ∧
    ∀ v, EpochEntry.of o v ∈ r.entries ↔ held s.logs key o = some v

structure Answers (w : Copies) (v : ChangeVerifier) : Prop where
  own_keys : ∃ s, w.Passes v.node s ∧ v.own_keys = s.keys
  keys_of : ∀ m ks, v.keys_of m = some ks → ∃ s, w.Passes m s ∧ ks = s.keys
  local_read : ∀ key, w.ReadOf v.node key (v.local_read key)
  read_replica : ∀ m key r, v.read_replica m key = some r → w.ReadOf m key r

/-- When the round returns, the copy has the record of the entry or a tag that is not below it,
or the offset is truncated there, or the key was removed above `since`. -/
def Safe (w : Copies) (since : Epoch) (key : String) (e : EpochEntry) (m : NodeId) : Prop :=
  (w.final m).Covered key e.offset (fun u => u.2 = e.record ∨ e.tag ≤ u.1) ∨
    ReplicaState.Removes since key (w.start m) (w.served m)

/-- Members that meet the joint rule had the entry, or a newer attempt, or had it truncated. -/
def JointlyCommitted (w : Copies) (change : ReplicaChange) (set : List NodeId) (key : String)
    (e : EpochEntry) : Prop :=
  ∃ p : NodeId → Bool, (Quorum.joint set.length (ChangeVerifier.prefix_len change set)).met_by
      (ChangeVerifier.indices p set) = true ∧
    ∀ m ∈ set, p m = true → ∃ s, w.Passes m s ∧ s.Covered key e.offset (fun u => e.tag ≤ u.1)

variable {w : Copies} {since : Epoch} {key : String} {m : NodeId}

variable {s : ReplicaState} {o : Offset} {P : Stored → Prop}

theorem final_covered (hf : since < (w.start m).fence_for_key key) (hs : w.Passes m s)
    (hP : ∀ v e q r, P v → since < e → v.1 ≤ tag e q → P (tag e q, r)) (h : s.Covered key o P) :
    (w.final m).Covered key o P ∨
      ReplicaState.Removes since key (w.start m) (w.served m) := by
  obtain ⟨n, rfl⟩ := hs
  have hsplit : w.served m = (w.served m).take n ++ (w.served m).drop n :=
    (List.take_append_drop n _).symm
  have hfence : since < ((w.start m).serve ((w.served m).take n)).fence_for_key key :=
    Nat.lt_of_lt_of_le hf (ReplicaState.serve_fence _ _ _)
  unfold final
  rw [hsplit, ReplicaState.serve_append, ReplicaState.removes_append]
  rcases ReplicaState.serve_covered ((w.served m).drop n) hfence hP h with h | h
  · exact Or.inl h
  · exact Or.inr (Or.inr h)

theorem passes_covered (hf : since < (w.start m).fence_for_key key) (hs : w.Passes m s)
    (hP : ∀ v e q r, P v → since < e → v.1 ≤ tag e q → P (tag e q, r))
    (h : (w.start m).Covered key o P) :
    s.Covered key o P ∨ ReplicaState.Removes since key (w.start m) (w.served m) := by
  obtain ⟨n, rfl⟩ := hs
  rcases ReplicaState.serve_covered ((w.served m).take n) hf hP h with h | h
  · exact Or.inl h
  · have hall := (ReplicaState.removes_append since key (w.start m) ((w.served m).take n)
      ((w.served m).drop n)).mpr (Or.inl h)
    rw [List.take_append_drop] at hall
    exact Or.inr hall

variable {r : ReplicaRead}

theorem read_holds (hr : w.ReadOf m key r) {record : Bytes} (h : holds r o record = true) :
    ∃ s, w.Passes m s ∧ s.Covered key o (fun u => u.2 = record) := by
  rcases Nat.lt_or_ge r.watermark o with hlt | hle
  · obtain ⟨s, hs, -, hslot⟩ := hr.slot o hlt
    have hnot : ¬o ≤ r.watermark := Nat.not_le.mpr hlt
    simp only [holds, hnot, decide_false, Bool.false_or, List.any_eq_true, Bool.and_eq_true,
      decide_eq_true_eq] at h
    obtain ⟨e, he, rfl, rfl⟩ := h
    exact ⟨s, hs, Or.inl ⟨_, (hslot (e.tag, e.record)).mp (by rwa [e.of_eta]), rfl⟩⟩
  · obtain ⟨s, hs, hlow⟩ := hr.low
    exact ⟨s, hs, Or.inr (by rwa [← hlow])⟩

variable {v : ChangeVerifier}

theorem read_of_readOf (ha : w.Answers v) (h : v.read_of key m = some r) : w.ReadOf m key r := by
  unfold ChangeVerifier.read_of at h
  split at h
  · rename_i hm
    cases h
    rw [hm]
    exact ha.local_read key
  · exact ha.read_replica m key r h

theorem listed_of_answered (ha : w.Answers v)
    (hans : (v.discover v.placement.members).2.contains m = true)
    (hkey : ∀ s, w.Passes m s → key ∈ s.keys) : v.Listed key := by
  rcases ChangeVerifier.discover_answered hans with rfl | ⟨a, hmem, rfl⟩
  · obtain ⟨s, hs, hkeys⟩ := ha.own_keys
    exact Or.inl (hkeys ▸ hkey s hs)
  · refine Or.inr ⟨a, hmem, ?_⟩
    unfold ChangeVerifier.answers at hmem
    rw [List.mem_filterMap] at hmem
    obtain ⟨peer, -, hpeer⟩ := hmem
    rw [Option.map_eq_some_iff] at hpeer
    obtain ⟨ks, hks, rfl⟩ := hpeer
    obtain ⟨s, hs, rfl⟩ := ha.keys_of peer ks hks
    exact hkey s hs

variable {change : ReplicaChange} {set : List NodeId}

/-- The old set has a majority that the round heard, so a key that a majority of it holds all
the time is listed. -/
theorem listed_of_majority (ha : w.Answers v) (hn : set.Nodup)
    (hmet : (Quorum.joint set.length (ChangeVerifier.prefix_len change set)).met_by
      (ChangeVerifier.indices
        (fun n => (v.discover v.placement.members).2.contains n) set) = true)
    (h : Majority.Of (ChangeVerifier.old_set change set) (fun m => ∀ s, w.Passes m s → key ∈ s.keys)) :
    v.Listed key := by
  have hheard := (ChangeVerifier.majorities_of_joint hmet (fun _ _ hm => hm)).1
  obtain ⟨m, -, hm, hkeys⟩ := Majority.of_meet (hn.sublist (List.take_sublist _ _)) hheard h
  exact listed_of_answered ha hm hkeys

variable {e : EpochEntry}

/-- An entry that the check counts at a copy is there when the round returns. -/
theorem safe_of_holds (ha : w.Answers v) (hf : since < (w.start m).fence_for_key key)
    (he : e.epoch ≤ since) (h : (v.read_of key m).any (fun r => holds r e.offset e.record) = true) :
    w.Safe since key e m := by
  rw [Option.any_eq_true] at h
  obtain ⟨r, hr, hh⟩ := h
  obtain ⟨s, hs, hcov⟩ := read_holds (read_of_readOf ha hr) hh
  refine final_covered hf hs (fun v e' q r _ hlt _ => Or.inr ?_) ?_
  · exact (tag_le_iff _ _ _ _).mpr (Or.inl (Nat.lt_of_le_of_lt he hlt))
  · exact hcov.imp (fun ⟨u, hu, hrec⟩ => ⟨u, hu, Or.inl hrec⟩) id

theorem safe_of_jointly_committed (hf : ∀ m, since < (w.start m).fence_for_key key)
    (h : w.JointlyCommitted change set key e) :
    Majority.Of (ChangeVerifier.new_set change set) (w.Safe since key e) := by
  obtain ⟨p, hmet, hp⟩ := h
  refine (ChangeVerifier.majorities_of_joint hmet (fun m hm hpm => ?_)).2
  obtain ⟨s, hs, hcov⟩ := hp m hm hpm
  have hend := final_covered (P := fun u => e.tag ≤ u.1) (hf m) hs
    (fun _ _ _ _ hv _ hle => le_trans hv hle) hcov
  refine hend.imp_left (fun h => ?_)
  exact h.imp (fun ⟨u, hu, hle⟩ => ⟨u, hu, Or.inr hle⟩) id

/-- An entry that a majority of the old set had is among the reads, or a newer attempt, or the
reads know it truncated, or its key went. -/
theorem read_of_old_majority (ha : w.Answers v) (hn : set.Nodup)
    (hf : ∀ m, since < (w.start m).fence_for_key key)
    (hread : Majority.Of (ChangeVerifier.old_set change set)
      (fun m => (v.read_of key m).isSome = true))
    (h : Majority.Of (ChangeVerifier.old_set change set)
      (fun m => (w.start m).Covered key e.offset (fun u => e.tag ≤ u.1))) :
    (∃ e', Has (v.answered_reads key set) e' ∧ e'.offset = e.offset ∧ e.tag ≤ e'.tag) ∨
      e.offset ≤ low_water (v.answered_reads key set) ∨
      ∃ m ∈ ChangeVerifier.old_set change set,
        ReplicaState.Removes since key (w.start m) (w.served m) := by
  obtain ⟨m, hm, hsome, hcov⟩ := Majority.of_meet (hn.sublist (List.take_sublist _ _)) hread h
  obtain ⟨r, hr⟩ := Option.isSome_iff_exists.mp hsome
  have hmem := ChangeVerifier.mem_answered_reads (List.mem_of_mem_take hm) hr
  rcases Nat.lt_or_ge r.watermark e.offset with hlt | hle
  · obtain ⟨s, hs, hlow, hslot⟩ := (read_of_readOf ha hr).slot e.offset hlt
    rcases passes_covered (P := fun u => e.tag ≤ u.1) (hf m) hs
      (fun _ _ _ _ hv _ hle => le_trans hv hle) hcov with hc | hgone
    · rcases hc with ⟨u, hu, hge⟩ | hpast
      · exact Or.inl ⟨EpochEntry.of e.offset u, ⟨r, hmem, (hslot u).mpr hu⟩, rfl, hge⟩
      · exact absurd (Nat.le_trans hpast hlow) (Nat.not_le.mpr hlt)
    · exact Or.inr (Or.inr ⟨m, hm, hgone⟩)
  · exact Or.inr (Or.inl (Nat.le_trans hle (low_water_le hmem)))

/-- A round that returns with nothing pending has read every key that some answer lists, and so
every key that a majority of the old set holds, from a majority of both sets. Whatever these
reads merge to is safe on a majority of the new set: what is at or below `since` by the check,
what is above it if the joint rule committed it. And an entry that a majority of the old set had
is among what they merge to, or a newer attempt at its offset, unless it is truncated or
removed, or the reads have a hole below it. -/
theorem nothing_pending_is_safe (v : ChangeVerifier) (change : ReplicaChange) (w : Copies)
    (ha : w.Answers v) (hf : ∀ m key, change.since < (w.start m).fence_for_key key)
    (hround : (v.round change).1.pending = 0) (key : String) (set : List NodeId)
    (hset : set = (v.placement_at (group_of_key key)).group_replica_set (group_of_key key))
    (hkey : v.Listed key ∨ Majority.Of (ChangeVerifier.old_set change set)
      (fun m => ∀ s, w.Passes m s → key ∈ s.keys)) :
    Majority.Of (ChangeVerifier.old_set change set) (fun m => (v.read_of key m).isSome = true) ∧
      Majority.Of (ChangeVerifier.new_set change set) (fun m => (v.read_of key m).isSome = true) ∧
      (∀ e ∈ merge_replica_logs_tagged (v.answered_reads key set),
        (change.since < e.epoch → w.JointlyCommitted change set key e) →
        Majority.Of (ChangeVerifier.new_set change set) (w.Safe change.since key e)) ∧
      ∀ e : EpochEntry, Majority.Of (ChangeVerifier.old_set change set)
          (fun m => (w.start m).Covered key e.offset (fun u => e.tag ≤ u.1)) →
        HoleFree (v.answered_reads key set) e.offset →
        (∃ e' ∈ merge_replica_logs_tagged (v.answered_reads key set),
          e'.offset = e.offset ∧ e.tag ≤ e'.tag) ∨
        e.offset ≤ low_water (v.answered_reads key set) ∨
        ∃ m ∈ ChangeVerifier.old_set change set,
          ReplicaState.Removes change.since key (w.start m) (w.served m) := by
  have hn : set.Nodup := by
    rw [hset]
    exact Placement.group_replica_set_nodup _ _
  obtain ⟨hmet, hsafe⟩ := ChangeVerifier.check_group_pending hset
    (ChangeVerifier.round_pending hround (group_of_key_lt key))
  have hlisted : v.Listed key := by
    rcases hkey with h | h
    · exact h
    · exact listed_of_majority ha hn hmet h
  obtain ⟨hread, hcount⟩ := ChangeVerifier.key_is_safe_spec
    (hsafe key (ChangeVerifier.discover_keys hlisted))
  obtain ⟨hold, hnew⟩ := ChangeVerifier.majorities_of_joint hread (fun _ _ hm => hm)
  refine ⟨hold, hnew, fun e he hjoint => ?_, fun e hmaj hfree => ?_⟩
  · rcases Nat.lt_or_ge change.since e.epoch with habove | hbelow
    · exact safe_of_jointly_committed (fun m => hf m key) (hjoint habove)
    · have hlen : (ChangeVerifier.new_set change set).length = ChangeVerifier.new_len change set := by
        refine List.length_take_of_le ?_
        unfold ChangeVerifier.new_len
        split
        · exact Nat.min_le_right _ _
        · exact Nat.le_refl _
      refine Majority.of_countP (by rw [hlen]; exact hcount e he hbelow) (fun m _ hm => ?_)
      exact safe_of_holds ha (hf m key) hbelow hm
  · rcases read_of_old_majority ha hn (fun m => hf m key) hold hmaj with ⟨e', hhas, ho, hle⟩ | h
    · rcases Nat.lt_or_ge (low_water (v.answered_reads key set)) e.offset with hlow | hlow
      · left
        obtain ⟨u, hu, hge⟩ := (newest_spec (v.answered_reads key set)).ge e' hhas (ho ▸ hlow)
        rw [ho] at hu
        refine ⟨EpochEntry.of e.offset u, (mem_merge _ _).mpr ⟨hu, hfree⟩, rfl, le_trans hle hge⟩
      · exact Or.inr (Or.inl hlow)
    · exact Or.inr h

/-! ## Rounds on copies that stand still -/

/-- A round whose answers are all taken at its start; the silent nodes do not answer. -/
def snapshot (w : Copies) (placement : Placement) (silent : NodeId → Bool) : ChangeVerifier where
  node := placement.node
  placement
  placement_at := fun _ => placement
  own_keys := (w.start placement.node).keys
  keys_of m := if silent m then none else some (w.start m).keys
  local_read key := (w.start placement.node).read key true
  read_replica m key := if silent m then none else some ((w.start m).read key true)

theorem passes_start (w : Copies) (m : NodeId) : w.Passes m (w.start m) := ⟨0, rfl⟩

theorem readOf_start (w : Copies) (m : NodeId) (key : String) :
    w.ReadOf m key ((w.start m).read key true) := by
  refine ⟨⟨_, w.passes_start m, rfl⟩, fun o _ => ⟨_, w.passes_start m, Nat.le_refl _, fun v => ?_⟩⟩
  exact (w.start m).mem_epoch_entries key (EpochEntry.of o v)

theorem snapshot_answers (w : Copies) (placement : Placement) (silent : NodeId → Bool) :
    w.Answers (w.snapshot placement silent) := by
  refine ⟨⟨_, w.passes_start _, rfl⟩, fun m ks h => ?_, fun key => w.readOf_start _ key,
    fun m key r h => ?_⟩
  · simp only [snapshot] at h
    split at h
    · cases h
    · cases h
      exact ⟨_, w.passes_start m, rfl⟩
  · simp only [snapshot] at h
    split at h
    · cases h
    · cases h
      exact w.readOf_start m key

/-- A replica with no store that got some ops before its fences were raised. -/
def raisedCopy (ops : List (Epoch × ReplOp)) (floor : Epoch) : ReplicaState :=
  ((ReplicaState.apply_all {} ops).raise_fences (fun _ => true) floor).2

/-- Copies that get nothing more once their fences are raised. -/
def still (ops : NodeId → List (Epoch × ReplOp)) (floor : Epoch) : Copies where
  start m := raisedCopy (ops m) floor
  served _ := []

theorem raisedCopy_fence (ops : List (Epoch × ReplOp)) (floor : Epoch) (key : String) :
    floor ≤ (raisedCopy ops floor).fence_for_key key := by
  refine ReplicaState.raise_fences_ge _ _ _ ?_ _ (group_of_key_lt key)
  have hdbs : (ReplicaState.apply_all {} ops).dbs = [] := (ReplicaState.apply_all_frame {} ops).2.2
  unfold ReplicaState.raise_fences ReplicaState.persist_batch
  simp only [hdbs]
  split <;> rfl

theorem raisedCopy_logs (ops : List (Epoch × ReplOp)) (floor : Epoch) :
    (raisedCopy ops floor).logs = (ReplicaState.apply_all {} ops).logs := by
  unfold raisedCopy ReplicaState.raise_fences
  simp only
  split
  · rfl
  · split <;> rfl

theorem raisedCopy_read (ops : List (Epoch × ReplOp)) (floor : Epoch) (key : String) :
    (raisedCopy ops floor).read key true = (ReplicaState.apply_all {} ops).read key true := by
  unfold raisedCopy ReplicaState.raise_fences
  simp only
  split
  · rfl
  · split <;> rfl

theorem raisedCopy_below {ops : List (Epoch × ReplOp)} {since : Epoch}
    (h : ∀ p ∈ ops, p.1 ≤ since) (floor : Epoch) {key : String} {u : Stored}
    (hu : held (raisedCopy ops floor).logs key o = some u) : u.1.epoch ≤ since := by
  have hslot : ∀ (ops : List (Epoch × ReplOp)) (v : Option Stored), (∀ p ∈ ops, p.1 ≤ since) →
      (∀ u, v = some u → u.1.epoch ≤ since) →
      ∀ u, ops.foldl (slotStep key o) v = some u → u.1.epoch ≤ since := by
    intro ops
    induction ops with
    | nil => exact fun v _ hv => hv
    | cons p ops ih =>
      intro v hops hv
      refine ih _ (fun q hq => hops q (List.mem_cons_of_mem p hq)) (fun u hu => ?_)
      have hp := hops p List.mem_cons_self
      obtain ⟨e, op⟩ := p
      cases op with
      | Append k o' q r =>
        simp only [slotStep, slotEvent] at hu
        split at hu
        · cases hu
          exact hp
        · exact hv u hu
      | Truncate k t =>
        simp only [slotStep, slotEvent] at hu
        split at hu
        · cases hu
        · exact hv u hu
      | Remove k =>
        simp only [slotStep, slotEvent] at hu
        split at hu
        · cases hu
        · exact hv u hu
  rw [raisedCopy_logs, ReplicaState.held_apply_all] at hu
  exact hslot ops _ h (by simp) u hu

/-- The round returns with nothing pending; the fences are above `since`, and no entry is; and a
majority of the old set merges to an entry that no majority of the new set has. -/
def Misses (v : ChangeVerifier) (change : ReplicaChange) (w : Copies) : Prop :=
  w.Answers v ∧ (∀ m key, change.since < (w.start m).fence_for_key key) ∧
    (∀ m s, w.Passes m s → ∀ key o u, held s.logs key o = some u → u.1.epoch ≤ change.since) ∧
    (v.round change).1.pending = 0 ∧
    ∃ (key : String) (set ms : List NodeId) (e : EpochEntry),
      set = (v.placement_at (group_of_key key)).group_replica_set (group_of_key key) ∧
      ms.Sublist (ChangeVerifier.old_set change set) ∧
      (ChangeVerifier.old_set change set).length / 2 + 1 ≤ ms.length ∧
      e ∈ merge_replica_logs_tagged (ms.map (fun m => (w.final m).read key true)) ∧
      ¬Majority.Of (ChangeVerifier.new_set change set) (fun m =>
        ∃ u, held (w.final m).logs key e.offset = some u ∧ (e.tag ≤ u.1 ∨ u.2 = e.record))

theorem still_misses {ops : NodeId → List (Epoch × ReplOp)}
    (hops : ∀ m, ∀ p ∈ ops m, p.1 ≤ change.since) {floor : Epoch} (hf : change.since < floor)
    {p : Placement} {silent : NodeId → Bool}
    (hround : (((still ops floor).snapshot p silent).round change).1.pending = 0) (key : String)
    (ms : List NodeId) (e : EpochEntry)
    (hsub : ms.Sublist (ChangeVerifier.old_set change (p.group_replica_set (group_of_key key))))
    (hlen : (ChangeVerifier.old_set change
      (p.group_replica_set (group_of_key key))).length / 2 + 1 ≤ ms.length)
    (he : e ∈ merge_replica_logs_tagged
      (ms.map (fun m => (ReplicaState.apply_all {} (ops m)).read key true)))
    (hfew : (ChangeVerifier.new_set change (p.group_replica_set (group_of_key key))).countP
        (fun m => (held (ReplicaState.apply_all {} (ops m)).logs key e.offset).isSome) <
      (ChangeVerifier.new_set change
        (p.group_replica_set (group_of_key key))).length / 2 + 1) :
    Misses ((still ops floor).snapshot p silent) change (still ops floor) := by
  have hreads : ∀ m, ((still ops floor).final m).read key true =
      (ReplicaState.apply_all {} (ops m)).read key true := fun m => raisedCopy_read (ops m) floor key
  refine ⟨snapshot_answers _ _ _, fun m key => ?_, ?_, hround,
    key, _, ms, e, rfl, hsub, hlen, by simpa only [hreads] using he, fun hmaj => ?_⟩
  · exact Nat.lt_of_lt_of_le hf (raisedCopy_fence (ops m) floor key)
  · rintro m s ⟨n, rfl⟩ key o u hu
    have hstill : (still ops floor).served m = [] := rfl
    rw [hstill, List.take_nil] at hu
    exact raisedCopy_below (hops m) floor hu
  · refine Nat.not_le.mpr hfew (Majority.of_le_countP hmaj ?_)
    rintro m - ⟨u, hu, -⟩
    have hlogs : ((still ops floor).final m).logs = (ReplicaState.apply_all {} (ops m)).logs :=
      raisedCopy_logs (ops m) floor
    rw [← hlogs, hu]
    rfl

/-- Three nodes in a change from two copies to three. -/
def three : Placement where
  node := "a"
  eligible := Std.ExtTreeSet.ofList ["a", "b", "c"]
  replicas := 3
  jointPrefix := some 2

/-- The copies have an entry, and its owner writes it again after they are read. -/
def rewritten : Copies where
  start _ := raisedCopy [(1, .Append "q/k" 1 1 [7])] 2
  served _ := [(fun _ => true, .Apply 2 (.Append "q/k" 1 1 [7]))]

theorem a_key_on_every_copy_is_safe :
    Majority.Of (ChangeVerifier.new_set { from_ := 2, to_ := 3, since := 1 }
        (three.group_replica_set (group_of_key "q/k")))
      (rewritten.Safe 1 "q/k" (EpochEntry.of 1 (tag 1 1, [7]))) := by
  have hf : ∀ m key, 1 < (rewritten.start m).fence_for_key key := by
    intro m key
    unfold rewritten
    dsimp only
    exact Nat.lt_of_lt_of_le Nat.one_lt_two (raisedCopy_fence _ 2 key)
  have hsafe := nothing_pending_is_safe (rewritten.snapshot three (fun _ => false))
    { from_ := 2, to_ := 3, since := 1 } rewritten (snapshot_answers _ _ _)
    hf (by decide +kernel) "q/k" _ rfl (Or.inl (Or.inl (by decide +kernel)))
  exact hsafe.2.2.1 _ (by decide +kernel) (fun h => absurd h (by decide))

/-- Five nodes in a change from three copies to five. -/
def five : Placement where
  node := "a"
  eligible := Std.ExtTreeSet.ofList ["a", "b", "c", "d", "e"]
  replicas := 5
  jointPrefix := some 3

theorem five_set : five.group_replica_set (group_of_key "q/k") = ["d", "a", "c", "e", "b"] := by
  decide +kernel

def orphan (m : NodeId) : List (Epoch × ReplOp) :=
  if m = "c" then [(1, .Append "q/k" 1 1 [7])] else []

/-- Two nodes have an entry that the others have truncated. -/
def behind (m : NodeId) : List (Epoch × ReplOp) :=
  if m = "a" ∨ m = "c" then [(1, .Append "q/k" 1 1 [7])] else [(1, .Truncate "q/k" 1)]

/-- The node with the orphan does not answer, and the round does not know of the key; or the
truncate is above the entry, and the round does not merge it. -/
theorem a_round_misses_what_it_does_not_merge :
    Misses ((still orphan 2).snapshot five (fun m => m = "c"))
        { from_ := 3, to_ := 5, since := 1 } (still orphan 2) ∧
      Misses ((still behind 2).snapshot five (fun _ => false))
        { from_ := 3, to_ := 5, since := 1 } (still behind 2) := by
  constructor
  · apply still_misses _ _ _ "q/k" ["a", "c"] (EpochEntry.of 1 (tag 1 1, [7]))
    · rw [five_set]
      decide +kernel
    · rw [five_set]
      decide +kernel
    · decide +kernel
    · rw [five_set]
      decide +kernel
    · intro m
      unfold orphan
      split <;> decide
    · decide
    · decide +kernel
  · apply still_misses _ _ _ "q/k" ["a", "c"] (EpochEntry.of 1 (tag 1 1, [7]))
    · rw [five_set]
      decide +kernel
    · rw [five_set]
      decide +kernel
    · decide +kernel
    · rw [five_set]
      decide +kernel
    · intro m
      unfold behind
      split <;> decide
    · decide
    · decide +kernel

end Copies

end replica_change

end mqtt_cluster
