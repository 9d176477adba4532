-- The takeover of a key (`cluster_store.rs`): the new owner reads a quorum of the
-- copies, commits again under its own epoch what it merges from them, and serves
-- appends once that has reached a quorum.
import MqttBroker.Cluster.Copies

namespace mqtt_cluster.cluster_log

open placement mqtt_storage.repl

/-! ## A recovery -/

def highest_tag (reads : List ReplicaRead) : Option Tag :=
  ((reads.flatMap (fun r => r.entries)).map EpochEntry.tag).max?

/-- Which invariant a recovery was refused for. -/
inductive RecoveryRefusal
  | BelowQuorum
  | RosterUnknown
  | RosterUnobservable
  | RosterStale
  | RosterMemberSilent
  | UnionGap
  deriving DecidableEq, Repr

/-- What a recovery found: the entries, the highest low-water and the highest tag. -/
abbrev Recovery := Except RecoveryRefusal (List EpochEntry × Offset × Option Tag)

/-- The members of the roster that are asked beside the set. -/
def roster_extras (me : NodeId) (replica_set : List NodeId) (known : List NodeId) : List NodeId :=
  known.filter (fun n => n ≠ me && !replica_set.contains n)

/-- The sweep of the roster, whose members that can be observed are `known` and the others are
counted by `unknown`. The answers of the members that are asked come in the order of `sweep`. -/
def recover_key_from_roster (me : NodeId) (replica_set : List NodeId)
    (durable_roster : Option (List NodeId × Nat))
    (sweep : List NodeId → List (Option ReplicaRead)) (reads : List ReplicaRead) : Recovery :=
  match durable_roster with
  | none => .error .RosterUnknown
  | some (known, unknown) =>
    if 0 < unknown then .error .RosterUnobservable
    else if !known.contains me then .error .RosterStale
    else
      let extras := roster_extras me replica_set known
      let answered := (sweep extras).filterMap id
      if answered.length < extras.length then .error .RosterMemberSilent
      else
        let reads := reads ++ answered
        let floor := low_water reads
        let merged := merge_replica_logs_tagged reads
        let served_high := floor + merged.length
        -- Whatever was read above what the merge serves would be lost.
        if (reads.flatMap (fun r => r.entries)).any (fun e => decide (served_high < e.offset)) then
          .error .UnionGap
        else .ok (merged, floor, highest_tag reads)

/-- The reads are enough: a quorum by position, and one of them without a hole. -/
def enough (quorum : Quorum) (reads : List ReplicaRead) (read_from : List Nat) : Bool :=
  quorum.met_by read_from && reads.any (fun r => r.complete)

/-- The answers of the members are taken as they come in, until they are enough. -/
def take_answers (quorum : Quorum) :
    List (Nat × Option ReplicaRead) → List ReplicaRead → List Nat → List ReplicaRead × List Nat
  | [], reads, read_from => (reads, read_from)
  | (i, answer) :: rest, reads, read_from =>
    if enough quorum reads read_from then (reads, read_from)
    else match answer with
      | some read => take_answers quorum rest (reads ++ [read]) (read_from ++ [i])
      | none => take_answers quorum rest reads read_from

/-- The log of a key from the owner's own copy and the answers of the other members of its set,
each with its position. -/
def recover_key (me : NodeId) (replica_set : List NodeId) (quorum : Quorum) (own : ReplicaRead)
    (answers : List (Nat × Option ReplicaRead)) (durable_roster : Option (List NodeId × Nat))
    (sweep : List NodeId → List (Option ReplicaRead)) : Recovery :=
  let (reads, read_from) :=
    take_answers quorum answers [own] (replica_set.findIdx? (fun n => n = me)).toList
  if !quorum.met_by read_from then .error .BelowQuorum
  else if !reads.any (fun r => r.complete) then
    recover_key_from_roster me replica_set durable_roster sweep reads
  else .ok (merge_replica_logs_tagged reads, low_water reads, highest_tag reads)

/-- The tags of a run that is committed again at an epoch, from `prev` on. -/
def retag (epoch : Epoch) : Nat → List EpochEntry → List EpochEntry
  | _, [] => []
  | prev, e :: rest =>
    let seq := if e.epoch = epoch then max e.seq (prev + 1) else prev + 1
    { e with epoch, seq } :: retag epoch seq rest

/-- Every op of a re-commit has a quorum of acks: `own` tells of which the owner's copy is
durable, and `(i, f)` is the ack of follower `f` for the op at `i`. -/
def recommitted (log : ClusterLog) (ops : List ReplOp) (own : Nat → Bool)
    (acks : List (Nat × Nat)) : Bool :=
  (List.range ops.length).all (fun i =>
    log.quorum.met (log.tally_of (own i) ((acks.filter (fun a => a.1 = i)).map (fun a => a.2))))

/-! ## The sweep drops nothing -/

/-- What keeps the reads from being one history: an offset that no read has below one that is
read, or an offset whose newest attempt is older than one right below it. -/
inductive Torn (reads : List ReplicaRead) : Prop
  | gap (offset : Offset) (x : EpochEntry) (hx : Has reads x) (hlow : low_water reads < offset)
      (hbelow : offset < x.offset) (hnone : ∀ y, Has reads y → y.offset ≠ offset)
  | regression (x : EpochEntry) (hx : Has reads x) (hlow : low_water reads < x.offset)
      (hnext : ∃ y, Has reads y ∧ y.offset = x.offset + 1)
      (hless : ∀ y, Has reads y → y.offset = x.offset + 1 → y.tag < x.tag)

theorem offsets_of_gapless {run : List EpochEntry} {first : EpochEntry}
    (h : (first :: run).IsChain (fun a b => b.offset = a.offset + 1)) :
    (first :: run).map EpochEntry.offset = List.range' first.offset (run.length + 1) := by
  induction run generalizing first with
  | nil => rfl
  | cons e run ih =>
    obtain ⟨hnext, hrest⟩ := List.isChain_cons_cons.mp h
    rw [List.map_cons, ih hrest, hnext]
    rfl

theorem roster_ok {me : NodeId} {replica_set : List NodeId} {roster : Option (List NodeId × Nat)}
    {sweep : List NodeId → List (Option ReplicaRead)} {reads : List ReplicaRead}
    {log : List EpochEntry} {floor : Offset} {high : Option Tag}
    (h : recover_key_from_roster me replica_set roster sweep reads = .ok (log, floor, high)) :
    ∃ known, roster = some (known, 0) ∧
      let all := reads ++ (sweep (roster_extras me replica_set known)).filterMap id
      log = merge_replica_logs_tagged all ∧ floor = low_water all ∧
        ∀ x, Has all x → x.offset ≤ floor + log.length := by
  unfold recover_key_from_roster at h
  rcases roster with _ | ⟨known, unknown⟩
  · cases h
  dsimp only at h
  split at h
  · cases h
  rename_i hzero
  split at h
  · cases h
  split at h
  · cases h
  split at h
  · cases h
  rename_i hnone
  obtain ⟨rfl, rfl, -⟩ : _ ∧ _ ∧ _ := by simpa using h
  obtain rfl : unknown = 0 := by omega
  refine ⟨known, rfl, rfl, rfl, ?_⟩
  rintro x ⟨r, hr, hx⟩
  by_contra hlt
  refine hnone (List.any_eq_true.mpr ⟨x, List.mem_flatMap.mpr ⟨r, hr, hx⟩, ?_⟩)
  exact decide_eq_true (Nat.lt_of_not_le hlt)

theorem offsets_of_served {reads : List ReplicaRead}
    (hmax : ∀ x, Has reads x → x.offset ≤ low_water reads + (merge_replica_logs_tagged reads).length) :
    (merge_replica_logs_tagged reads).map EpochEntry.offset =
      List.range' (low_water reads + 1) (merge_replica_logs_tagged reads).length := by
  have hrun := merge_isRun reads
  rcases hm : merge_replica_logs_tagged reads with _ | ⟨first, run⟩
  · rfl
  rw [hm] at hrun hmax
  have hoff := offsets_of_gapless hrun.gapless
  have habove := (hrun.newest first List.mem_cons_self).above
  -- The last offset of the run is read, and not above what is served.
  have hlast : first.offset + run.length ∈ (first :: run).map EpochEntry.offset := by
    rw [hoff]
    exact List.mem_range'_1.mpr ⟨Nat.le_add_right _ _, by unfold Offset at *; omega⟩
  obtain ⟨e, he, hel⟩ := List.mem_map.mp hlast
  have hle := hmax e (hrun.newest e he).has
  have hfirst : first.offset = low_water reads + 1 := by
    rw [hel, List.length_cons] at hle
    unfold Offset at *
    omega
  rw [hoff, hfirst]
  rfl

theorem served_has {reads : List ReplicaRead}
    (hmax : ∀ x, Has reads x → x.offset ≤ low_water reads + (merge_replica_logs_tagged reads).length)
    {x : EpochEntry} (hx : Has reads x) (hlow : low_water reads < x.offset) :
    ∃ e ∈ merge_replica_logs_tagged reads, e.offset = x.offset ∧ IsNewest reads e := by
  have hmem : x.offset ∈ (merge_replica_logs_tagged reads).map EpochEntry.offset := by
    rw [offsets_of_served hmax, List.mem_range'_1]
    have hle := hmax x hx
    unfold Offset at *
    omega
  obtain ⟨e, he, ho⟩ := List.mem_map.mp hmem
  exact ⟨e, he, ho, (merge_isRun reads).newest e he⟩

theorem torn_above {reads : List ReplicaRead} (ht : Torn reads) :
    ∃ x, Has reads x ∧ low_water reads + (merge_replica_logs_tagged reads).length < x.offset := by
  by_contra hno
  have hmax : ∀ x, Has reads x →
      x.offset ≤ low_water reads + (merge_replica_logs_tagged reads).length :=
    fun x hx => Nat.le_of_not_lt fun hlt => hno ⟨x, hx, hlt⟩
  cases ht with
  | gap offset x hx hlow hbelow hnone =>
    have hmem : offset ∈ (merge_replica_logs_tagged reads).map EpochEntry.offset := by
      rw [offsets_of_served hmax, List.mem_range'_1]
      have hle := hmax x hx
      unfold Offset at *
      omega
    obtain ⟨e, he, ho⟩ := List.mem_map.mp hmem
    exact hnone e ((merge_isRun reads).newest e he).has ho
  | regression x hx hlow hnext hless =>
    obtain ⟨y, hy, hyo⟩ := hnext
    obtain ⟨a, ha, hao, hanew⟩ := served_has hmax hx hlow
    obtain ⟨b, hb, hbo, hbnew⟩ := served_has hmax hy (by rw [hyo]; exact Nat.lt_succ_of_lt hlow)
    have hle : a.tag ≤ b.tag := by
      have hsorted := gapless_sorted (merge_isRun reads).gapless
      have htrans : IsTrans EpochEntry fun a b => a.tag ≤ b.tag := ⟨fun _ _ _ => le_trans⟩
      have hrising := (merge_isRun reads).rising.pairwise
      obtain ⟨i, hi, rfl⟩ := List.mem_iff_getElem.mp ha
      obtain ⟨j, hj, rfl⟩ := List.mem_iff_getElem.mp hb
      rw [List.pairwise_iff_getElem] at hsorted hrising
      rcases Nat.lt_trichotomy i j with hij | rfl | hij
      · exact hrising i j hi hj hij
      · exact le_refl _
      · have hlt := hsorted j i hj hi hij
        rw [hao, hbo, hyo] at hlt
        exact absurd hlt (Nat.not_lt.mpr (Nat.le_succ _))
    exact absurd (hless b hbnew.has (hbo.trans hyo)) (not_lt_of_ge ((hanew.ge x hx hao.symm).trans hle))

/-- A sweep that returns a log returns all that was read above the floor, in a row from it on;
and reads that are torn are refused. -/
theorem the_sweep_drops_nothing_it_read (me : NodeId) (replica_set : List NodeId)
    (roster : Option (List NodeId × Nat)) (sweep : List NodeId → List (Option ReplicaRead))
    (reads : List ReplicaRead) :
    (∀ log floor high,
      recover_key_from_roster me replica_set roster sweep reads = .ok (log, floor, high) →
      ∃ known, roster = some (known, 0) ∧
        let all := reads ++ (sweep (roster_extras me replica_set known)).filterMap id
        (∀ r ∈ all, r.watermark ≤ floor) ∧ (floor = 0 ∨ ∃ r ∈ all, r.watermark = floor) ∧
          log.map EpochEntry.offset = List.range' (floor + 1) log.length ∧
          ∀ x, Has all x → floor < x.offset →
            ∃ e ∈ log, e.offset = x.offset ∧ Has all e ∧
              ∀ y, Has all y → y.offset = x.offset → y.tag ≤ e.tag) ∧
    ∀ known unknown, roster = some (known, unknown) →
      Torn (reads ++ (sweep (roster_extras me replica_set known)).filterMap id) →
      ∃ refusal, recover_key_from_roster me replica_set roster sweep reads = .error refusal := by
  constructor
  · intro log floor high h
    obtain ⟨known, hroster, rfl, rfl, hmax⟩ := roster_ok h
    refine ⟨known, hroster, fun r hr => low_water_le hr, low_water_mem _, offsets_of_served hmax, ?_⟩
    intro x hx hlow
    obtain ⟨e, he, ho, hnew⟩ := served_has hmax hx hlow
    exact ⟨e, he, ho, hnew.has, fun y hy hyo => hnew.ge y hy (hyo.trans ho.symm)⟩
  · intro known unknown hroster htorn
    rcases hr : recover_key_from_roster me replica_set roster sweep reads with refusal | ⟨log, floor, high⟩
    · exact ⟨refusal, rfl⟩
    · obtain ⟨known', hroster', rfl, rfl, hmax⟩ := roster_ok hr
      obtain ⟨rfl, -⟩ := Prod.mk.inj (Option.some.inj (hroster.symm.trans hroster'))
      obtain ⟨x, hx, habove⟩ := torn_above htorn
      exact absurd (hmax x hx) (Nat.not_le_of_lt habove)

/-- A former holder that answers the sweep with the copy. -/
def former (entries : List EpochEntry) (_ : List NodeId) : List (Option ReplicaRead) :=
  [some { entries }]

/-- Two fresh members read nothing, and a former one has the history; if it lacks the first offset
of it, the sweep is refused. -/
theorem a_former_holder_is_swept_whole :
    (∃ high, recover_key_from_roster "a" ["a", "b"] (some (["a", "b", "c"], 0))
      (former [⟨1, 1, 1, [7]⟩, ⟨1, 2, 2, [8]⟩]) [{}, {}] =
        .ok ([⟨1, 1, 1, [7]⟩, ⟨1, 2, 2, [8]⟩], 0, high) ∧
      [⟨1, 1, 1, [7]⟩, ⟨1, 2, 2, [8]⟩].map EpochEntry.offset = List.range' 1 2) ∧
    ∃ refusal, recover_key_from_roster "a" ["a", "b"] (some (["a", "b", "c"], 0))
      (former [⟨1, 2, 2, [8]⟩]) [{}, {}] = .error refusal := by
  constructor
  · have hok : recover_key_from_roster "a" ["a", "b"] (some (["a", "b", "c"], 0))
        (former [⟨1, 1, 1, [7]⟩, ⟨1, 2, 2, [8]⟩]) [{}, {}] =
          .ok ([⟨1, 1, 1, [7]⟩, ⟨1, 2, 2, [8]⟩], 0, some (tag 1 2)) := by decide +kernel
    obtain ⟨known, -, -, -, hoffsets, -⟩ :=
      (the_sweep_drops_nothing_it_read _ _ _ _ _).1 _ _ _ hok
    exact ⟨_, hok, hoffsets⟩
  · refine (the_sweep_drops_nothing_it_read _ _ _ _ _).2 ["a", "b", "c"] 0 rfl ?_
    refine .gap 1 ⟨1, 2, 2, [8]⟩ ⟨{ entries := [⟨1, 2, 2, [8]⟩] }, by simp [former], by simp⟩
      (by decide +kernel) (by decide) ?_
    rintro y ⟨r, hr, hy⟩ ho
    simp only [former, List.filterMap_cons, id, List.filterMap_nil, List.cons_append, List.nil_append,
      List.mem_cons, List.not_mem_nil, or_false] at hr
    rcases hr with rfl | rfl | rfl
    · cases hy
    · cases hy
    · rw [List.mem_singleton.mp hy] at ho
      cases ho

end mqtt_cluster.cluster_log
