-- The state of one replica (`ReplicaState` of `cluster_log.rs`): its fences,
-- logs and low-waters in memory, the shards of its store, and every call that
-- changes them. A commit of a shard succeeds or fails; `io` says which.
import MqttBroker.Cluster.ReplicaLog

namespace mqtt_cluster.cluster_log

open placement replica_log

/-! ## The shards of the store -/

/-- One file of the store. A log shard is its records in order. -/
inductive Shard
  | Redb (tables : Tables)
  | Log (recs : List Rec)

def Shard.load : Shard → Loaded
  | .Redb tables => cluster_log.load tables
  | .Log recs => recs.foldl change {}

def commit_shard : Shard → ShardPlan → Shard
  | .Redb tables, plan => .Redb (drive_plan plan tables)
  | .Log recs, plan => .Log (recs ++ plan_recs plan)

theorem load_commit_shard (shard : Shard) (plan : ShardPlan) :
    (commit_shard shard plan).load = drive_plan plan shard.load := by
  cases shard with
  | Redb tables => exact load_drive_plan plan tables
  | Log recs =>
    simp only [commit_shard, Shard.load]
    rw [List.foldl_append, foldl_change_plan_recs]

/-! ## The state -/

structure ReplicaState where
  fences : Fences := ∅
  /-- The fences as they stand on disk. -/
  persisted_fences : Fences := ∅
  logs : ReplicaLogs := ∅
  /-- The low-water of each key: the highest offset known to be dropped. -/
  truncated : BTreeMap String Offset := ∅
  caught_up : CaughtUp := ∅
  /-- The shards; none for a replica in memory. -/
  dbs : List Shard := []

namespace ReplicaState

/-- The highest epoch that the replica has acknowledged for a group. -/
def fence_of (s : ReplicaState) (group : GroupId) : Epoch := s.fences[group]?.getD 0

def fence_for_key (s : ReplicaState) (key : String) : Epoch := s.fence_of (group_of_key key)

def watermark (s : ReplicaState) (key : String) : Offset := s.truncated[key]?.getD 0

def unpersisted (s : ReplicaState) (advanced : Fences) : Fences :=
  advanced.filter (fun g e => s.persisted_fences[g]?.all (fun on_disk => decide (on_disk < e)))

/-! ## A commit -/

/-- Adds an op to a plan, with the low-water of its key when it is the first truncate. -/
def plan_op (s : ReplicaState) (plan : ShardPlan) (p : Epoch × ReplOp) : ShardPlan :=
  { plan with
    ops := plan.ops ++ [p]
    watermarks := match p.2 with
      | .Truncate key _ =>
        if plan.watermarks.contains key then plan.watermarks
        else plan.watermarks.insert key (s.watermark key)
      | _ => plan.watermarks }

/-- The plan of a store of one file. -/
def whole_plan (s : ReplicaState) (fences : Fences) (ops : List (Epoch × ReplOp)) : ShardPlan where
  advanced := fences
  ops := ops
  watermarks := ops.foldl (fun watermarks p => match p.2 with
    | .Truncate key _ => watermarks.insert key (s.watermark key)
    | _ => watermarks) ∅

/-- The plans of a sharded store, one for each shard that the batch touches. -/
def shard_plans (s : ReplicaState) (fences : Fences) (ops : List (Epoch × ReplOp)) :
    BTreeMap Nat ShardPlan :=
  let plans := BTreeMap.groupFold (fun ge => shard_of_group ge.1 s.dbs.length)
    (fun (plan : ShardPlan) ge => { plan with advanced := plan.advanced.insert ge.1 ge.2 }) {}
    fences.toList ∅
  BTreeMap.groupFold (fun p => shard_of_group (op_group p.2) s.dbs.length) s.plan_op {} ops plans

/-- Commits the ops and the fences: whether every commit succeeded, and the shards after it.
A sharded store commits every plan, also when one of them fails. -/
def persist_batch (io : Nat → Bool) (s : ReplicaState) (fences : Fences)
    (ops : List (Epoch × ReplOp)) : Bool × List Shard :=
  match s.dbs with
  | [] => (true, [])
  | [db] => if io 0 then (true, [commit_shard db (s.whole_plan fences ops)]) else (false, [db])
  | dbs =>
    let plans := s.shard_plans fences ops
    (plans.keys.all io, dbs.mapIdx (fun i db => match plans[i]? with
      | some plan => if io i then commit_shard db plan else db
      | none => db))

/-! ## One op -/

def apply_in_memory (s : ReplicaState) (epoch : Epoch) : ReplOp → ReplicaState
  | .Append key offset seq record => { s with logs := put s.logs key offset (tag epoch seq, record) }
  | .Truncate key up_to =>
    { s with
      logs := match s.logs[key]? with
        | some log => s.logs.insert key (log.dropThrough up_to)
        | none => s.logs
      truncated := s.truncated.insert key (max (s.watermark key) up_to) }
  | .Remove key => { s with logs := s.logs.erase key, truncated := s.truncated.erase key }

def is_stale_attempt (s : ReplicaState) (epoch : Epoch) : ReplOp → Bool
  | .Append key offset seq _ => (held s.logs key offset).any (fun v => decide (tag epoch seq < v.1))
  | _ => false

/-- Applies one op: whether it is acknowledged, and the state after it. -/
def apply (io : Nat → Bool) (s : ReplicaState) (epoch : Epoch) (op : ReplOp) :
    Bool × ReplicaState :=
  let group := op_group op
  if epoch < s.fence_of group then (false, s)
  else if s.is_stale_attempt epoch op then
    (true, { s with fences := s.fences.insert group (max epoch (s.fence_of group)) })
  else
    let to_fence := s.unpersisted ((∅ : Fences).insert group epoch)
    let (ok, dbs) := s.persist_batch io to_fence [(epoch, op)]
    if ok then
      (true, { s with
        dbs
        persisted_fences := s.persisted_fences.extend to_fence
        fences := s.fences.insert group epoch }.apply_in_memory epoch op)
    else (false, { s with dbs })

/-! ## A batch -/

/-- The variables of the loop that decides a batch. -/
structure Decision where
  accepted : List Bool := []
  stale : List Bool := []
  advanced : Fences := ∅
  to_persist : List (Epoch × ReplOp) := []

/-- Decides one op, against the fence reached so far and the logs before the batch. -/
def decide_op (s : ReplicaState) (d : Decision) (p : Epoch × ReplOp) : Decision :=
  let group := op_group p.2
  let running := (d.advanced[group]?.or s.fences[group]?).getD 0
  if p.1 < running then { d with accepted := d.accepted ++ [false], stale := d.stale ++ [false] }
  else if s.is_stale_attempt p.1 p.2 then
    { d with
      accepted := d.accepted ++ [true]
      stale := d.stale ++ [true]
      advanced := d.advanced.insert group p.1 }
  else
    { accepted := d.accepted ++ [true]
      stale := d.stale ++ [false]
      advanced := d.advanced.insert group p.1
      to_persist := d.to_persist ++ [p] }

def decide_batch (s : ReplicaState) (batch : List (Epoch × ReplOp)) : Decision :=
  batch.foldl s.decide_op {}

def apply_accepted (s : ReplicaState) (batch : List (Epoch × ReplOp)) (d : Decision) :
    ReplicaState :=
  (batch.zip (d.accepted.zip d.stale)).foldl (fun s x =>
    if x.2.1 && !x.2.2 then s.apply_in_memory x.1.1 x.1.2 else s) s

def commit_decided (io : Nat → Bool) (s : ReplicaState) (batch : List (Epoch × ReplOp))
    (d : Decision) : List Bool × ReplicaState :=
  if d.to_persist.isEmpty then (d.accepted, { s with fences := s.fences.extend d.advanced })
  else
    let to_fence := s.unpersisted d.advanced
    let (ok, dbs) := s.persist_batch io to_fence d.to_persist
    if ok then
      (d.accepted, { s with
        dbs
        persisted_fences := s.persisted_fences.extend to_fence
        fences := s.fences.extend d.advanced }.apply_accepted batch d)
    else (List.replicate batch.length false, { s with dbs })

def apply_batch (io : Nat → Bool) (s : ReplicaState) (batch : List (Epoch × ReplOp)) :
    List Bool × ReplicaState :=
  s.commit_decided io batch (s.decide_batch batch)

/-! ## A batch of one shard's writer -/

/-- A batch between its first phase and its last. -/
structure InFlight where
  shard : Nat
  batch : List (Epoch × ReplOp)
  decision : Decision
  plan : ShardPlan
  /-- Whether the store has the shard's file. -/
  db : Bool

/-- The first phase, under the lock. -/
def decide_shard (s : ReplicaState) (shard : Nat) (batch : List (Epoch × ReplOp)) : InFlight :=
  let d := s.decide_batch batch
  { shard
    batch
    decision := d
    plan := { d.to_persist.foldl s.plan_op {} with advanced := s.unpersisted d.advanced }
    db := decide (shard < s.dbs.length) }

/-- The second phase, with the lock released: whether the commit succeeded. -/
def commit_flight (io : Nat → Bool) (s : ReplicaState) (f : InFlight) : Bool × ReplicaState :=
  if f.db then
    if io f.shard then (true, { s with dbs := s.dbs.modify f.shard (commit_shard · f.plan) })
    else (false, s)
  else (true, s)

/-- The last phase, under the lock. It also gives back the dead space of a log shard, which
changes the records of the shard and not what they replay to. -/
def install_flight (s : ReplicaState) (f : InFlight) : ReplicaState :=
  { s with
    persisted_fences :=
      if f.db then s.persisted_fences.extend f.plan.advanced else s.persisted_fences
    fences := s.fences.extend f.decision.advanced }.apply_accepted f.batch f.decision

/-- The last phase of a batch with nothing to persist. -/
def install_fences (s : ReplicaState) (f : InFlight) : ReplicaState :=
  { s with fences := s.fences.extend f.decision.advanced }

/-- The three phases with no other call between them. -/
def apply_batch_sharded (io : Nat → Bool) (s : ReplicaState) (shard : Nat)
    (batch : List (Epoch × ReplOp)) : List Bool × ReplicaState :=
  let f := s.decide_shard shard batch
  if f.plan.ops.isEmpty then (f.decision.accepted, s.install_fences f)
  else
    let (ok, s) := s.commit_flight io f
    if ok then (f.decision.accepted, s.install_flight f)
    else (List.replicate batch.length false, s)

/-! ## Fences and copies -/

/-- Raises the fence of every group to `floor` at least: whether that is stored. -/
def raise_fences (io : Nat → Bool) (s : ReplicaState) (floor : Epoch) : Bool × ReplicaState :=
  let advanced : Fences := ((List.range NUM_GROUPS).filter (fun g => s.fence_of g < floor)).foldl
    (fun (m : Fences) g => m.insert g floor) ∅
  if advanced.isEmpty then (true, s)
  else
    let to_fence := s.unpersisted advanced
    let (ok, dbs) := s.persist_batch io to_fence []
    if ok then
      (true, { s with
        dbs
        persisted_fences := s.persisted_fences.extend to_fence
        fences := s.fences.extend advanced })
    else (false, { s with dbs })

/-- Deletes the copy of a key, at the fence of its group. -/
def forget (io : Nat → Bool) (s : ReplicaState) (key : String) : Bool × ReplicaState :=
  s.apply io (s.fence_for_key key) (.Remove key)

/-! ## An open -/

def reopen (dbs : List Shard) : ReplicaState :=
  dbs.foldl (fun s shard => { s with
    persisted_fences := s.persisted_fences.extend shard.load.fences
    fences := s.fences.extend shard.load.fences
    logs := s.logs.extend shard.load.logs
    truncated := s.truncated.extend shard.load.truncated
    caught_up := s.caught_up.extend shard.load.caught_up }) { dbs }

end ReplicaState

end mqtt_cluster.cluster_log
