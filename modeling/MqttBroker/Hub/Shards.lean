-- The hub loops of one node (`hub/shards.rs`): a publish is matched on its
-- publisher's shard, the subscribers that other shards own are handed to them, and
-- the publisher's acknowledgement waits for their answers (`hub/forwarding.rs`).
import Mathlib.Logic.Function.Basic
import MqttBroker.Cluster.ReplicaOps
import MqttBroker.Hub.Retained

namespace mqttd.hub.shards

open mqtt_core

/-! ## Publishes and outcomes -/

/-- The most shards that a node may run: the width of `shard_outstanding`. -/
def MAX_SHARDS : Nat := 8

def shard_of (client : String) (shards : Nat) : Nat :=
  if shards ≤ 1 then 0
  else mqtt_cluster.placement.group_of (mqtt_cluster.as_bytes client) % shards

/-- The id of a pending publish: the shard in the top bits, its own count below them. -/
structure PublishId where
  shard : Nat
  seq : Nat
  deriving DecidableEq

inductive PublishRefusal
  | Brownout
  | RetainedQuota
  deriving DecidableEq

inductive DurableOutcome
  | Ok
  | Failed
  | Refused (r : PublishRefusal)
  deriving DecidableEq

/-- Two verdicts combined: `Failed` before `Refused` before `Ok`. -/
def DurableOutcome.and : DurableOutcome → DurableOutcome → DurableOutcome
  | .Failed, _ => .Failed
  | _, .Failed => .Failed
  | .Refused r, _ => .Refused r
  | .Ok, .Refused r => .Refused r
  | .Ok, .Ok => .Ok

inductive PublishOutcome
  | Accepted
  | Refused (r : PublishRefusal)
  deriving DecidableEq

/-- Who waits for the outcome of a delivery. -/
inductive AppendGate
  | Pending (id : PublishId)
  | Replay (id : PublishId)
  | Peer
  | Shard
  | None
  | LiveOnly
  deriving DecidableEq

/-! ## The pending publishes of a shard -/

/-- What a pending publish waits for, other than the answers of shards. -/
structure Obligations where
  awaiting : List Nat := []
  stored : Bool := false
  awaiting_retained : Bool := false
  local_done : Bool := false
  appends_outstanding : Nat := 0
  reroute_grace : Option Nat := none
  awaiting_settle : Bool := false
  ack_awaits_settle : Bool := false
  relaxed : Bool := false
  congested : Bool := false
  deriving DecidableEq

/-- A gated publish. `waiting` is `done.is_some()`: the publisher was not answered. -/
structure PendingPublish extends Obligations where
  waiting : Bool := true
  shard_outstanding : BitVec MAX_SHARDS := 0
  deriving DecidableEq

def PendingPublish.obligations_done (p : PendingPublish) : Bool :=
  p.local_done && p.shard_outstanding == 0 &&
    ((p.relaxed && !p.congested && p.awaiting.isEmpty && p.reroute_grace.getD 0 == 0) ||
      (p.appends_outstanding == 0 && !p.awaiting_retained && p.awaiting.isEmpty &&
        p.reroute_grace.getD 0 == 0))

/-! ## Hand-offs and answers -/

inductive ShardTarget
  | Ordinary (client : String)
  | Shared (client : String) (qos : QoS)
  deriving DecidableEq

def ShardTarget.client : ShardTarget → String
  | .Ordinary client => client
  | .Shared client _ => client

/-- A target with its place among the targets of its publish. The place is not in the
source: it tells the deliveries of one publish apart. -/
structure Handed where
  target : ShardTarget
  place : Nat
  deriving DecidableEq

/-- The fields of a publish that a hand-off carries. -/
structure Published where
  topic : String
  payload : Bytes
  qos : QoS
  retain : Bool
  message_expiry : Option Nat
  app : AppProperties
  deriving DecidableEq

structure ShardDeliver extends Published where
  origin : Nat
  gate : Option PublishId
  targets : List Handed
  deriving DecidableEq

structure ShardAnswer where
  id : PublishId
  outcome : DurableOutcome
  reached : Bool
  deriving DecidableEq

/-- What a shard still owes for another shard's publish. -/
structure ShardGate where
  origin : Nat
  awaiting : Nat
  worst : DurableOutcome
  reached : Bool
  deriving DecidableEq

/-- One hub loop. `owed` are the deliveries of a hand-off whose append is submitted to a lane,
or which are held for the subscriber's acknowledgement. The last three fields are not in the
source: what each delivery that was handed to this shard came to, the deliveries that this
shard handed to others, and what its publishers were told. -/
structure Shard where
  shard : Nat
  publish_ids : Nat := 0
  pending_publishes : PublishId → Option PendingPublish := fun _ => none
  handoff_batches : Nat → List ShardDeliver := fun _ => []
  shard_done_batches : Nat → List ShardAnswer := fun _ => []
  handoff_inflight : Nat → Nat := fun _ => 0
  shard_append_pending : PublishId → Option ShardGate := fun _ => none
  owed : PublishId → List Nat := fun _ => []
  settled : PublishId → List (Nat × DurableOutcome) := fun _ => []
  handed : PublishId → Nat → List Nat := fun _ _ => []
  told : List (PublishId × PublishOutcome) := []

namespace Shard

variable (s : Shard)

/-! ## The acknowledgement -/

def put_pending (id : PublishId) (p : Option PendingPublish) : Shard :=
  { s with pending_publishes := Function.update s.pending_publishes id p }

/-- Acknowledge a publish when every obligation is resolved, and retire its entry when the
settle window has no claim on it either. -/
def try_complete_pending (id : PublishId) : Shard :=
  match s.pending_publishes id with
  | none => s
  | some p =>
    if !p.obligations_done then s
    else
      let answered := !p.ack_awaits_settle && p.waiting
      let p := { p with waiting := p.waiting && p.ack_awaits_settle }
      let s := if answered then { s with told := (id, .Accepted) :: s.told } else s
      s.put_pending id (if !p.awaiting_settle && !p.waiting then none else some p)

def pending_local_done (id : PublishId) : Shard :=
  let s := match s.pending_publishes id with
    | none => s
    | some p => s.put_pending id (some { p with local_done := true })
  s.try_complete_pending id

def drop_pending (id : PublishId) : Shard := s.put_pending id none

/-- Refuse a publish: its publisher is told only when it was stored nowhere, and when it was
not answered before. -/
def refuse_pending (id : PublishId) (r : PublishRefusal) : Shard :=
  match s.pending_publishes id with
  | none => s
  | some p =>
    let s := s.put_pending id none
    if !p.waiting || p.stored || p.appends_outstanding > 0 then s
    else { s with told := (id, .Refused r) :: s.told }

/-- Enter a new publish into the table. What the bound of the table evicts is dropped. -/
def register_pending (unsettled : Bool) : Shard × PublishId :=
  let id : PublishId := ⟨s.shard, s.publish_ids + 1⟩
  ({ s with publish_ids := s.publish_ids + 1 }.put_pending id
    (some { awaiting_settle := unsettled, ack_awaits_settle := unsettled }), id)

/-! ## The origin of a hand-off -/

/-- The bit of a shard in `shard_outstanding`. -/
def bit (shard : Nat) : BitVec MAX_SHARDS := BitVec.ofNat MAX_SHARDS 1 <<< shard

/-- Count a gated hand-off to a shard: its bit and its credit. -/
def owe_answer (id : PublishId) (shard : Nat) (batch : List Handed) : Shard :=
  let s := match s.pending_publishes id with
    | none => s
    | some p =>
      s.put_pending id (some { p with shard_outstanding := p.shard_outstanding ||| bit shard })
  { s with
    handoff_inflight :=
      Function.update s.handoff_inflight shard (s.handoff_inflight shard + 1)
    handed := Function.update s.handed id (Function.update (s.handed id) shard
      (s.handed id shard ++ batch.map Handed.place)) }

/-- Put one hand-off into the batch of its shard. -/
def push_handoff (shard : Nat) (d : ShardDeliver) : Shard :=
  { s with
    handoff_batches :=
      Function.update s.handoff_batches shard (s.handoff_batches shard ++ [d]) }

/-- The loop of `flush_handoffs` over the other shards. With two shards everything that was
collected is the other shard's. -/
def flush_to (count : Nat) (m : Published) (gated : Option PublishId) :
    List Nat → List Handed → Shard → Shard
  | [], _, s => s
  | shard :: rest, targets, s =>
    let batch := if count = 2 then targets
      else targets.filter (fun t => shard_of t.target.client count = shard)
    let left := if count = 2 then []
      else targets.filter (fun t => shard_of t.target.client count ≠ shard)
    if batch.isEmpty then flush_to count m gated rest left s
    else
      let s := match gated with
        | some id => s.owe_answer id shard batch
        | none => s
      flush_to count m gated rest left
        (s.push_handoff shard { m with origin := s.shard, gate := gated, targets := batch })

/-- Put the collected targets into the batches of their shards. -/
def flush_handoffs (count : Nat) (handoff : List Handed) (m : Published) (gate : AppendGate) :
    Shard :=
  if handoff.isEmpty then s
  else
    let others := (List.range count).filter (· ≠ s.shard)
    match gate with
    | .Replay _ => s
    | .Pending id => flush_to count m (some id) others handoff s
    | .Peer | .Shard | .None | .LiveOnly => flush_to count m none others handoff s

def foreign (count : Nat) (place : Nat) (targets : List ShardTarget) : List Handed :=
  ((targets.zipIdx place).map (fun p => ⟨p.1, p.2⟩)).filter
    (fun t => shard_of t.target.client count ≠ s.shard)

/-! ## The target of a hand-off -/

/-- Queue the answer for one settled hand-off. -/
def answer_shard (origin : Nat) (id : PublishId) (outcome : DurableOutcome) (reached : Bool) :
    Shard :=
  { s with
    shard_done_batches := Function.update s.shard_done_batches origin
      (s.shard_done_batches origin ++ [{ id, outcome, reached }]) }

/-- All deliveries of a hand-off are planned. -/
def finish_shard_verdict (origin : Nat) (id : PublishId) (sync : DurableOutcome)
    (reached : Bool) : Shard :=
  match s.shard_append_pending id with
  | some g =>
    { s with
      shard_append_pending := Function.update s.shard_append_pending id
        (some { g with worst := g.worst.and sync, reached := g.reached || reached }) }
  | none => s.answer_shard origin id sync reached

/-- One more obligation on a hand-off. -/
def register_shard_gate (origin : Nat) (id : PublishId) : Shard :=
  let g := (s.shard_append_pending id).getD ⟨origin, 0, .Ok, false⟩
  { s with
    shard_append_pending := Function.update s.shard_append_pending id
      (some { g with awaiting := g.awaiting + 1 }) }

/-- One obligation on a hand-off ended. -/
def settle_shard (id : PublishId) (out : DurableOutcome) (reached : Bool) : Shard :=
  match s.shard_append_pending id with
  | none => s
  | some g =>
    let g := { g with
      awaiting := g.awaiting - 1, worst := g.worst.and out, reached := g.reached || reached }
    if g.awaiting = 0 then
      { s with shard_append_pending := Function.update s.shard_append_pending id none }.answer_shard
        g.origin id g.worst g.reached
    else
      { s with shard_append_pending := Function.update s.shard_append_pending id (some g) }

/-- Record what a delivery came to. -/
def note (id : PublishId) (place : Nat) (out : DurableOutcome) : Shard :=
  { s with settled := Function.update s.settled id ((place, out) :: s.settled id) }

/-- A delivery owes an append or is held. -/
def owe (origin : Nat) (id : PublishId) (place : Nat) : Shard :=
  { s with owed := Function.update s.owed id (place :: s.owed id) }.register_shard_gate origin id

/-- An owed delivery ends. A held delivery that is written after all changes nothing: the
write registers its own obligation before the held one is released. -/
def end_owed (id : PublishId) (place : Nat) (out : DurableOutcome) (reached : Bool) : Shard :=
  if place ∈ s.owed id then
    ({ s with owed := Function.update s.owed id ((s.owed id).erase place) }.note
      id place out).settle_shard id out reached
  else s

end Shard

/-- What `deliver_to_client` made of one target. -/
inductive Landing
  /-- Not subscribed any more (an ordinary target), or not here (a shared one). -/
  | NotHere
  /-- Nothing is owed. -/
  | Settled (out : DurableOutcome)
  /-- An append was submitted, or the delivery is held. -/
  | Owed
  /-- It was held, then could be neither sent nor written. -/
  | Abandoned
  deriving DecidableEq

/-- What happens on the target shard while it delivers to one client: held deliveries of that
client whose write is refused fail first. -/
structure Delivery where
  failing : List (PublishId × Nat) := []
  landing : Landing
  deriving DecidableEq

namespace Shard

/-- Held deliveries whose write is refused. -/
def fail_held (s : Shard) (failing : List (PublishId × Nat)) : Shard :=
  failing.foldl (fun s o => s.end_owed o.1 o.2 .Failed false) s

def deliver_target (count origin : Nat) (id : PublishId) (deliver : PublishId → Nat → Delivery)
    (acc : Shard × DurableOutcome × Bool) (t : Handed) : Shard × DurableOutcome × Bool :=
  let (s, worst, reached) := acc
  if shard_of t.target.client count ≠ s.shard then (s.note id t.place .Ok, worst, reached)
  else
    let d := deliver id t.place
    let s := s.fail_held d.failing
    match d.landing, t.target with
    | .NotHere, .Ordinary _ => (s.note id t.place .Ok, worst, reached)
    | .NotHere, .Shared _ _ => (s.note id t.place .Failed, worst.and .Failed, reached)
    | .Settled out, _ => (s.note id t.place out, worst.and out, true)
    | .Owed, _ => (s.owe origin id t.place, worst, true)
    | .Abandoned, _ =>
      ((s.owe origin id t.place).end_owed id t.place .Failed false, worst.and .Failed, true)

/-- One hand-off. The targets of one that nobody waits for only let held deliveries fail. -/
def dispatch_shard_deliver (s : Shard) (count : Nat) (deliver : PublishId → Nat → Delivery)
    (plain : List (PublishId × Nat)) (d : ShardDeliver) : Shard :=
  match d.gate with
  | none => s.fail_held plain
  | some id =>
    let (s, worst, reached) := d.targets.foldl (deliver_target count d.origin id deliver)
      (s, .Ok, false)
    s.finish_shard_verdict d.origin id worst reached

/-- One batch of hand-offs. `plain` says what fails during the hand-offs that nobody waits for,
by their place in the batch. -/
def dispatch_shard_batch (count : Nat) (deliver : PublishId → Nat → Delivery)
    (plain : Nat → List (PublishId × Nat)) : Nat → List ShardDeliver → Shard → Shard
  | _, [], s => s
  | i, d :: rest, s =>
    dispatch_shard_batch count deliver plain (i + 1) rest
      (s.dispatch_shard_deliver count deliver (plain i) d)

/-- A shard settled every delivery of a publish that it was handed. -/
def shard_done (s : Shard) (shard : Nat) (a : ShardAnswer) : Shard :=
  match s.pending_publishes a.id with
  | none => s
  | some p =>
    let bit := bit (min shard 7)
    if p.shard_outstanding &&& bit = 0 then s
    else
      let p := { p with
        shard_outstanding := p.shard_outstanding &&& ~~~bit
        stored := p.stored || a.outcome == .Ok
        ack_awaits_settle := p.ack_awaits_settle && !(a.outcome == .Ok && a.reached) }
      let s := { s with
        handoff_inflight :=
          Function.update s.handoff_inflight shard (s.handoff_inflight shard - 1) }.put_pending
            a.id (some p)
      match a.outcome with
      | .Ok => s.try_complete_pending a.id
      | .Failed => s.drop_pending a.id
      | .Refused r => s.refuse_pending a.id r

end Shard

/-! ## The node -/

/-- The shards of a node and the commands between them. -/
structure Node where
  count : Nat
  shards : Nat → Shard
  /-- The batches of hand-offs from a shard to another, the oldest first. -/
  batches : Nat → Nat → List (List ShardDeliver) := fun _ _ => []
  /-- The commands `ShardDone` from a shard to another, the oldest first. -/
  answers : Nat → Nat → List (List ShardAnswer) := fun _ _ => []

/-- A node of some shards that nothing happened on. -/
def Node.new (count : Nat) : Node := { count, shards := fun shard => { shard } }

/-- What can happen next. The deliveries of a hand-off, the end of an owed delivery and the
other obligations of a publish are decided outside of this file. -/
inductive Step
  /-- A gated publish: its ordinary subscribers and its chosen members on this node, what the
  rest of its fan-out left, and the outcome of the fan-out. -/
  | Publish (shard : Nat) (m : Published) (ordinary shared : List ShardTarget)
      (unsettled : Bool) (left : Obligations) (durable : DurableOutcome)
  /-- A fan-out that no publisher of this shard waits for. -/
  | Plain (shard : Nat) (m : Published) (targets : List ShardTarget) (gate : AppendGate)
  /-- The end of a dispatch batch. -/
  | Flush (shard : Nat)
  /-- A shard takes the next batch of another. -/
  | Dispatch (shard origin : Nat) (deliver : PublishId → Nat → Delivery)
      (plain : Nat → List (PublishId × Nat))
  /-- An owed delivery ends. -/
  | Settle (shard : Nat) (id : PublishId) (place : Nat) (out : DurableOutcome) (reached : Bool)
  /-- A shard takes the next answers of another. -/
  | Done (shard target : Nat)
  /-- The other obligations of a publish change. -/
  | Change (shard : Nat) (id : PublishId) (left : Obligations)
  | Try (shard : Nat) (id : PublishId)
  | Drop (shard : Nat) (id : PublishId)
  | Refuse (shard : Nat) (id : PublishId) (r : PublishRefusal)

namespace Shard

variable (s : Shard)

def change_pending (id : PublishId) (left : Obligations) : Shard :=
  match s.pending_publishes id with
  | none => s
  | some p => s.put_pending id (some { p with toObligations := left })

/-- A publish that somebody waits for: its entry first, then the ordinary subscribers, then
the shared members, then what the fan-out came to. -/
def publish (count : Nat) (m : Published) (ordinary shared : List ShardTarget)
    (unsettled : Bool) (left : Obligations) (durable : DurableOutcome) : Shard :=
  let (s, id) := s.register_pending unsettled
  let s := s.flush_handoffs count (s.foreign count 0 ordinary) m (.Pending id)
  let s := s.flush_handoffs count (s.foreign count ordinary.length shared)
    { m with retain := false } (.Pending id)
  let s := s.change_pending id left
  match durable with
  | .Ok => s.pending_local_done id
  | .Refused r => s.refuse_pending id r
  | .Failed => s.drop_pending id

end Shard

namespace Node

variable (n : Node)

def put (shard : Nat) (s : Shard) : Node := { n with shards := Function.update n.shards shard s }

/-- Send what a shard collected: one batch for each shard that is owed a hand-off, and one
command for each that is owed answers. -/
def flush_shard_batches (shard : Nat) : Node :=
  let s := n.shards shard
  let targets := List.range n.count
  { n.put shard { s with
      handoff_batches := fun t => if t ∈ targets then [] else s.handoff_batches t
      shard_done_batches := fun t => if t ∈ targets then [] else s.shard_done_batches t } with
    batches := fun from_ t =>
      if from_ = shard ∧ t ∈ targets ∧ s.handoff_batches t ≠ [] then
        n.batches from_ t ++ [s.handoff_batches t]
      else n.batches from_ t
    answers := fun from_ t =>
      if from_ = shard ∧ t ∈ targets ∧ s.shard_done_batches t ≠ [] then
        n.answers from_ t ++ [s.shard_done_batches t]
      else n.answers from_ t }

def step : Step → Node
  | .Publish shard m ordinary shared unsettled left durable =>
    n.put shard ((n.shards shard).publish n.count m ordinary shared unsettled left durable)
  | .Plain shard m targets gate =>
    match gate with
    | .Pending _ => n
    | gate => n.put shard ((n.shards shard).flush_handoffs n.count
        ((n.shards shard).foreign n.count 0 targets) m gate)
  | .Flush shard => if n.count ≤ 1 then n else n.flush_shard_batches shard
  | .Dispatch shard origin deliver plain =>
    match n.batches origin shard with
    | [] => n
    | batch :: rest =>
      { n.put shard (Shard.dispatch_shard_batch n.count deliver plain 0 batch (n.shards shard)) with
        batches := Function.update n.batches origin
          (Function.update (n.batches origin) shard rest) }
  | .Settle shard id place out reached =>
    n.put shard ((n.shards shard).end_owed id place out reached)
  | .Done shard target =>
    -- only the shards of the node send answers
    if n.count ≤ target then n
    else match n.answers target shard with
      | [] => n
      | done :: rest =>
        { n.put shard (done.foldl (fun s a => s.shard_done target a) (n.shards shard)) with
          answers := Function.update n.answers target
            (Function.update (n.answers target) shard rest) }
  | .Change shard id left => n.put shard ((n.shards shard).change_pending id left)
  | .Try shard id => n.put shard ((n.shards shard).try_complete_pending id)
  | .Drop shard id => n.put shard ((n.shards shard).drop_pending id)
  | .Refuse shard id r => n.put shard ((n.shards shard).refuse_pending id r)

end Node

end mqttd.hub.shards
