-- The queues of retained mutations (`hub/retained.rs`): each node commits the
-- topics that it owns, one commit at a time, and hands the others to their owner,
-- one hand-off at a time, until the owner has answered for it.
import MqttBroker.Hub.Retained

namespace mqttd.hub

/-! ## Mutations and frames -/

/-- What a hand-off carries. The stamp is not in the source: it is the node that enqueued
the mutation, and how many that node had enqueued before. -/
structure Retained where
  topic : String
  payload : Bytes
  qos : UInt8
  app : AppProperties
  expires_at : Option Nat
  stamp : NodeId × Nat
  deriving DecidableEq

structure RetainedMutation extends Retained where
  reply : Option (NodeId × Nat) := none
  publish : Option Nat := none
  restore : Bool := false
  deriving DecidableEq

/-- The frames of the hand-off protocol. -/
inductive PeerMessage
  | RetainedCommit (value : Retained) (seq : Nat)
  | RetainedCommitAck (seq : Nat) (token : Option Token)
  deriving DecidableEq

inductive Told
  | Dropped (publish : Nat)
  | Committed (publish : Nat)
  deriving DecidableEq

/-- A commit that runs off the loop; its result waits for the loop when there is one. -/
structure Commit where
  mutation : RetainedMutation
  result : Option (Option Token) := none
  deriving DecidableEq

/-- The retained queues of a hub with durable retained on. `commit` is the flag
`retained_commit_inflight` with the task behind it. The frames written, what the ledger
was told and the count of enqueued mutations are not in the source. -/
structure Queues where
  node_id : NodeId
  peers : BTreeSet NodeId := ∅
  placement : Option (String → NodeId) := none
  retained_queue : List RetainedMutation := []
  retained_routed_queue : List RetainedMutation := []
  retained_routed_turn : Bool := false
  commit : Option Commit := none
  retained_handoff : Option (NodeId × Nat × RetainedMutation) := none
  retained_handoff_seq : Nat := 0
  retained_handoff_seen : BTreeMap NodeId (Nat × Token) := ∅
  retained_handoff_pending : BTreeMap NodeId Nat := ∅
  written : List (NodeId × PeerMessage) := []
  told : List Told := []
  enqueued : Nat := 0

def RETAINED_QUEUE_CAP : Nat := 1024

namespace Queues

/-! ## One node -/

/-- The owner of the topic's group, as the node sees it now. -/
def retained_owner (q : Queues) (topic : String) : NodeId :=
  match q.placement with
  | none => q.node_id
  | some owner => owner topic

def send (q : Queues) (node : NodeId) (message : PeerMessage) : Queues :=
  if node ∈ q.peers then { q with written := q.written ++ [(node, message)] } else q

def send_retained_ack (q : Queues) (node : NodeId) (seq : Nat) (token : Option Token) : Queues :=
  q.send node (.RetainedCommitAck seq token)

def send_retained_handoff (q : Queues) (owner : NodeId) (seq : Nat) (m : RetainedMutation) :
    Queues := q.send owner (.RetainedCommit m.toRetained seq)

/-- The pending marker of a hand-off goes, unless it is of another one. -/
def clear_pending (q : Queues) (node : NodeId) (seq : Nat) : Queues :=
  if q.retained_handoff_pending[node]? = some seq then
    { q with retained_handoff_pending := q.retained_handoff_pending.erase node }
  else q

def tell (q : Queues) (told : Nat → Told) (publish : Option Nat) : Queues :=
  match publish with
  | some id => { q with told := q.told ++ [told id] }
  | none => q

/-- What follows from a mutation that was dropped at the bound. -/
def dropped (q : Queues) (m : RetainedMutation) : Queues :=
  let q := match m.reply with
    | some (node, seq) => q.clear_pending node seq
    | none => q
  q.tell .Dropped m.publish

def enqueue_retained_mutation (q : Queues) (m : RetainedMutation) : Queues :=
  if m.reply.isSome then
    let q := match q.retained_routed_queue with
      | d :: rest =>
        if RETAINED_QUEUE_CAP ≤ (d :: rest).length then
          { q with retained_routed_queue := rest }.dropped d
        else q
      | [] => q
    { q with retained_routed_queue := q.retained_routed_queue ++ [m] }
  else
    let q := match q.retained_queue with
      | d :: rest =>
        if RETAINED_QUEUE_CAP ≤ (d :: rest).length then
          { q with retained_queue := rest }.dropped d
        else q
      | [] => q
    { q with retained_queue := q.retained_queue ++ [m] }

def spawn_retained_commit (q : Queues) (m : RetainedMutation) : Queues :=
  { q with commit := some { mutation := m } }

/-- A mutation that a peer routed here is committed here or refused, never relayed. -/
def drive_routed_retained (q : Queues) (m : RetainedMutation) : Queues :=
  if q.retained_owner m.topic = q.node_id then q.spawn_retained_commit m
  else match m.reply with
    | some (node, seq) => (q.clear_pending node seq).send_retained_ack node seq none
    | none => q

/-- The hand-off of a mutation, held until it is answered. -/
def hand_off (q : Queues) (owner : NodeId) (m : RetainedMutation) : Queues :=
  let seq := q.retained_handoff_seq + 1
  { { q with retained_handoff_seq := seq }.send_retained_handoff owner seq m with
    retained_handoff := some (owner, seq, m) }

def drive_own (q : Queues) (m : RetainedMutation) (rest : List RetainedMutation) : Queues :=
  let owner := q.retained_owner m.topic
  if owner = q.node_id then { q with retained_queue := rest }.spawn_retained_commit m
  else if owner ∈ q.peers then { q with retained_queue := rest }.hand_off owner m
  else q

/-- The loop of `kick_retained_queue`. It takes from the routed queue, or once from the own
queue, so the routed queue and one turn more are fuel enough. -/
def kick_loop : Nat → Bool → Queues → Queues
  | 0, _, q => q
  | fuel + 1, own_blocked, q =>
    if q.commit.isSome then q
    else match decide (own_blocked = false), q.retained_queue, q.retained_routed_queue with
      | true, m :: rest, [] =>
        kick_loop fuel true ({ q with retained_routed_turn := true }.drive_own m rest)
      | true, m :: rest, r :: routed =>
        if q.retained_routed_turn then
          kick_loop fuel false ({ q with
            retained_routed_turn := false
            retained_routed_queue := routed }.drive_routed_retained r)
        else kick_loop fuel true ({ q with retained_routed_turn := true }.drive_own m rest)
      | _, _, r :: routed =>
        kick_loop fuel own_blocked ({ q with
          retained_routed_turn := false
          retained_routed_queue := routed }.drive_routed_retained r)
      | _, _, [] => q

theorem drive_routed_queue (q : Queues) (m : RetainedMutation) :
    (q.drive_routed_retained m).retained_routed_queue = q.retained_routed_queue := by
  unfold drive_routed_retained
  split
  · rfl
  · split
    · simp only [send_retained_ack, send, clear_pending]
      split_ifs <;> rfl
    · rfl

theorem drive_own_routed (q : Queues) (m : RetainedMutation) (rest : List RetainedMutation) :
    (q.drive_own m rest).retained_routed_queue = q.retained_routed_queue := by
  unfold drive_own
  simp only [hand_off, send_retained_handoff, send, spawn_retained_commit]
  split_ifs <;> rfl

theorem kick_loop_fuel (fuel : Nat) (own_blocked : Bool) (q : Queues)
    (h : q.retained_routed_queue.length + (if own_blocked then 1 else 2) ≤ fuel) :
    kick_loop (fuel + 1) own_blocked q = kick_loop fuel own_blocked q := by
  induction fuel generalizing own_blocked q with
  | zero => split at h <;> omega
  | succ fuel ih =>
    rw [kick_loop, kick_loop]
    split
    · rfl
    · split
      · rename_i hb _ hr
        rw [decide_eq_true_iff] at hb
        subst hb
        rw [if_neg (by decide)] at h
        apply ih
        rw [drive_own_routed]
        simp only [if_true]
        omega
      · rename_i hb _ hr
        rw [decide_eq_true_iff] at hb
        subst hb
        rw [if_neg (by decide), hr, List.length_cons] at h
        split
        · apply ih
          rw [drive_routed_queue, if_neg (by decide)]
          dsimp only
          omega
        · apply ih
          rw [drive_own_routed]
          dsimp only
          rw [if_pos rfl, hr, List.length_cons]
          omega
      · rename_i hr _
        rw [hr, List.length_cons] at h
        apply ih
        rw [drive_routed_queue]
        dsimp only
        omega
      · rfl

def kick_retained_queue (q : Queues) : Queues :=
  kick_loop (q.retained_routed_queue.length + 2) q.retained_handoff.isSome q

def route_retained_commit (q : Queues) (topic : String) (payload : Bytes) (qos : UInt8)
    (app : AppProperties) (gate : Option Nat) (expires_at : Option Nat) (restore : Bool) : Queues :=
  let m : RetainedMutation :=
    { topic, payload, qos, app, expires_at, stamp := (q.node_id, q.enqueued), publish := gate,
      restore }
  { q.enqueue_retained_mutation m with enqueued := q.enqueued + 1 }.kick_retained_queue

/-- A mutation that a peer routed here, unless it is committed or still under way. -/
def accept_routed_retained (q : Queues) (node : NodeId) (value : Retained) (seq : Nat) : Queues :=
  match q.retained_handoff_seen[node]? with
  | some (last_seq, token) =>
    if last_seq = seq then q.send_retained_ack node seq (some token) else take_in q
  | none => take_in q
where
  take_in (q : Queues) : Queues :=
    if q.retained_handoff_pending[node]? = some seq then q
    else
      let m : RetainedMutation := { value with reply := some (node, seq) }
      ({ q with retained_handoff_pending := q.retained_handoff_pending.insert node seq
        }.enqueue_retained_mutation m).kick_retained_queue

/-- The answer to a hand-off: it must be for the one that is held. -/
def remote_retained_commit_ack (q : Queues) (node : NodeId) (seq : Nat) (token : Option Token) :
    Queues :=
  match q.retained_handoff with
  | none => q
  | some (owner, held_seq, m) =>
    if owner ≠ node ∨ held_seq ≠ seq then q
    else if token.isSome then
      ({ q with retained_handoff := none }.tell .Committed m.publish).kick_retained_queue
    else { q with retained_handoff := none, retained_queue := m :: q.retained_queue }

/-- The result of the commit reaches the loop. A failed mutation goes back to the front of
the queue that it came from. -/
def retained_commit_done (q : Queues) : Queues :=
  match q.commit with
  | some ⟨m, some (some token)⟩ =>
    let q := { q with commit := none }.tell .Committed m.publish
    let q := match m.reply with
      | some (node, seq) =>
        ({ q with retained_handoff_seen := q.retained_handoff_seen.insert node (seq, token)
          }.clear_pending node seq).send_retained_ack node seq (some token)
      | none => q
    q.kick_retained_queue
  | some ⟨m, some none⟩ =>
    if m.reply.isSome then
      { q with commit := none, retained_routed_queue := m :: q.retained_routed_queue }
    else { q with commit := none, retained_queue := m :: q.retained_queue }
  | _ => q

/-- The link to a peer is gone: what it was handed comes back, and what it handed over is
forgotten. -/
def drop_retained_handoff_state (q : Queues) (node : NodeId) : Queues :=
  let q := match q.retained_handoff with
    | some (owner, _, m) =>
      if owner = node then
        { q with retained_handoff := none, retained_queue := m :: q.retained_queue }
      else q
    | none => q
  { q with
    retained_handoff_seen := q.retained_handoff_seen.erase node
    retained_handoff_pending := q.retained_handoff_pending.erase node }

/-- The sweep sends an unanswered hand-off again, or takes it back without a link. -/
def retry_retained_handoff (q : Queues) : Queues :=
  match q.retained_handoff with
  | none => q
  | some (owner, seq, m) =>
    if owner ∈ q.peers then q.send_retained_handoff owner seq m
    else { q with retained_handoff := none, retained_queue := m :: q.retained_queue }

end Queues

/-! ## The cluster -/

/-- A commit that succeeded, and the node that made it. -/
structure Committed where
  node : NodeId
  mutation : RetainedMutation
  token : Token
  deriving DecidableEq

/-- The queues of every node, and the commits in the order in which they succeeded. -/
structure Cluster where
  nodes : NodeId → Queues
  commits : List Committed := []

/-- What happens to a node, or between two of them. -/
inductive Event
  /-- A retained publish on the node. -/
  | Publish (node : NodeId) (topic : String) (payload : Bytes) (qos : UInt8)
      (app : AppProperties) (gate : Option Nat) (expires_at : Option Nat) (restore : Bool)
  /-- A frame that the node wrote arrives. It may be late, or never arrive. -/
  | Arrive (node : NodeId) (i : Nat)
  /-- The running commit of the node succeeds with a token, or fails without effect. -/
  | Commit (node : NodeId) (result : Option Token)
  /-- The result of the commit reaches the loop of the node. -/
  | Done (node : NodeId)
  | Sweep (node : NodeId)
  | Connected (node peer : NodeId)
  | Disconnected (node peer : NodeId)
  /-- A lease moved, as the node sees it. -/
  | Placed (node : NodeId) (owner : Option (String → NodeId))

namespace Cluster

def set (c : Cluster) (x : NodeId) (q : Queues) : Cluster :=
  { c with nodes := Function.update c.nodes x q }

/-- A frame at the node that it was written to. -/
def receive (q : Queues) (node : NodeId) : PeerMessage → Queues
  | .RetainedCommit value seq => q.accept_routed_retained node value seq
  | .RetainedCommitAck seq token => q.remote_retained_commit_ack node seq token

def step (c : Cluster) : Event → Cluster
  | .Publish x topic payload qos app gate expires_at restore =>
    c.set x ((c.nodes x).route_retained_commit topic payload qos app gate expires_at restore)
  | .Arrive x i => match (c.nodes x).written[i]? with
    | some (y, message) => c.set y (receive (c.nodes y) x message)
    | none => c
  | .Commit x result => match (c.nodes x).commit with
    | some ⟨m, none⟩ =>
      let c := c.set x { c.nodes x with commit := some ⟨m, some result⟩ }
      match result with
      | some token => { c with commits := c.commits ++ [⟨x, m, token⟩] }
      | none => c
    | _ => c
  | .Done x => c.set x (c.nodes x).retained_commit_done
  | .Sweep x => c.set x (c.nodes x).retry_retained_handoff.kick_retained_queue
  | .Connected x y =>
    c.set x { c.nodes x with peers := (c.nodes x).peers.insert y }.kick_retained_queue
  | .Disconnected x y =>
    c.set x ({ c.nodes x with peers := (c.nodes x).peers.erase y }.drop_retained_handoff_state y)
  | .Placed x owner => c.set x { c.nodes x with placement := owner }

def run (c : Cluster) (es : List Event) : Cluster := es.foldl step c

/-- Nodes that have just started, with whatever links and placement. -/
def Fresh (c : Cluster) : Prop :=
  c.commits = [] ∧ ∀ x, ∃ peers placement, c.nodes x = { node_id := x, peers, placement }

end Cluster

end mqttd.hub
