-- Write elision on the durable path of QoS 1 (`hub/elision.rs`, and the submission of append jobs
-- in `hub/lanes.rs`): a delivery is sent at once and held, waits behind a write in flight on its
-- topic, or is written. What the rest of the hub holds, whether a lane takes a job and what a
-- send on the wire comes to are inputs.
import Mathlib.Logic.Function.Basic
import MqttBroker.Lib.MapBag
import MqttBroker.Hub.Retained

namespace mqttd.hub.write_elision

open mqtt_core

abbrev ClientId := String

/-- A session, one of its connections, and a topic. -/
abbrev Key := ClientId ×ₗ (Nat ×ₗ String)

instance transCmp_key : Std.TransCmp (compare : Key → Key → Ordering) := inferInstance

def keyOf (client : ClientId) (conn : Nat) (topic : String) : Key :=
  toLex (client, toLex (conn, topic))

def Key.client (key : Key) : ClientId := (ofLex key).1

def Key.conn (key : Key) : Nat := (ofLex (ofLex key).2).1

def MAX_ELIDED : Nat := 16384
def MAX_ELIDED_BYTES : Nat := 64 * 2 ^ 20
def BACKOFF_STRIKES : Nat := 3
/-- In milliseconds, as every time here. -/
def BACKOFF : Nat := 2000

/-- The window of a new hold: halved once the node holds more than three quarters of a bound. -/
def window_in_force (window entries bytes : Nat) : Nat :=
  if entries > MAX_ELIDED / 4 * 3 ∨ bytes > MAX_ELIDED_BYTES / 4 * 3 then window / 2 else window

/-! ## Deliveries and jobs -/

/-- Who is told about the outcome of a delivery. -/
inductive AppendGate
  | Pending (id : Nat)
  | Replay (id : Nat)
  | Peer (node : NodeId) (seq : Nat) (origin : Option Nat) (replay : Bool)
  | Shard (origin id : Nat)
  | None
  | LiveOnly
  deriving DecidableEq, Repr

namespace AppendGate

def answerable : AppendGate → Bool
  | .None | .LiveOnly => false
  | _ => true

/-- Somebody waits for this very delivery. -/
def awaited : AppendGate → Bool
  | .Pending _ | .Peer _ _ _ false | .Shard _ _ => true
  | _ => false

end AppendGate

/-- A delivery on the wire and held. -/
structure Elided where
  pkid : UInt16
  message : Message
  message_expiry : Option Nat
  gate : AppendGate
  deadline : Nat
  sent : Nat

/-- A delivery that waits behind a write in flight, unsent and unwritten. -/
structure Behind where
  message : Message
  message_expiry : Option Nat
  retain : Bool
  gate : AppendGate

/-- A session's record of missing the window. -/
structure Backoff where
  strikes : Nat := 0
  until_ : Option Nat := none

inductive Elidable
  | Now
  | Behind
  | No
  deriving DecidableEq, Repr

inductive LaneWork
  | Append
  | Passthrough
  deriving DecidableEq, Repr

structure AppendJob where
  client : ClientId
  message : Message
  work : LaneWork
  gate : AppendGate
  planned_conn : Option Nat
  message_expiry : Option Nat
  delivered : Option UInt16
  topic_counted : Bool

inductive Submitted
  | Queued
  | Refused
  | Full
  deriving DecidableEq, Repr

/-! ## The hub -/

structure ElisionState where
  window : Option Nat
  by_client : BTreeMap ClientId (List Elided) := ∅
  deadlines : List (Nat × ClientId) := []
  entries : Nat := 0
  bytes : Nat := 0
  discharged : Nat := 0
  fallbacks : Nat := 0
  backoff : BTreeMap ClientId Backoff := ∅
  writing : BTreeMap Key Nat := ∅
  behind : BTreeMap Key (List Behind) := ∅

/-- What `elidable` reads of the deliveries in flight to a session. -/
structure Inflight where
  quota_full : Bool
  backlog_empty : Bool
  records_pending : Nat
  block_remaining : Nat
  banked_base : Option UInt16

/-- The hub beside its elision. `other_work` says which lanes have a job that is no delivery: an
outbound record, a discard or a spilled backlog. -/
structure Rest where
  now : Nat
  brownout : Bool
  draining : Bool
  takeover_window_open : Bool
  connecting : ClientId → Bool
  online : ClientId → Option Nat
  inflight : ClientId → Option Inflight
  other_work : ClientId → Bool

/-- What a send of a held delivery comes to: its packet identifier, if it is in flight, whether
the connection was found closed, and the deliveries in flight after it. -/
structure Sent where
  pkid : Option UInt16
  closed : Bool
  inflight : Option Inflight

/-- `lanes` says which of the jobs that are offered the lanes take, and `sends` what the sends
come to, each in their order. -/
structure Hub where
  elision : ElisionState
  rest : Rest
  jobs : List AppendJob := []
  lanes : Nat → Bool
  offered : Nat := 0
  sends : Nat → Sent
  sent : Nat := 0

namespace Hub

/-! ## Jobs for the lanes -/

/-- A job is admitted to its lane, or the newest one is rejected. -/
def submit_lane_job (h : Hub) (job : AppendJob) : Submitted × Hub :=
  if h.lanes h.offered then
    (.Queued, { h with offered := h.offered + 1, jobs := h.jobs ++ [job] })
  else (.Full, { h with offered := h.offered + 1 })

def jobKey (job : AppendJob) : Key :=
  keyOf job.client (job.planned_conn.getD 0) job.message.topic

def count_writing (h : Hub) (key : Key) : Hub :=
  { h with elision := { h.elision with
      writing := h.elision.writing.insert key (h.elision.writing[key]?.getD 0 + 1) } }

def submit_counted (h : Hub) (job : AppendJob) : Submitted × Hub :=
  match h.submit_lane_job job with
  | (.Queued, h) => (.Queued, if job.topic_counted then h.count_writing (jobKey job) else h)
  | (out, h) => (out, h)

def submit_append_job (h : Hub) (client : ClientId) (message : Message)
    (message_expiry : Option Nat) (gate : AppendGate) (planned_conn : Option Nat)
    (delivered : Option UInt16) : Submitted × Hub :=
  let counted := delivered.isNone && h.elision.window.isSome
  h.submit_counted
    { client, message, work := .Append, gate, planned_conn, message_expiry, delivered
      topic_counted := counted && planned_conn.isSome }

def submit_append (h : Hub) (client : ClientId) (message : Message) (message_expiry : Option Nat)
    (gate : AppendGate) (planned_conn : Option Nat) : Submitted × Hub :=
  if h.rest.brownout then (.Refused, h)
  else h.submit_append_job client message message_expiry gate planned_conn none

def submit_passthrough (h : Hub) (client : ClientId) (message : Message)
    (message_expiry : Option Nat) (planned_conn : Option Nat) : Submitted × Hub :=
  h.submit_counted
    { client, message, work := .Passthrough, gate := .None, planned_conn, message_expiry
      delivered := none, topic_counted := planned_conn.isSome && h.elision.window.isSome }

/-! ## Holding -/

/-- Whether a delivery to an online session may be held, or has to wait behind a write first. -/
def elidable (h : Hub) (client : ClientId) (message : Message) (gate : AppendGate) : Elidable :=
  if h.elision.window.isNone || message.qos != .AtLeastOnce || h.rest.brownout ||
      h.rest.draining || h.rest.connecting client || h.rest.takeover_window_open then .No
  else if (h.elision.backoff[client]?.bind (·.until_)).any (fun t => h.rest.now < t) then .No
  else if !gate.awaited then .No
  else
    let behind := !h.elision.writing.isEmpty && (h.rest.online client).any (fun conn =>
      h.elision.writing.contains (keyOf client conn message.topic))
    match h.rest.inflight client with
    | none => .No
    | some inf =>
      if inf.quota_full || !inf.backlog_empty || inf.records_pending > 0 ||
          (inf.block_remaining == 0 && inf.banked_base.isNone) then .No
      else if h.elision.entries < MAX_ELIDED ∧
          h.elision.bytes + message.payload.length ≤ MAX_ELIDED_BYTES then
        if behind then .Behind else .Now
      else .No

/-- The write that a held delivery falls back to. -/
def fallback_write (h : Hub) (client : ClientId) (message : Message) (message_expiry : Option Nat)
    (gate : AppendGate) (delivered : Option UInt16) : Submitted × Hub :=
  if h.rest.brownout then (.Refused, h)
  else h.submit_append_job client message message_expiry gate none delivered

def send_qos_publish (h : Hub) (client : ClientId) : Option UInt16 × Hub :=
  let out := h.sends h.sent
  (out.pkid, { h with
    sent := h.sent + 1
    rest := { h.rest with
      online := if out.closed then Function.update h.rest.online client none else h.rest.online
      inflight := Function.update h.rest.inflight client out.inflight } })

/-- A delivery on the wire is held until its deadline. -/
def hold (h : Hub) (client : ClientId) (e : Elided) : Hub :=
  { h with elision := { h.elision with
      entries := h.elision.entries + 1
      bytes := h.elision.bytes + e.message.payload.length
      by_client := h.elision.by_client.insert client
        (h.elision.by_client[client]?.getD [] ++ [e])
      deadlines := h.elision.deadlines ++ [(e.deadline, client)] } }

/-- Sends a delivery whose obligation is registered and holds it. One that is not in flight
after all is written as an offline delivery. -/
def elide_registered (h : Hub) (client : ClientId) (message : Message)
    (message_expiry : Option Nat) (gate : AppendGate) : Hub :=
  match h.send_qos_publish client with
  | (none, h) => (h.fallback_write client message message_expiry gate none).2
  | (some pkid, h) =>
    let window := window_in_force (h.elision.window.getD 0) h.elision.entries h.elision.bytes
    h.hold client
      { pkid, message, message_expiry, gate, deadline := h.rest.now + window, sent := h.rest.now }

/-- One delivery fewer is unwritten. -/
def uncount (h : Hub) (message : Message) : Hub :=
  { h with elision := { h.elision with
      entries := h.elision.entries - 1
      bytes := h.elision.bytes - message.payload.length } }

def note_fallback (h : Hub) : Hub :=
  { h with elision := { h.elision with fallbacks := h.elision.fallbacks + 1 } }

/-- The queue of a session, which goes from the map when it is empty. -/
def set_queue (h : Hub) (client : ClientId) (queue : List Elided) : Hub :=
  { h with elision := { h.elision with
      by_client := if queue.isEmpty then h.elision.by_client.erase client
        else h.elision.by_client.insert client queue } }

/-- The subscriber acknowledged a packet: if it was held, no write is owed. -/
def elided_acked (h : Hub) (client : ClientId) (pkid : UInt16) : Hub :=
  match h.elision.by_client[client]? with
  | none => h
  | some queue =>
    match queue.findIdx? (·.pkid == pkid) with
    | none => h
    | some i =>
      match queue[i]? with
      | none => h
      | some e =>
        let h := (h.set_queue client (queue.eraseIdx i)).uncount e.message
        { h with elision := { h.elision with
            discharged := h.elision.discharged + 1
            backoff := h.elision.backoff.erase client } }

/-- The loop that falls deliveries back, in send order. -/
def fall_back (client : ClientId) : List Elided → Hub → Hub
  | [], h => h
  | e :: queue, h =>
    let h := (h.uncount e.message).note_fallback
    fall_back client queue
      (h.fallback_write client e.message e.message_expiry e.gate (some e.pkid)).2

/-- Everything that a session holds falls back. -/
def flush_elided (h : Hub) (client : ClientId) : Hub :=
  match h.elision.by_client[client]? with
  | none => h
  | some queue =>
    fall_back client queue
      { h with elision := { h.elision with by_client := h.elision.by_client.erase client } }

def flush_held_topic (h : Hub) (client : ClientId) (topic : String) : Hub :=
  match h.elision.by_client[client]? with
  | none => h
  | some queue =>
    if queue.any (·.message.topic == topic) then
      fall_back client (queue.filter (·.message.topic == topic))
        (h.set_queue client (queue.filter (!·.message.topic == topic)))
    else h

/-! ## Waiting behind a write -/

/-- A delivery that waited behind a write is written after all. -/
def write_behind (h : Hub) (client : ClientId) (planned_conn : Option Nat) (b : Behind) :
    Submitted × Hub :=
  h.note_fallback.submit_append client b.message b.message_expiry b.gate planned_conn

/-- The loop that writes what waited, in order. -/
def write_all (client : ClientId) (planned_conn : Option Nat) : List Behind → Hub → Hub
  | [], h => h
  | b :: queue, h =>
    write_all client planned_conn queue
      ((h.uncount b.message).write_behind client planned_conn b).2

def erase_behind (h : Hub) (key : Key) : Hub :=
  { h with elision := { h.elision with behind := h.elision.behind.erase key } }

def flush_behind (h : Hub) (key : Key) (planned_conn : Option Nat) : Hub :=
  match h.elision.behind[key]? with
  | none => h
  | some queue => write_all key.client planned_conn queue (h.erase_behind key)

def flush_behind_topic (h : Hub) (client : ClientId) (topic : String) : Hub :=
  match h.rest.online client with
  | none => h
  | some conn => h.flush_behind (keyOf client conn topic) (some conn)

def flush_elided_topic (h : Hub) (client : ClientId) (topic : String) : Hub :=
  (h.flush_held_topic client topic).flush_behind_topic client topic

def queue_behind (h : Hub) (client : ClientId) (conn : Nat) (b : Behind) : Hub :=
  let key := keyOf client conn b.message.topic
  { h with elision := { h.elision with
      entries := h.elision.entries + 1
      bytes := h.elision.bytes + b.message.payload.length
      behind := h.elision.behind.insert key (h.elision.behind[key]?.getD [] ++ [b]) } }

/-- A counted write landed: its key, when it was the last one there and something waits. -/
def write_landed (h : Hub) (job : AppendJob) : Option Key × Hub :=
  let key := jobKey job
  match h.elision.writing[key]? with
  | none => (none, h)
  | some n =>
    if n - 1 > 0 then
      (none, { h with elision := { h.elision with
        writing := h.elision.writing.insert key (n - 1) } })
    else
      (if h.elision.behind.contains key then some key else none,
        { h with elision := { h.elision with writing := h.elision.writing.erase key } })

/-- The loop of `release_behind`. What waits behind a delivery that is written waits again. -/
def release_loop (key : Key) (failed : Bool) : List Behind → Hub → Hub
  | [], h => h
  | b :: queue, h =>
    let h := h.uncount b.message
    if failed then release_loop key failed queue h.note_fallback
    else if h.rest.online key.client ≠ some key.conn then
      release_loop key failed queue (h.write_behind key.client none b).2
    else if h.elidable key.client b.message b.gate = .Now then
      release_loop key failed queue
        (h.elide_registered key.client b.message b.message_expiry b.gate)
    else
      let h := (h.write_behind key.client (some key.conn) b).2
      if queue.isEmpty then h
      else { h with elision := { h.elision with
        behind := h.elision.behind.insert key queue } }

def release_behind (h : Hub) (key : Key) (failed : Bool) : Hub :=
  match h.elision.behind[key]? with
  | none => h
  | some queue => release_loop key failed queue (h.erase_behind key)

/-- A connection went: its writes gate no hold, and what waited behind them is written. -/
def forget_writing (h : Hub) (client : ClientId) (conn_id : Nat) : Hub :=
  let h := { h with elision := { h.elision with
    writing := h.elision.writing.filter (fun key _ =>
      !(key.client == client && key.conn == conn_id)) } }
  (h.elision.behind.keys.filter (fun key => key.client == client && key.conn == conn_id)).foldl
    (fun h key => h.flush_behind key none) h

def flush_all_behind (h : Hub) : Hub :=
  h.elision.behind.keys.foldl (fun h key =>
    h.flush_behind key ((h.rest.online key.client).filter (· = key.conn))) h

/-! ## The window -/

def note_timeout (h : Hub) (client : ClientId) : Hub :=
  let b := h.elision.backoff[client]?.getD {}
  let strikes := min (b.strikes + 1) 255
  let b := if strikes ≥ BACKOFF_STRIKES
    then { b with strikes := 0, until_ := some (h.rest.now + BACKOFF) } else { b with strikes }
  { h with elision := { h.elision with backoff := h.elision.backoff.insert client b } }

def expire_loop : List (Nat × ClientId) → Hub → Hub
  | [], h => { h with elision := { h.elision with deadlines := [] } }
  | (deadline, client) :: left, h =>
    if deadline > h.rest.now then
      { h with elision := { h.elision with deadlines := (deadline, client) :: left } }
    else if (h.elision.by_client[client]?.bind (·.head?)).any (·.deadline ≤ h.rest.now) then
      expire_loop left ((h.flush_elided client).note_timeout client)
    else expire_loop left h

def expire_elided (h : Hub) : Hub :=
  let clear (h : Hub) : Hub := { h with elision := { h.elision with deadlines := [] } }
  if h.elision.entries = 0 then clear h
  else if h.rest.brownout || h.rest.draining then
    clear (h.elision.by_client.keys.foldl flush_elided h).flush_all_behind
  else expire_loop h.elision.deadlines h

/-! ## The events -/

def lane_busy (h : Hub) (client : ClientId) : Bool :=
  h.jobs.any (·.client == client) || h.rest.other_work client

/-- A delivery to a client (`deliver_to_client_noting`). -/
def deliver_to_client (h : Hub) (client : ClientId) (is_persistent : Bool) (message : Message)
    (message_expiry : Option Nat) (gate : AppendGate) : Hub :=
  if gate.answerable && is_persistent && message.qos != .AtMostOnce && h.rest.brownout then h
  else
    let persistent := is_persistent && gate != .LiveOnly
    match h.rest.online client with
    | some conn =>
      if persistent && message.qos != .AtMostOnce then
        match h.elidable client message gate with
        | .Now => h.elide_registered client message message_expiry gate
        | .Behind =>
          h.queue_behind client conn { message, message_expiry, retain := message.retain, gate }
        | .No =>
          let h := h.flush_elided_topic client message.topic
          match h.submit_append client message message_expiry gate (some conn) with
          | (.Refused, h) =>
            if !gate.answerable && h.lane_busy client then
              (h.submit_passthrough client message message_expiry (some conn)).2
            else h
          | (_, h) => h
      else if h.lane_busy client then
        (h.submit_passthrough client message message_expiry (some conn)).2
      else h
    | none =>
      if persistent then (h.submit_append client message message_expiry gate none).2 else h

/-- A job of a lane is done (`append_done`). Its live send and the settling of its gate leave
the rest of the hub as `after`; then what waited behind it goes. -/
def append_done (h : Hub) (job : AppendJob) (failed : Bool) (after : Rest) : Hub :=
  let (landed, h) := if job.topic_counted then h.write_landed job else (none, h)
  let h := { h with rest := after }
  match landed with
  | some key => h.release_behind key failed
  | none => h

end Hub

/-- What reaches the hub. -/
inductive Event
  | Deliver (client : ClientId) (is_persistent : Bool) (message : Message)
      (message_expiry : Option Nat) (gate : AppendGate)
  | AppendDone (i : Nat) (failed : Bool) (after : Rest)
  | PubAck (client : ClientId) (pkid : UInt16)
  | Detach (client : ClientId) (conn_id : Nat) (after : Rest)
  | Expire
  | Other (after : Rest)

namespace Hub

def step (h : Hub) : Event → Hub
  | .Deliver client is_persistent message message_expiry gate =>
    h.deliver_to_client client is_persistent message message_expiry gate
  | .AppendDone i failed after =>
    match h.jobs[i]? with
    | none => h
    | some job => { h with jobs := h.jobs.eraseIdx i }.append_done job failed after
  | .PubAck client pkid => h.elided_acked client pkid
  | .Detach client conn_id after =>
    let h := h.flush_elided client
    let h := { h with elision := { h.elision with backoff := h.elision.backoff.erase client } }
    { h.forget_writing client conn_id with rest := after }
  | .Expire => h.expire_elided
  | .Other after => { h with rest := after }

def run (h : Hub) (events : List Event) : Hub := events.foldl step h

def new (window : Option Nat) (rest : Rest) (lanes : Nat → Bool) (sends : Nat → Sent) : Hub :=
  { elision := { window }, rest, lanes, sends }

end Hub

end mqttd.hub.write_elision
