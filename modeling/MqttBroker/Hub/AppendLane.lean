-- The append lane of one session (`hub/lanes.rs`): a worker takes jobs from a channel one after
-- another, the durability waits of its appends overlap, and the completions are posted in the
-- order of the jobs. What the store answers, and when a wait ends, are inputs.
import MqttBroker.Storage.MemoryStore

namespace mqttd.hub.append_lane

open mqtt_storage

abbrev ClientId := String

/-- How many appends of one session may wait at once. -/
def LANE_PIPELINE_DEPTH : Nat := 16
/-- How many deliveries may be queued in one lane. -/
def LANE_QUEUE_CAP : Nat := 256
/-- The slots of the channel beyond that, for control jobs. -/
def LANE_CONTROL_HEADROOM : Nat := 16

/-! ## Jobs -/

inductive LaneOutcome
  | Stored (offset : Nat)
  | Dropped
  | Failed
  | Passed
  | Held
  deriving DecidableEq

inductive LaneWork
  | Append (expiry_at : Option U64) (origin : Option PublishOrigin) (dedupe : Bool)
  | Passthrough
  | RecordOutbound (pkid : UInt16) (offset : Nat)
  | Spill (entries : List (mqtt_storage.Message × Option U64))
  deriving DecidableEq

structure AppendJob where
  client : ClientId
  message : mqtt_storage.Message
  work : LaneWork
  deriving DecidableEq

namespace AppendJob

/-- A job without a delivery of its own. -/
def control (client : ClientId) (work : LaneWork) : AppendJob :=
  { client, work, message := { topic := "", payload := [], qos := .AtMostOnce, retain := false } }

def discard_mark (client : ClientId) : AppendJob := control client .Passthrough

end AppendJob

structure Qos2RetirePlan where
  client : ClientId
  epoch : Nat
  up_to : Option Nat
  candidates : List (UInt16 × Option Nat)
  orphans : List (UInt16 × Nat)

inductive Qos2LaneOp
  | Advance (pkid : UInt16) (epoch : Nat)
  | Retire (plan : Qos2RetirePlan)

structure Qos2RetireResult where
  client : ClientId
  epoch : Nat
  durable : Option Nat
  cleared : List UInt16
  orphans_cleared : List UInt16

inductive Qos2OpOutcome
  | Advance (pkid : UInt16) (epoch : Nat) (ok : Bool)
  | Retire (result : Qos2RetireResult)

inductive LaneJob
  | Deliver (job : AppendJob)
  | Discard (client : ClientId)
  | Remove (client : ClientId)
  | Qos2Op (client : ClientId) (op : Qos2LaneOp)

/-- What the worker posts to the loop of the hub. -/
inductive HubCommand
  | AppendDone (job : AppendJob) (outcome : LaneOutcome)
  | SessionRecovered (client : ClientId)
  | Qos2OpDone (client : ClientId) (outcome : Qos2OpOutcome)

/-! ## The store calls of a job that is no append -/

structure StoreAnswers where
  holds_origin : Except StorageError Bool
  enqueue_tagged : Except StorageError Enqueued
  record_outbound : Bool
  advance_outbound : Bool
  ack_durable : Bool
  clear_outbound : UInt16 → Bool
  /-- Whether `exec_orphan_clear` got through. -/
  orphan_clear : UInt16 → Bool

def classify_enqueue : Except StorageError Enqueued → LaneOutcome
  | .ok (.Stored offset _) => .Stored offset
  | .ok .Rejected => .Dropped
  | .error _ => .Failed

def exec_qos2_retire (plan : Qos2RetirePlan) (store : StoreAnswers) : Qos2RetireResult :=
  let durable := plan.up_to.filter (fun _ => store.ack_durable)
  let clears (c : UInt16 × Option Nat) : Bool :=
    match c.2 with
    | some offset => durable.any (fun through => offset ≤ through) && store.clear_outbound c.1
    | none => true
  { client := plan.client
    epoch := plan.epoch
    durable
    cleared := (plan.candidates.filter clears).map (·.1)
    orphans_cleared := (plan.orphans.filter (fun o => store.orphan_clear o.1)).map (·.1) }

def exec_qos2_lane_op (op : Qos2LaneOp) (store : StoreAnswers) : Qos2OpOutcome :=
  match op with
  | .Advance pkid epoch => .Advance pkid epoch store.advance_outbound
  | .Retire plan => .Retire (exec_qos2_retire plan store)

/-- The store call of a delivery. The worker runs an append in another way. -/
def run_lane_job (job : AppendJob) (store : StoreAnswers) : LaneOutcome :=
  match job.work with
  | .Passthrough => .Passed
  | .RecordOutbound _ offset => if store.record_outbound then .Stored offset else .Failed
  | .Spill _ => .Passed
  | .Append _ origin dedupe =>
    match dedupe, origin, store.holds_origin with
    | true, some _, .ok true => .Held
    | _, _, _ => classify_enqueue store.enqueue_tagged

/-- What a job that is no append posts (`run_lane_job` and `run_barrier_job`). -/
def run_barrier_job (job : LaneJob) (store : StoreAnswers) : List HubCommand :=
  match job with
  | .Deliver job => [.AppendDone job (run_lane_job job store)]
  | .Discard client =>
    [.SessionRecovered client, .AppendDone (AppendJob.discard_mark client) .Passed]
  | .Remove client => [.AppendDone (AppendJob.discard_mark client) .Passed]
  | .Qos2Op client op => [.Qos2OpDone client (exec_qos2_lane_op op store)]

/-! ## The worker -/

/-- Where a completion in the pipeline is. -/
inductive Wait
  /-- Its append, by its number, is not durable yet. -/
  | Waiting (append : Nat)
  | Finished (outcome : LaneOutcome)
  /-- The task of the wait panicked. -/
  | Died
  deriving DecidableEq

structure Completion where
  job : AppendJob
  wait : Wait
  deriving DecidableEq

def Completion.finish (c : Completion) (result : Option (Except StorageError Enqueued)) :
    Completion :=
  match c.wait with
  | .Waiting _ =>
    { c with wait := match result with
      | some result => .Finished (classify_enqueue result)
      | none => .Died }
  | _ => c

inductive Worker
  | Select
  /-- It asks whether the session holds the publish. -/
  | Testing (job : AppendJob) (origin : PublishOrigin)
  | Submitting (job : AppendJob)
  /-- The pipeline drains before the job runs. -/
  | Draining (job : LaneJob)
  | Running (job : LaneJob)
  /-- The channel is closed, and the pipeline drains. -/
  | Closing
  | Done

/-- A lane. The last field is not in the source: every job that the channel took. -/
structure Lane where
  channel : List LaneJob := []
  closed : Bool := false
  worker : Worker := .Select
  inflight : List Completion := []
  posted : List HubCommand := []
  admitted : List LaneJob := []

/-- What the submission of an append returns (`PendingEnqueue`): it is ready at once, or waits
under a number. -/
inductive PendingEnqueue
  | Ready (result : Except StorageError Enqueued)
  | Waits (append : Nat)

inductive Event
  /-- The hub sends a job, a delivery or a control job. -/
  | Send (job : LaneJob) (control : Bool)
  | Close
  | Recv
  | Holds (answer : Except StorageError Bool)
  | Submitted (pending : PendingEnqueue)
  /-- A wait ends, or panics. -/
  | Finish (i : Nat) (result : Option (Except StorageError Enqueued))
  | Next
  | Ran (store : StoreAnswers)

namespace Lane

/-- The jobs that the channel may hold for one more to be sent. -/
def room (control : Bool) : Nat :=
  if control then LANE_QUEUE_CAP + LANE_CONTROL_HEADROOM else LANE_QUEUE_CAP

def send (s : Lane) (job : LaneJob) (control : Bool) : Lane :=
  if s.closed || s.channel.length ≥ room control then s
  else { s with channel := s.channel ++ [job], admitted := s.admitted ++ [job] }

def take : LaneJob → Worker
  | .Deliver job =>
    match job.work with
    | .Append _ (some o) true => .Testing job o
    | .Append .. => .Submitting job
    | _ => .Draining (.Deliver job)
  | job => .Draining job

def recv (s : Lane) : Lane :=
  match s.worker, s.channel with
  | .Select, job :: channel =>
    if s.inflight.length < LANE_PIPELINE_DEPTH then { s with channel, worker := take job } else s
  | .Select, [] =>
    if s.inflight.length < LANE_PIPELINE_DEPTH ∧ s.closed then { s with worker := .Closing } else s
  | _, _ => s

/-- An append with its outcome is posted, or queued behind those that wait. -/
def complete (s : Lane) (job : AppendJob) (outcome : LaneOutcome) : Lane :=
  if s.inflight.isEmpty then
    { s with worker := .Select, posted := s.posted ++ [.AppendDone job outcome] }
  else { s with worker := .Select, inflight := s.inflight ++ [⟨job, .Finished outcome⟩] }

def holds (s : Lane) (answer : Except StorageError Bool) : Lane :=
  match s.worker with
  | .Testing job _ =>
    match answer with
    | .ok true => s.complete job .Held
    | _ => { s with worker := .Submitting job }
  | _ => s

def submitted (s : Lane) (pending : PendingEnqueue) : Lane :=
  match s.worker with
  | .Submitting job =>
    match pending with
    | .Ready result => s.complete job (classify_enqueue result)
    | .Waits append =>
      { s with worker := .Select, inflight := s.inflight ++ [⟨job, .Waiting append⟩] }
  | _ => s

/-- The front of the pipeline is posted once it has ended. -/
def post_front (s : Lane) : Lane :=
  match s.inflight with
  | [] => s
  | c :: inflight =>
    match c.wait with
    | .Waiting _ => s
    | .Finished outcome => { s with inflight, posted := s.posted ++ [.AppendDone c.job outcome] }
    | .Died => { s with inflight }

/-- A turn of the select, or of the loop of `drain_in_order`. -/
def next (s : Lane) : Lane :=
  match s.worker, s.inflight with
  | .Select, _ => s.post_front
  | .Draining job, [] => { s with worker := .Running job }
  | .Draining _, _ :: _ => s.post_front
  | .Closing, [] => { s with worker := .Done }
  | .Closing, _ :: _ => s.post_front
  | _, _ => s

def ran (s : Lane) (store : StoreAnswers) : Lane :=
  match s.worker with
  | .Running job => { s with worker := .Select, posted := s.posted ++ run_barrier_job job store }
  | _ => s

def step (s : Lane) : Event → Lane
  | .Send job control => s.send job control
  | .Close => { s with closed := true }
  | .Recv => s.recv
  | .Holds answer => s.holds answer
  | .Submitted pending => s.submitted pending
  | .Finish i result => { s with inflight := s.inflight.modify i (·.finish result) }
  | .Next => s.next
  | .Ran store => s.ran store

def run (s : Lane) (events : List Event) : Lane := events.foldl step s

end Lane

end mqttd.hub.append_lane
