-- The append lane of a session over its queue in the log of the cluster: a replay asks whether
-- the queue holds a copy of its publish, page by page, and appends only if it does not. The log
-- goes on below between any two steps of the worker.
import MqttBroker.Cluster.PipelineRecords
import MqttBroker.Storage.RecordReleases
import MqttBroker.Hub.AppendLane

namespace mqtt_storage.logged

open mqtt_storage.repl
open mqtt_cluster.cluster_log (Pipeline)
open CursorReader (Fault)

/-! ## The read of a queue -/

/-- An error of the log, as the store reports it. -/
def storage_error : ReplError → StorageError
  | .NotOwner => .NotOwner
  | .NoQuorum => .NoQuorum
  | .UnderReplicated actual floor =>
    .Unavailable s!"replica set holds {actual} of the configured floor of {floor} copies"
  | .Backend m => .Backend m

def queued (entry : LogEntry) : Except (Fault StorageError) QueuedMessage := do
  let (message, expiry_at, origin) ← decode_queued entry.record
  return { offset := entry.offset, message, expiry_at, origin }

def pending (log : Pipeline) (after limit : Nat) : Except (Fault StorageError) (List QueuedMessage) :=
  match log.key with
  | none => .ok []
  | some ks =>
    match ks.read after limit with
    | none => .error .Panic
    | some entries => entries.mapM queued

def PAGE : Nat := 1024

/-- What one turn of the loop of `holds_origin` comes to. -/
inductive HoldsTurn
  | Answer (answer : Except StorageError Bool)
  | Page (after : Nat)
  | Panic

def holds_origin (log : Pipeline) (origin : PublishOrigin) (after : Nat) : HoldsTurn :=
  match pending log after PAGE with
  | .error .Panic => .Panic
  | .error (.Error e) => .Answer (.error e)
  | .ok page =>
    if page.any (fun m => m.origin == some origin) then .Answer (.ok true)
    else
      match page.getLast? with
      | some last => if page.length = PAGE then .Page last.offset else .Answer (.ok false)
      | none => .Answer (.ok false)

end mqtt_storage.logged

namespace mqttd.hub.append_lane

open mqtt_storage
open mqtt_storage.repl (LogEntry)
open mqtt_storage.logged
open mqtt_cluster.cluster_log (EpochEntry Pipeline Append)

namespace AppendJob

def expiry_at (job : AppendJob) : Option U64 :=
  match job.work with
  | .Append expiry_at _ _ => expiry_at
  | _ => none

def origin (job : AppendJob) : Option PublishOrigin :=
  match job.work with
  | .Append _ origin _ => origin
  | _ => none

def dedupe (job : AppendJob) : Bool :=
  match job.work with
  | .Append _ _ dedupe => dedupe
  | _ => false

def record (job : AppendJob) : mqtt_storage.Bytes := encode_queued job.message job.expiry_at job.origin

end AppendJob

/-- An append of a message whose lengths fit their fields, as those of every packet do. -/
structure Delivery where
  client : ClientId
  message : mqtt_storage.Message
  expiry_at : Option U64
  origin : Option PublishOrigin
  dedupe : Bool
  fits : QueuedFits message origin

def Delivery.job (d : Delivery) : AppendJob :=
  { client := d.client, message := d.message, work := .Append d.expiry_at d.origin d.dedupe }

/-! ## A session -/

inductive Fate
  | Held
  | Rejected
  /-- The append with its place in the pipeline. -/
  | Appended (append : Nat)
  deriving DecidableEq

/-- A job that the worker is done with. `low` is the offset up to which the queue was truncated
when the duplicate test of the job ended. -/
structure Taken where
  job : AppendJob
  fate : Fate
  low : Nat

/-- The lane of a session and its queue. `after` is where the duplicate test is, and `unpolled`
an append that was submitted and not polled yet, with what it evicted. The last two fields are
not in the source: they say what became of the jobs. -/
structure Session where
  lane : Lane := {}
  queue : Queue := {}
  after : Nat := 0
  unpolled : Option (Nat × Nat) := none
  low : Nat := 0
  taken : List Taken := []

namespace Session

variable (store : LoggedStore) (s : Session)

/-- A turn of the duplicate test. -/
def read : Session :=
  match s.lane.worker with
  | .Testing job origin =>
    match holds_origin s.queue.log origin s.after with
    | .Page after => { s with after }
    | .Panic => s
    | .Answer (.ok true) =>
      { s with
        lane := s.lane.holds (.ok true)
        after := 0
        taken := s.taken ++ [⟨job, .Held, s.queue.log.ks.truncated⟩] }
    | .Answer answer =>
      { s with lane := s.lane.holds answer, after := 0, low := s.queue.log.ks.truncated }
  | _ => s

def outcome (append evicted : Nat) : Option (Except StorageError Enqueued) :=
  match s.queue.log.appends[append]?.map Append.phase with
  | some (.Done (.ok offset)) => some (.ok (.Stored offset evicted))
  | some (.Done (.error e)) => some (.error (storage_error e))
  | _ => none

/-- The first poll of a submission (`try_ready`). -/
def try_ready (append evicted : Nat) : PendingEnqueue :=
  match s.outcome append evicted with
  | some result => .Ready result
  | none => .Waits append

def go : Session :=
  match s.lane.worker with
  | .Submitting job =>
    match s.unpolled, s.queue.call with
    | some (append, evicted), _ =>
      { s with
        lane := s.lane.submitted (s.try_ready append evicted)
        unpolled := none
        taken := s.taken ++ [⟨job, .Appended append, s.low⟩] }
    | none, none =>
      let queue := s.queue.submit_enqueue_tagged store job.message job.expiry_at job.origin
      match queue.call, queue.answers.getLast? with
      | none, some (.Ready result) =>
        { s with
          queue
          lane := s.lane.submitted (.Ready (result.mapError storage_error))
          taken := s.taken ++ [⟨job, .Rejected, s.low⟩] }
      | _, _ => { s with queue }
    | none, some _ =>
      let queue := s.queue.go store
      match queue.call, queue.answers.getLast? with
      | none, some (.Pending append evicted) =>
        { s with queue, unpolled := some (append, evicted) }
      | _, _ => { s with queue }
  | _ => s

def evicted (append : Nat) : Nat :=
  (s.queue.answers.findSome? (fun answer =>
    match answer with
    | .Pending i evicted => if i = append then some evicted else none
    | .Ready _ => none)).getD 0

/-- The task of a wait finds its append ended. -/
def wake (i : Nat) : Session :=
  match s.lane.inflight[i]? with
  | some ⟨_, .Waiting append⟩ =>
    match s.outcome append (s.evicted append) with
    | some result => { s with lane := s.lane.step (.Finish i (some result)) }
    | none => s
  | _ => s

def below (step : mqtt_cluster.cluster_log.Step) : Session :=
  { s with queue := s.queue.below store step }

end Session

/-- What can happen next: the hub sends a delivery, the worker goes on, or the log does. -/
inductive SessionStep
  | Send (d : Delivery)
  | Close
  | Recv
  | Read
  | Go
  | Wake (i : Nat)
  | Next
  | Own (i : Nat) (ok : Bool)
  | Follower (i f : Nat) (ok : Bool)
  | Resolve (i : Nat)
  | Ack (up_to : Nat)
  | AckDurable (up_to : Nat)
  | AckDurableAcked (k : Nat) (own : Bool) (acked : List Nat)

namespace Session

variable (store : LoggedStore) (s : Session)

def step : SessionStep → Session
  | .Send d => { s with lane := s.lane.step (.Send (.Deliver d.job) false) }
  | .Close => { s with lane := s.lane.step .Close }
  | .Recv => { s with lane := s.lane.step .Recv }
  | .Read => s.read
  | .Go => s.go store
  | .Wake i => s.wake i
  | .Next => { s with lane := s.lane.step .Next }
  | .Own i ok => s.below store (.Own i ok)
  | .Follower i f ok => s.below store (.Follower i f ok)
  | .Resolve i => s.below store (.Resolve i)
  | .Ack up_to => s.below store (.Truncate up_to)
  | .AckDurable up_to => s.below store (.TruncateDurable up_to)
  | .AckDurableAcked k own acked => s.below store (.TruncateAcked k own acked)

def run (steps : List SessionStep) : Session := steps.foldl (step store) s

end Session

/-- A record that recovery found, of a delivery of an earlier owner. -/
structure Recovered where
  epoch : Nat
  seq : Nat
  offset : Nat
  delivery : Delivery

def Recovered.entry (r : Recovered) : EpochEntry :=
  { epoch := r.epoch, seq := r.seq, offset := r.offset, record := r.delivery.job.record }

def Session.start (recovered : List Recovered) (floor seq_floor : Nat) : Session :=
  { queue := { log := Pipeline.seed_key {} (recovered.map Recovered.entry) floor seq_floor } }

end mqttd.hub.append_lane
