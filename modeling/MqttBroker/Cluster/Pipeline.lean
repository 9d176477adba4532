-- The lease-holder's state of one key, and the appends in flight on it: offsets
-- are handed out at once, acks come in any order, and commits go in offset order
-- (`ClusterLog::submit_tiered` and what shares its lock, in `cluster_log.rs`).
import MqttBroker.Cluster.Quorum

namespace mqtt_storage.repl

/-- What the ack of an append means. -/
inductive DurabilityTier
  | Quorum
  | Local
  | Relaxed
  deriving DecidableEq, Repr

inductive ReplError
  | NotOwner
  | NoQuorum
  | UnderReplicated (actual floor : Nat)
  | Backend (message : String)
  deriving DecidableEq, Repr

structure LogEntry where
  offset : mqtt_cluster.Offset
  record : mqtt_cluster.Bytes
  deriving DecidableEq, Repr

end mqtt_storage.repl

namespace mqtt_cluster.cluster_log

open mqtt_storage.repl

/-- One stored entry with the tag of the attempt that wrote it. -/
structure EpochEntry where
  epoch : Epoch := 0
  seq : Nat := 0
  offset : Offset := 0
  record : Bytes := []
  deriving DecidableEq, Repr

/-! ## The state of a key -/

/-- The leader's copy of one key's log, and where its commits and its pipeline are. -/
structure KeyState where
  entries : BTreeMap Offset Bytes := ∅
  tags : BTreeMap Offset Nat := ∅
  committed : Offset := 0
  truncated : Offset := 0
  seq : Nat := 0
  assigned : Offset := 0
  pending : Nat := 0
  abort_floor : Option Offset := none

namespace KeyState

/-- One append of the pipeline resolved. A pipeline that drains goes on from the watermark. -/
def pipeline_resolved (ks : KeyState) : KeyState :=
  let pending := ks.pending - 1
  if pending = 0 then { ks with pending, assigned := ks.committed, abort_floor := none }
  else { ks with pending }

/-- The part of a submit under the lock: the offset it hands out. -/
def stage (ks : KeyState) (record : Bytes) : Offset × KeyState :=
  let assigned := if ks.assigned < ks.committed then ks.committed else ks.assigned
  let offset := assigned + 1
  (offset, { ks with
    assigned := offset
    pending := ks.pending + 1
    entries := ks.entries.insert offset record
    seq := ks.seq + 1
    tags := ks.tags.insert offset (ks.seq + 1) })

/-- The staged offsets that fail with `offset`. -/
def doomed (ks : KeyState) (offset : Offset) : List Offset :=
  ks.entries.keys.filter (fun o => ks.committed < o && o ≤ ks.assigned && offset ≤ o)

/-- An append fails with an offset below it: its own entry goes. -/
def tail_fail (ks : KeyState) (offset : Offset) : KeyState :=
  { ks with entries := ks.entries.erase offset, tags := ks.tags.erase offset }

/-- An append fails, and with it everything staged above it. -/
def abort_from (ks : KeyState) (offset : Offset) : KeyState :=
  { ks with
    abort_floor := some ((ks.abort_floor.map (fun f => min f offset)).getD offset)
    entries := (ks.doomed offset).foldl (fun m o => m.erase o) ks.entries
    tags := (ks.doomed offset).foldl (fun m o => m.erase o) ks.tags }

/-- One turn of the loop that commits in order: the outcome of the append, or none when it
has to wait for an offset below. -/
def resolve (ks : KeyState) (offset : Offset) (met : Bool) :
    Option (Except ReplError Offset) × KeyState :=
  if ks.abort_floor.any (fun floor => floor ≤ offset) then
    (some (.error .NoQuorum), (ks.tail_fail offset).pipeline_resolved)
  else if !met then (some (.error .NoQuorum), (ks.abort_from offset).pipeline_resolved)
  else if ks.committed + 1 = offset then
    (some (.ok offset), pipeline_resolved { ks with committed := offset })
  else (none, ks)

/-- Drops the entries through `up_to`. -/
def drop_to (ks : KeyState) (up_to : Offset) : KeyState :=
  { ks with
    entries := ks.entries.dropThrough up_to
    tags := ks.tags.dropThrough up_to
    truncated := max ks.truncated up_to }

/-- A truncate, never past the watermark. -/
def truncate (ks : KeyState) (up_to : Offset) : KeyState := ks.drop_to (min up_to ks.committed)

/-- One recovered entry, at the tag it was committed under again. -/
def seed_entry (ks : KeyState) (e : EpochEntry) : KeyState :=
  { ks with
    committed := max ks.committed e.offset
    entries := ks.entries.insert e.offset e.record
    tags := ks.tags.insert e.offset e.seq
    seq := max ks.seq e.seq }

/-- The state of a new key that recovery found `entries` for, with `floor` the highest
low-water and `seq_floor` the highest seq that it read. -/
def seed_entries (ks : KeyState) (entries : List EpochEntry) (floor : Offset) (seq_floor : Nat) :
    KeyState :=
  let lowest := (entries.map EpochEntry.offset).min?
  let ks := entries.foldl seed_entry ks
  { ks with
    seq := max ks.seq seq_floor
    committed := max ks.committed floor
    truncated := max ((lowest.map (fun l => l - 1)).getD floor) floor }

/-- The committed entries above `after`. The range is empty or ordered; an inverted one
panics. -/
def read (ks : KeyState) (after : Offset) (limit : Nat) : Option (List LogEntry) :=
  if ks.committed < after then none
  else
    some (((ks.entries.toList.filter (fun x => after < x.1 && x.1 ≤ ks.committed)).take limit).map
      (fun x => { offset := x.1, record := x.2 }))

end KeyState

/-! ## An append in flight -/

/-- Where the future of an append is. -/
inductive Phase
  /-- It waits for the owner's own copy. -/
  | Own
  /-- It waits for one of the followers that are left. -/
  | Fanout (acks : Tally) (left : List Nat)
  /-- It stopped counting, and waits for its turn to commit. -/
  | Counted (met : Bool)
  | Done (outcome : Except ReplError Offset)
  deriving DecidableEq, Repr

/-- An append, with the acks that were counted for it. -/
structure Append where
  offset : Offset
  seq : Nat
  record : Bytes
  tier : DurabilityTier
  own : Bool := false
  acked : List Nat := []
  phase : Phase := .Own
  deriving DecidableEq, Repr

namespace ClusterLog

variable (log : ClusterLog)

/-- Whether the acks counted so far are enough for the tier. -/
def met_now (tier : DurabilityTier) (acks : Tally) : Bool :=
  match tier with
  | .Local => decide (1 ≤ acks.all)
  | _ => log.quorum.met acks

/-- The loop over the followers: it ends once the acks are enough, or every follower has
reported. -/
def wait (tier : DurabilityTier) (acks : Tally) (left : List Nat) : Phase :=
  if log.met_now tier acks then .Counted true
  else if left.isEmpty then .Counted false
  else .Fanout acks left

def own_done (a : Append) (ok : Bool) : Append :=
  match a.phase with
  | .Own =>
    { a with
      own := ok
      phase := log.wait a.tier (log.tally_with_local ok) (List.range log.followers.length) }
  | _ => a

def follower_done (a : Append) (f : Nat) (ok : Bool) : Append :=
  match a.phase with
  | .Fanout acks left =>
    if f ∈ left then
      { a with
        acked := if ok then a.acked ++ [f] else a.acked
        phase := log.wait a.tier (if ok then log.add_follower acks f else acks) (left.erase f) }
    else a
  | _ => a

end ClusterLog

/-! ## The steps on one key -/

/-- One key of a log with its appends, in the order they were submitted, and the durable
truncates that wait for acks. The last two fields say what recovery put there. -/
structure Pipeline where
  key : Option KeyState := none
  appends : List Append := []
  truncates : List Offset := []
  seeded : List LogEntry := []
  base : Offset := 0

/-- The state of the key: a key without one reads as a new key. -/
def Pipeline.ks (s : Pipeline) : KeyState := s.key.getD {}

/-- What changes a key, each under the lock or on the arrival of one outcome. -/
inductive Step
  | Submit (record : Bytes) (tier : DurabilityTier)
  | Own (i : Nat) (ok : Bool)
  | Follower (i f : Nat) (ok : Bool)
  | Resolve (i : Nat)
  | Truncate (up_to : Offset)
  | TruncateDurable (up_to : Offset)
  | TruncateAcked (k : Nat) (own : Bool) (acked : List Nat)
  | Seed (entries : List EpochEntry) (floor : Offset) (seq_floor : Nat)

namespace Pipeline

variable (log : ClusterLog)

def submit_tiered (s : Pipeline) (record : Bytes) (tier : DurabilityTier) : Pipeline :=
  let (offset, ks) := s.ks.stage record
  { s with key := some ks, appends := s.appends ++ [{ offset, seq := ks.seq, record, tier }] }

/-- The append at `i` ends with an outcome. -/
def finish (s : Pipeline) (i : Nat) (outcome : Except ReplError Offset) : List Append :=
  s.appends.modify i (fun a => { a with phase := .Done outcome })

/-- The turn of an append to commit. -/
def resolve (s : Pipeline) (i : Nat) : Pipeline :=
  match s.appends[i]? with
  | none => s
  | some a =>
    match a.phase, s.key with
    | .Counted _, none => { s with appends := s.finish i (.error .NoQuorum) }
    | .Counted met, some ks =>
      match ks.resolve a.offset met with
      | (none, _) => s
      | (some outcome, ks) => { s with key := some ks, appends := s.finish i outcome }
    | _, _ => s

/-- The first part of a durable truncate: it refuses one past the watermark. -/
def truncate_durable (s : Pipeline) (up_to : Offset) : Except ReplError Pipeline :=
  match s.key with
  | none => .error (.Backend "durable truncate exceeds the committed watermark")
  | some ks =>
    if ks.committed < up_to then
      .error (.Backend "durable truncate exceeds the committed watermark")
    else .ok { s with truncates := s.truncates ++ [up_to] }

/-- The last part of a durable truncate, once its acks are in. -/
def truncate_acked (s : Pipeline) (k : Nat) (own : Bool) (acked : List Nat) : Pipeline :=
  match s.truncates[k]? with
  | none => s
  | some up_to =>
    { s with
      truncates := s.truncates.eraseIdx k
      key := if log.quorum.met (log.tally_of own acked) then s.key.map (fun ks => ks.drop_to up_to)
        else s.key }

/-- Recovery seeds the key, when there is something to seed. A key that has state is left
alone. -/
def seed_key (s : Pipeline) (entries : List EpochEntry) (floor : Offset) (seq_floor : Nat) :
    Pipeline :=
  if entries.isEmpty && floor == 0 && seq_floor == 0 then s
  else if !s.ks.entries.isEmpty || s.ks.committed ≠ 0 then { s with key := some s.ks }
  else
    { s with
      key := some (s.ks.seed_entries entries floor seq_floor)
      seeded := entries.map (fun e => { offset := e.offset, record := e.record })
      base := (s.ks.seed_entries entries floor seq_floor).committed }

def step (s : Pipeline) : Step → Pipeline
  | .Submit record tier => s.submit_tiered record tier
  | .Own i ok => { s with appends := s.appends.modify i (fun a => log.own_done a ok) }
  | .Follower i f ok => { s with appends := s.appends.modify i (fun a => log.follower_done a f ok) }
  | .Resolve i => s.resolve i
  | .Truncate up_to => { s with key := s.key.map (fun ks => ks.truncate up_to) }
  | .TruncateDurable up_to => match s.truncate_durable up_to with
    | .ok s => s
    | .error _ => s
  | .TruncateAcked k own acked => truncate_acked log s k own acked
  | .Seed entries floor seq_floor => s.seed_key entries floor seq_floor

def run (s : Pipeline) (steps : List Step) : Pipeline := steps.foldl (step log) s

end Pipeline

end mqtt_cluster.cluster_log
