-- The retained cache of one node and its fence (`hub/retained.rs`): committed
-- updates, the snapshots of peers and the node's own reads of the authority all
-- write the cache and the token map, and a reap drops the tombstones that every
-- member has seen.
import MqttBroker.Lib.OrderedMap
import MqttBroker.Core.Topic

namespace mqttd.hub

open mqtt_core

abbrev NodeId := String
abbrev Bytes := List UInt8

/-! ## Messages and tokens -/

/-- The convergence token of a committed write: its epoch, then its offset. -/
abbrev Token := Nat ×ₗ Nat

def token (epoch offset : Nat) : Token := toLex (epoch, offset)

/-- The token of a value that was never committed. -/
def untokened : Token := token 0 0

structure AppProperties where
  payload_format : Option UInt8 := none
  content_type : Option String := none
  response_topic : Option String := none
  correlation_data : Option Bytes := none
  user_properties : List (String × String) := []
  deriving DecidableEq, Repr

structure Message where
  topic : String
  payload : Bytes
  qos : QoS
  retain : Bool
  app : AppProperties
  expires_at : Option Nat
  deriving DecidableEq, Repr

/-- One committed record of the durable keyspace. -/
structure RetainedEntry where
  payload : Bytes
  qos : UInt8
  tombstone : Bool
  props : AppProperties
  epoch : Nat
  offset : Nat
  expires_at : Option Nat
  deriving DecidableEq, Repr

def RetainedEntry.token (e : RetainedEntry) : Token := hub.token e.epoch e.offset

structure RetainedWireEntry where
  topic : String
  payload : Bytes
  qos : UInt8
  epoch : Nat
  offset : Nat
  props : AppProperties
  expires_at : Option Nat
  deriving DecidableEq, Repr

def RetainedWireEntry.token (e : RetainedWireEntry) : Token := hub.token e.epoch e.offset

namespace Message

/-- An empty payload clears its topic. -/
def Clears (m : Message) : Prop := m.payload = []

instance (m : Message) : Decidable m.Clears := inferInstanceAs (Decidable (_ = _))

/-- What a cache holds after the message was set. -/
def cached (m : Message) : Option Message := if m.Clears then none else some m

end Message

/-- `RetainedStore::set`, when it succeeds. -/
def set (cache : BTreeMap String Message) (m : Message) : BTreeMap String Message :=
  if m.Clears then cache.erase m.topic else cache.insert m.topic m

theorem get_set (cache : BTreeMap String Message) (m : Message) (topic : String) :
    (set cache m)[topic]? = if m.topic = topic then m.cached else cache[topic]? := by
  unfold set Message.cached
  by_cases hc : m.Clears
  · rw [if_pos hc, if_pos hc, BTreeMap.get_erase]
  · rw [if_neg hc, if_neg hc, BTreeMap.get_insert]

/-! ## The node -/

/-- What happened to a fence: an update took the topic, or a reap let it go. -/
inductive Mark
  | Applied (token : Token) (message : Message)
  | Reaped (topic : String)
  deriving DecidableEq

/-- The retained state of a hub. The history is not in the source: it lists, newest
first, what was written to the token map. -/
structure Hub where
  node_id : NodeId
  durable : Bool
  retained : BTreeMap String Message := ∅
  retained_tokens : BTreeMap String Token := ∅
  retained_tombstone_observed_at : BTreeMap String Nat := ∅
  retained_digest_matched_at : BTreeMap NodeId Nat := ∅
  retained_may_expire : Bool := false
  history : List Mark := []

/-- What the world answers while one update or one entry is worked on: two reads of the
authority (`none` when it is not readable here), whether the cache write succeeds, and
the clock. -/
structure Answers where
  authority : Option RetainedEntry := none
  again : Option RetainedEntry := none
  stored : Bool := true
  now : Nat := 0

namespace Hub

/-- A read of the authority: nothing without durable retained. -/
def durable_retained_authority (hub : Hub) (answer : Option RetainedEntry) :
    Option RetainedEntry :=
  if hub.durable then answer else none

def retained_is_stale (hub : Hub) (topic : String) (token : Token)
    (answer : Option RetainedEntry) : Bool :=
  match hub.retained_tokens[topic]? with
  | some held => decide (token ≤ held)
  | none => match hub.durable_retained_authority answer with
    | some entry => decide (token < entry.token)
    | none => false

/-- The cache took the message: its token is recorded, and a clear starts the clock of
its discharge where none runs. -/
def applied (hub : Hub) (message : Message) (token : Token) (now : Nat) : Hub :=
  { hub with
    retained := set hub.retained message
    retained_tokens := hub.retained_tokens.insert message.topic token
    retained_tombstone_observed_at :=
      if message.Clears then
        hub.retained_tombstone_observed_at.alter message.topic (fun at_ => some (at_.getD now))
      else hub.retained_tombstone_observed_at.erase message.topic
    history := .Applied token message :: hub.history }

def apply_committed_retained (hub : Hub) (topic : String) (payload : Bytes) (qos : UInt8)
    (app : AppProperties) (token : Token) (expires_at : Option Nat)
    (authority : Option RetainedEntry) (stored : Bool) (now : Nat) : Hub :=
  if hub.retained_is_stale topic token authority then hub
  else
    let message : Message :=
      { topic, payload, qos := (QoS.from_u8 qos).getD .AtMostOnce, retain := true, app,
        expires_at }
    let hub := { hub with
      retained_may_expire := hub.retained_may_expire || expires_at.isSome }
    if stored then hub.applied message token now else hub

/-- The authority's own record, put through the ordinary update. -/
def apply_authority (hub : Hub) (topic : String) (entry : RetainedEntry)
    (answers : Answers) : Hub :=
  hub.apply_committed_retained topic entry.payload entry.qos entry.props entry.token
    entry.expires_at answers.again answers.stored answers.now

/-! ## A peer's snapshot -/

def snapshot_entry_applies (hub : Hub) (topic : String) (token : Token)
    (value_held payload_is_empty : Bool) (answers : Answers) : Hub × Bool :=
  if token = untokened then
    (hub, !value_held && !payload_is_empty &&
      (hub.durable_retained_authority answers.authority).isNone)
  else match hub.retained_tokens[topic]? with
    | some held => (hub, decide (held < token))
    | none => match hub.durable_retained_authority answers.authority with
      | none => (hub, true)
      | some authority =>
        if token < authority.token then (hub.apply_authority topic authority answers, false)
        else (hub, true)

/-- One turn of the loop over a snapshot. `held` is the cache as it was when the snapshot
came in. -/
def apply_snapshot_entry (held : BTreeMap String Message) (hub : Hub)
    (entry : RetainedWireEntry) (answers : Answers) : Hub :=
  let value_held := (held[entry.topic]?).isSome
  let message : Message :=
    { topic := entry.topic, payload := entry.payload,
      qos := (QoS.from_u8 entry.qos).getD .AtMostOnce, retain := true, app := entry.props,
      expires_at := entry.expires_at }
  if hub.durable then
    let (hub, applies) := hub.snapshot_entry_applies entry.topic entry.token value_held
      entry.payload.isEmpty answers
    if applies then
      let hub := { hub with
        retained_may_expire := hub.retained_may_expire || entry.expires_at.isSome }
      if answers.stored then hub.applied message entry.token answers.now else hub
    else hub
  else if value_held || entry.payload.isEmpty then hub
  else
    let hub := { hub with
      retained_may_expire := hub.retained_may_expire || entry.expires_at.isSome }
    if answers.stored then { hub with retained := set hub.retained message } else hub

/-- A snapshot, each entry with the answers that it meets. Nothing is done when the cache
cannot be listed. -/
def apply_retained_snapshot (hub : Hub) (readable : Bool)
    (messages : List (RetainedWireEntry × Answers)) : Hub :=
  if readable then
    messages.foldl (fun h p => apply_snapshot_entry hub.retained h p.1 p.2) hub
  else hub

/-! ## The authority read back, and the reap -/

def warm_topic (hub : Hub) (topic : String) (answers : Answers) : Hub :=
  if (hub.retained_tokens[topic]?).isSome then hub
  else match hub.durable_retained_authority answers.authority with
    | none => hub
    | some entry => hub.apply_authority topic entry answers

/-- `topics` is what the keyspace lists, with the answers for each topic. -/
def warm_retained_tokens_from_authority (hub : Hub)
    (topics : Option (List (String × Answers))) : Hub :=
  if hub.durable then
    (topics.getD []).foldl (fun h p => h.warm_topic p.1 p.2) hub
  else hub

def handle_retained_digest (hub : Hub) (node : NodeId) (matched : Bool) (now : Nat) : Hub :=
  if matched then
    { hub with retained_digest_matched_at := hub.retained_digest_matched_at.insert node now }
  else hub

def RETAINED_ANTIENTROPY_EVERY : Nat := 30

def discharged (hub : Hub) (roster : List NodeId) (now : Nat) : List String :=
  (hub.retained_tombstone_observed_at.toList.filter (fun p =>
    decide (RETAINED_ANTIENTROPY_EVERY ≤ now - p.2) &&
      (roster.filter (· != hub.node_id)).all (fun n =>
        match hub.retained_digest_matched_at[n]? with
        | some at_ => decide (p.2 < at_)
        | none => false))).map Prod.fst

def discharge (hub : Hub) (topic : String) : Hub :=
  { hub with
    retained_tokens := hub.retained_tokens.erase topic
    retained_tombstone_observed_at := hub.retained_tombstone_observed_at.erase topic
    history := .Reaped topic :: hub.history }

/-- `roster` is the durable roster with the number of its unknown members, `owned` the
topics of this node's groups, `reaped` those whose record the keyspace removes. -/
def reap_discharged_tombstones (hub : Hub) (roster : Option (List NodeId × Nat)) (now : Nat)
    (owned reaped : String → Bool) : Hub :=
  if hub.durable then
    match roster with
    | none => hub
    | some (roster, unknown) =>
      if 0 < unknown then hub
      else (hub.discharged roster now).foldl
        (fun h topic => if owned topic && !reaped topic then h else h.discharge topic) hub
  else hub

end Hub

/-! ## Runs of a process -/

inductive Call
  | Update (topic : String) (payload : Bytes) (qos : UInt8) (app : AppProperties)
      (token : Token) (expires_at : Option Nat) (authority : Option RetainedEntry)
      (stored : Bool) (now : Nat)
  | Snapshot (readable : Bool) (messages : List (RetainedWireEntry × Answers))
  | Warm (topics : Option (List (String × Answers)))
  | Digest (node : NodeId) (matched : Bool) (now : Nat)
  | Reap (roster : Option (List NodeId × Nat)) (now : Nat) (owned reaped : String → Bool)

def Hub.call (hub : Hub) : Call → Hub
  | .Update topic payload qos app token expires_at authority stored now =>
    hub.apply_committed_retained topic payload qos app token expires_at authority stored now
  | .Snapshot readable messages => hub.apply_retained_snapshot readable messages
  | .Warm topics => hub.warm_retained_tokens_from_authority topics
  | .Digest node matched now => hub.handle_retained_digest node matched now
  | .Reap roster now owned reaped => hub.reap_discharged_tombstones roster now owned reaped

def Hub.calls (hub : Hub) (calls : List Call) : Hub := calls.foldl Hub.call hub

/-- A process that has just started: no token is known, the cache is what the disk held. -/
structure Hub.Fresh (hub : Hub) : Prop where
  durable : hub.durable = true
  tokens : hub.retained_tokens = ∅
  clocks : hub.retained_tombstone_observed_at = ∅
  history : hub.history = []

end mqttd.hub
