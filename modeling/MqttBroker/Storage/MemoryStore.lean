-- The session store in memory (`mqtt-storage/src/lib.rs`): one entry for each client,
-- with its subscriptions, its queue, its QoS 2 windows and its packet ids.
import MqttBroker.Storage.Records

namespace mqtt_storage

open mqtt_core

/-! ## What a store answers -/

/-- The failure may pass. -/
def StorageError.is_transient : StorageError → Bool
  | .Unavailable _ | .NotOwner | .NoQuorum => true
  | .NotFound | .Backend _ => false

inductive OverflowPolicy
  | DropOldest
  | RejectNewest
  deriving DecidableEq

structure QueueLimits where
  max_messages : Nat := 100000
  overflow : OverflowPolicy := .DropOldest

/-- A queue holds one message at least. -/
def QueueLimits.cap (limits : QueueLimits) : Nat := max limits.max_messages 1

inductive Enqueued
  | Stored (offset evicted : Nat)
  | Rejected
  deriving DecidableEq

inductive SessionClaim
  | Granted (present : Bool)
  | Denied (owner : String)
  deriving DecidableEq

inductive InboundSighting
  | Fresh
  | HeldUnacked
  | HeldAcked
  deriving DecidableEq

structure QueuedMessage where
  offset : Nat
  message : Message
  expiry_at : Option U64
  origin : Option PublishOrigin
  deriving DecidableEq

structure OutboundInflight where
  packet_id : U16
  offset : Nat
  pubrec_seen : Bool
  deriving DecidableEq

/-! ## The store -/

structure SessionEntry where
  subscriptions : List Subscription := []
  queue : List QueuedMessage := []
  next_offset : Nat := 0
  received_qos2 : BTreeSet U16 := ∅
  /-- Those received whose PUBREC was never released. -/
  unacked_qos2 : BTreeSet U16 := ∅
  outbound_qos2 : BTreeMap U16 (Nat × Bool) := ∅
  last_packet_id : U16 := 0
  session_expiry_at : Option U64 := none
  session_expiry_interval : Option U32 := none
  owner : Option String := none

structure MemorySessionStore where
  sessions : BTreeMap String SessionEntry := ∅
  limits : QueueLimits := {}

namespace MemorySessionStore

variable (s : MemorySessionStore) (client : String)

/-- The entry of a client, which is made when there is none. -/
def entry : SessionEntry := s.sessions[client]?.getD {}

def put (e : SessionEntry) : MemorySessionStore :=
  { s with sessions := s.sessions.insert client e }

def modify (f : SessionEntry → SessionEntry) : MemorySessionStore :=
  match s.sessions[client]? with
  | some e => s.put client (f e)
  | none => s

def ensure_session : Bool × MemorySessionStore :=
  (s.sessions[client]?.isSome, s.put client (s.entry client))

def claim_session (owner : String) : SessionClaim × MemorySessionStore :=
  match s.sessions[client]? with
  | none => (.Granted false, s.put client { owner := some owner })
  | some e =>
    match e.owner with
    | none => (.Granted true, s.put client { e with owner := some owner })
    | some existing =>
      if existing = owner then (.Granted true, s) else (.Denied existing, s)

def set_subscriptions (subscriptions : List Subscription) : MemorySessionStore :=
  s.put client { s.entry client with subscriptions }

def subscriptions : List Subscription := (s.entry client).subscriptions

def enqueue_tagged (message : Message) (expiry_at : Option U64) (origin : Option PublishOrigin) :
    Enqueued × MemorySessionStore :=
  let e := s.entry client
  let cap := s.limits.cap
  if cap ≤ e.queue.length ∧ s.limits.overflow = .RejectNewest then (.Rejected, s.put client e)
  else
    let evicted := e.queue.length + 1 - cap
    let offset := e.next_offset + 1
    (.Stored offset evicted, s.put client { e with
      next_offset := offset
      queue := e.queue.drop evicted ++ [{ offset, message, expiry_at, origin }] })

def enqueue_with_expiry (message : Message) (expiry_at : Option U64) :
    Enqueued × MemorySessionStore := s.enqueue_tagged client message expiry_at none

def pending (after limit : Nat) : List QueuedMessage :=
  ((s.entry client).queue.filter fun m => decide (after < m.offset)).take limit

def ack (up_to : Nat) : Option StorageError × MemorySessionStore :=
  match s.sessions[client]? with
  | none => (some .NotFound, s)
  | some e =>
    (none, s.put client { e with queue := e.queue.dropWhile fun m => decide (m.offset ≤ up_to) })

def record_received (packet_id : U16) : InboundSighting × MemorySessionStore :=
  let e := s.entry client
  if packet_id ∈ e.received_qos2 then
    (if packet_id ∈ e.unacked_qos2 then .HeldUnacked else .HeldAcked, s.put client e)
  else
    (.Fresh, s.put client { e with
      received_qos2 := e.received_qos2.insert packet_id
      unacked_qos2 := e.unacked_qos2.insert packet_id })

def ack_received (packet_id : U16) : MemorySessionStore :=
  s.modify client fun e => { e with unacked_qos2 := e.unacked_qos2.erase packet_id }

def clear_received (packet_id : U16) : MemorySessionStore :=
  s.modify client fun e => { e with
    received_qos2 := e.received_qos2.erase packet_id
    unacked_qos2 := e.unacked_qos2.erase packet_id }

def received : List U16 := (s.entry client).received_qos2.toList

def record_outbound (packet_id : U16) (offset : Nat) : MemorySessionStore :=
  let e := s.entry client
  s.put client { e with outbound_qos2 := e.outbound_qos2.insert packet_id (offset, false) }

def advance_outbound (packet_id : U16) : MemorySessionStore :=
  s.modify client fun e => { e with
    outbound_qos2 := e.outbound_qos2.alter packet_id (Option.map fun x => (x.1, true)) }

def clear_outbound (packet_id : U16) : MemorySessionStore :=
  s.modify client fun e => { e with outbound_qos2 := e.outbound_qos2.erase packet_id }

def outbound : List OutboundInflight :=
  (s.entry client).outbound_qos2.toList.map fun x => ⟨x.1, x.2.1, x.2.2⟩

/-- The ids go from 1 to the last and round again. -/
def next_packet_id : U16 × MemorySessionStore :=
  let e := s.entry client
  let id := if e.last_packet_id.val = 2 ^ 16 - 1 then 1 else e.last_packet_id + 1
  (id, s.put client { e with last_packet_id := id })

def remove : MemorySessionStore := { s with sessions := s.sessions.erase client }

def set_session_expiry (deadline : Option U64) : MemorySessionStore :=
  s.modify client fun e => { e with session_expiry_at := deadline }

def set_session_lifetime (interval : U32) (deadline : Option U64) : MemorySessionStore :=
  s.modify client fun e => { e with
    session_expiry_at := deadline
    session_expiry_interval := some interval }

def reserve_packet_ids (count : U16) : U16 × MemorySessionStore :=
  match s.sessions[client]? with
  | none => (0, s)
  | some e => (e.last_packet_id, s.put client { e with last_packet_id := e.last_packet_id + count })

/-! ## One client's entry -/

@[simp] theorem get_put (e : SessionEntry) (k : String) :
    (s.put client e).sessions[k]? = if client = k then some e else s.sessions[k]? := by
  unfold put
  rw [BTreeMap.get_insert]

theorem entry_of_get {e : SessionEntry} (h : s.sessions[client]? = some e) :
    s.entry client = e := by
  unfold entry
  rw [h]
  rfl

theorem modify_of_get {e : SessionEntry} (h : s.sessions[client]? = some e)
    (f : SessionEntry → SessionEntry) : s.modify client f = s.put client (f e) := by
  unfold modify
  rw [h]

end MemorySessionStore

end mqtt_storage
