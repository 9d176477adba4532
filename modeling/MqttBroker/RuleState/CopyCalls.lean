-- The copy of an eventual namespace (`rule_state/replica.rs`), and the merge of a state that a
-- peer sent into it. It reads the clock where the code does.
import MqttBroker.RuleState.Copy

namespace mqttd.rule_state.copy

open mqtt_rules
open ByteCodec (stringBytes)
open mqttd.rule_state.local_store (Key SHARDS ELEMENT_OVERHEAD SKETCH_OVERHEAD NUMBER_BYTES
  PURGE_BATCH PURGE_EVERY_MS Refusal NamespaceSettings StateOp StateReply StateError Step Estimate
  op_key done int_of seconds exact_eq sketch_bytes wrong_type_message mul_saturating
  add_saturating remembered_of u64_max)
open mqttd.rule_state.replica (MAX_KEY_BYTES HELD_KEYS)
open mqttd.rule_state.replica.Replica (expired forgettable)

/-- What the node and the namespace are set to. -/
structure Config where
  json : Json
  est : Estimate
  /-- The node's id among the members, and the one that it counts under. -/
  id : String
  counts_as : String
  name : String
  shard_of : Key → Fin SHARDS
  window_ms : UInt64
  /-- The ceiling of the store. -/
  max_store : Nat

/-- Why a state that a peer sent was not taken. -/
inductive Refused
  | Declaration
  | ClockSkew
  | NamespaceFull
  | StoreFull
  | Brownout
  | Malformed
  deriving DecidableEq, Repr

def Refused.of : Refusal → Refused
  | .StoreFull => .StoreFull
  | _ => .NamespaceFull

/-- The summary of a copy, and what it is good for. `made_ms` records when it was made, for the
statements about runs. -/
structure Digest where
  /-- For each part, the hashes of its keys folded together. -/
  parts : Nat → UInt64
  mutations : Nat
  good_until_ms : Nat
  made_ms : UInt64

/-- The copy. `wall` gives the readings of the clock in their order. -/
structure Copy where
  shards : Fin SHARDS → Shard := fun _ => {}
  books : Books := {}
  max_keys : Nat
  max_bytes : Nat
  brownout : Bool := false
  expiry_events : Bool := false
  peers : List Peer := []
  /-- The links of the members last picked among. -/
  picked_among : List Nat := []
  /-- Raised by every change to a shard. -/
  mutations : Fin SHARDS → Nat := fun _ => 0
  digest : Option Digest := none
  clock : Hlc
  wall : Nat → UInt64
  reads : Nat := 0
  purged_ms : Nat := 0
  merged : Nat := 0
  refused : Refused → Nat := fun _ => 0
  /-- The refusals of the rules' calls. -/
  failed : Refusal → Nat := fun _ => 0

namespace Hold

variable (cfg : Config) (set : Setting) (h : Hold)

/-- Reserves room for a new key. Keys that the shard can forget are room, too. -/
def make_room (now_ms : UInt64) (bounds : Bounds) (bytes : Nat) : Except Refusal Unit × Hold :=
  match h.books.reserve_within bounds bytes with
  | .ok books => (.ok (), ⟨h.shard, books⟩)
  | .error refusal =>
    match h.purge set now_ms with
    | (false, h) => (.error refusal, h)
    | (true, h) =>
      match h.books.reserve_within bounds bytes with
      | .ok books => (.ok (), ⟨h.shard, books⟩)
      | .error refusal => (.error refusal, h)

/-- The state of a key that arrives, once it is decoded and the clock has taken note of it. -/
def merge_state (key : Key) (theirs : KeyState) (their_hash : UInt64) (now_ms : UInt64)
    (bounds : Bounds) (brownout : Bool) : Except Refused Bool × Hold :=
  let base := BASE + key.length
  match h.shard.map[key]? with
  | none =>
    -- Nothing is held of it: a state that could be forgotten at once is not taken up.
    if forgettable theirs now_ms set.window_ms then (.ok false, h)
    else if brownout then (.error .Brownout, h)
    else
      let bytes := base + (theirs.data.map (weigh cfg.json)).getD 0
      match h.make_room set now_ms bounds bytes with
      | (.error refusal, h) => (.error (.of refusal), h)
      | (.ok (), h) =>
        -- What had already expired when it arrived is owed no event here.
        let evented := if expired theirs now_ms then theirs.expires_ms else 0
        let e : Entry := { state := theirs, bytes, hash := their_hash, evented }
        (.ok true, ⟨h.shard.set_due key e (due_slot theirs set.window_ms evented), h.books⟩)
  | some e =>
    if e.hash = their_hash then (.ok false, h)
    else
      let merged := e.state.merge cfg.json theirs
      -- The expiry stands, as this node saw it, and what the key held is kept for its event.
      let displaced : Except Refusal Hold :=
        if expired e.state now_ms = true ∧
            (merged.data.isNone = true ∨ merged.expires_ms ≠ e.state.expires_ms)
        then h.displace set key now_ms bounds else .ok h
      match displaced with
      | .error refusal => (.error (.of refusal), h)
      | .ok h =>
        match h.shard.map[key]? with
        | none => (.ok false, h)
        | some e =>
          let bytes := base + (merged.data.map (weigh cfg.json)).getD 0
          let resized : Except Refusal Books :=
            if e.bytes < bytes then h.books.grow_within bounds (bytes - e.bytes)
            else .ok (h.books.resize e.bytes bytes)
          match resized with
          | .error refusal => (.error (.of refusal), h)
          | .ok books =>
            let e := { e with state := merged, bytes, hash := 0 }
            (.ok true, ⟨h.shard.set_due key e (due_slot merged set.window_ms e.evented), books⟩)

end Hold

/-! ## The copy and its clock -/

namespace Copy

variable (cfg : Config) (c : Copy)

def hold (i : Fin SHARDS) : Hold := ⟨c.shards i, c.books⟩

def setHold (i : Fin SHARDS) (h : Hold) : Copy :=
  { c with shards := Function.update c.shards i h.shard, books := h.books }

def mutate (i : Fin SHARDS) : Copy :=
  { c with mutations := Function.update c.mutations i (c.mutations i + 1) }

/-- The reading of the wall clock that comes next. -/
def wall_ms : UInt64 := c.wall c.reads

def ticked : Copy := { c with reads := c.reads + 1 }

def setting : Setting where
  window_ms := cfg.window_ms
  expiry_events := c.expiry_events
  view := View.of cfg.id cfg.name c.peers

def declared : Bounds := ⟨c.max_keys, c.max_bytes, cfg.max_store⟩

def get (key : Key) : Option Entry := (c.shards (cfg.shard_of key)).map[key]?

/-! ## What a peer sent -/

def merge_inner (key : Key) (bytes : Bytes) : Except Refused Bool × Copy :=
  if key.isEmpty ∨ MAX_KEY_BYTES < key.length then (.error .Malformed, c)
  else
    match KeyState.decode cfg.json bytes with
    | .error _ => (.error .Malformed, c)
    | .ok theirs =>
      match c.clock.observe theirs.latest c.wall_ms with
      | .error _ => (.error .ClockSkew, c.ticked)
      | .ok clock =>
        let now_ms := clock.physical_ms c.wall_ms
        let i := cfg.shard_of key
        let (merged, h) := (c.hold i).merge_state cfg (c.setting cfg) key theirs
          (entry_hash key bytes) now_ms (c.declared cfg) c.brownout
        (merged, { c.ticked.setHold i h with clock })

/-- Merges the state of a key that another node sent: whether this copy changed, or why the
state was not taken. -/
def merge (key : Key) (bytes : Bytes) : Except Refused Bool × Copy :=
  match c.merge_inner cfg key bytes with
  | (.ok true, c) => (.ok true, { c.mutate (cfg.shard_of key) with merged := c.merged + 1 })
  | (.ok false, c) => (.ok false, c)
  | (.error reason, c) =>
    (.error reason,
      { c with refused := Function.update c.refused reason (c.refused reason + 1) })

end Copy

end mqttd.rule_state.copy
