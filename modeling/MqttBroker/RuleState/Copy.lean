-- One node's copy of an eventual namespace in full (`rule_state/replica.rs`): its keys with
-- their places in the orders of change and of forgetting, the notes of expired keys whose
-- events are owed, and the counts that its shards share. What one hold of a shard's lock
-- does is here; the calls of the rules and the merges are in the modules after this one.
import Mathlib.Data.List.Destutter
import MqttBroker.Cluster.Placement
import MqttBroker.RuleState.LocalStore
import MqttBroker.RuleState.Replica

namespace mqttd.rule_state.copy

open mqtt_rules
open ByteCodec (stringBytes)
open mqttd.rule_state.local_store (Key SHARDS ENTRY_OVERHEAD ELEMENT_OVERHEAD SKETCH_OVERHEAD
  NUMBER_BYTES PURGE_BATCH PURGE_EVERY_MS Refusal remembered sketch_bytes expiry_slot
  mul_saturating)
open mqttd.rule_state.replica.Replica (expired forgettable)

def REPLICA_OVERHEAD : Nat := 96

/-- What a key is accounted before its own bytes and its value's. -/
def BASE : Nat := ENTRY_OVERHEAD + REPLICA_OVERHEAD

def COUNTER_ROW_BYTES : Nat := 32

/-! ## The hash of a state -/

def rotate_left (x : UInt64) (n : UInt64) : UInt64 := (x <<< n) ||| (x >>> (64 - n))

/-- The four words that the hash goes on with. -/
structure Sip where
  v0 : UInt64
  v1 : UInt64
  v2 : UInt64
  v3 : UInt64

namespace Sip

def round (v : Sip) : Sip :=
  let v0 := v.v0 + v.v1
  let v1 := rotate_left v.v1 13 ^^^ v0
  let v0 := rotate_left v0 32
  let v2 := v.v2 + v.v3
  let v3 := rotate_left v.v3 16 ^^^ v2
  let v0 := v0 + v3
  let v3 := rotate_left v3 21 ^^^ v0
  let v2 := v2 + v1
  let v1 := rotate_left v1 17 ^^^ v2
  let v2 := rotate_left v2 32
  ⟨v0, v1, v2, v3⟩

def absorb (v : Sip) (word : UInt64) : Sip :=
  let v := ({ v with v3 := v.v3 ^^^ word } : Sip).round.round
  { v with v0 := v.v0 ^^^ word }

end Sip

def from_le_bytes (bytes : Bytes) : UInt64 :=
  bytes.foldr (fun b n => n <<< 8 ||| b.toUInt64) 0

def to_le_bytes (n : UInt64) : Bytes :=
  (List.range 8).map fun i => (n >>> UInt64.ofNat (8 * i)).toUInt8

/-- The words of eight bytes each, and the bytes after them. -/
def sip_words (v : Sip) : Nat → Bytes → Sip × Bytes
  | 0, rest => (v, rest)
  | words + 1, data => sip_words (v.absorb (from_le_bytes (data.take 8))) words (data.drop 8)

def siphash24 (k0 k1 : UInt64) (data : Bytes) : UInt64 :=
  let v : Sip := ⟨k0 ^^^ 0x736f6d6570736575, k1 ^^^ 0x646f72616e646f6d,
    k0 ^^^ 0x6c7967656e657261, k1 ^^^ 0x7465646279746573⟩
  let (v, rest) := sip_words v (data.length / 8) data
  let last := rest ++ List.replicate (7 - rest.length) 0 ++ [UInt8.ofNat data.length]
  let v := v.absorb (from_le_bytes last)
  let v := ({ v with v2 := v.v2 ^^^ 0xff } : Sip).round.round.round.round
  v.v0 ^^^ v.v1 ^^^ v.v2 ^^^ v.v3

/-- The 64 bits that every node hashes the bytes to. -/
def stable_hash (bytes : Bytes) : UInt64 :=
  siphash24 (from_le_bytes (stringBytes "mqttd.kv")) (from_le_bytes (stringBytes "_hll.v01")) bytes

def key_bytes (key : Key) : Bytes := key.map fun b => UInt8.ofNat b

def key_hash (key : Key) : UInt64 := stable_hash (key_bytes key)

/-- The hash of a key and its encoded state, which is never 0. -/
def entry_hash (key : Key) (state : Bytes) : UInt64 :=
  max (stable_hash (to_le_bytes (key_hash key) ++ to_le_bytes (stable_hash state))) 1

/-! ## What a key is accounted as -/

def digits (n : Nat) : Nat := Nat.log 10 n + 1

def written_len (json : Json) : Value → Nat
  | .Str s => (stringBytes s).length
  | .Bin bytes => bytes.length
  | .Bool true | .Null => 4
  | .Bool false => 5
  | .Int n => digits n.toInt.natAbs + (if n < 0 then 1 else 0)
  | v => ((json.to_json v).map fun text => (stringBytes text).length).getD (2 ^ 64 - 1)

def counter_bytes (counts : Counts) : Nat :=
  NUMBER_BYTES + (counts.rows.length - 1) * COUNTER_ROW_BYTES +
    (counts.rows.map fun row => (stringBytes row.node).length).sum

/-- What the data of a state that arrives is accounted as. -/
def weigh (json : Json) : Data → Nat
  | .Lww _ value | .First _ value | .Max value | .Min value => written_len json value
  | .Sum counts => counter_bytes counts
  | .Union elements =>
    (elements.items.map fun item => ELEMENT_OVERHEAD + written_len json item.2).sum
  -- a sketch that was decoded or copied is weighed as one that grew to its registers
  | .Hll sketch => SKETCH_OVERHEAD + sketch_bytes sketch

/-! ## Entries, notes and shards -/

structure Entry where
  state : KeyState
  bytes : Nat
  /-- The hash of the key and its state; 0 while it is not worked out. -/
  hash : UInt64 := 0
  /-- Its place in the order of change; 0 while this node has not changed it. -/
  changed : Nat := 0
  /-- Its place in the order of forgetting; 0 while it is not in it. -/
  due : Nat := 0
  /-- The expiry that has been dealt with. -/
  evented : UInt64 := 0
  /-- Where the notes have the key while it stays in the map; 0 while they do not. -/
  waiting : Nat := 0

/-- An expired key whose event has yet to be raised. -/
structure Waiting where
  key : Key
  expired_ms : UInt64
  /-- The link to the member that is to raise the event; 0 for this node. -/
  owner : Nat
  /-- What it held and what that is accounted as, once the map no longer holds it so. -/
  body : Option (KeyState × Nat) := none

/-- `made` records the notes that were ever made, for the statements about runs. -/
structure Shard where
  map : BTreeMap Key Entry := ∅
  /-- The keys that this node changed, by the number of their latest change. -/
  changed : BTreeMap Nat Key := ∅
  /-- The keys to look at again, by the second. -/
  due : BTreeSet (Nat ×ₗ Key) := ∅
  last : Nat := 0
  read_to : Nat := 0
  /-- The notes of the events that this node raises, by the second and the place. -/
  held : BTreeMap (Nat ×ₗ Nat) Waiting := ∅
  /-- Those that another member raises. -/
  standby : BTreeMap (Nat ×ₗ Nat) Waiting := ∅
  waits : Nat := 0
  made : List (Key × UInt64) := []

def note_at (expired_ms : UInt64) (place : Nat) : Nat ×ₗ Nat :=
  toLex (expiry_slot expired_ms.toNat, place)

namespace Shard

def put (s : Shard) (key : Key) (e : Entry) : Shard := { s with map := s.map.insert key e }

/-- Notes a key whose event is owed; where. -/
def wait (s : Shard) (w : Waiting) : Nat × Shard :=
  let place := s.waits + 1
  let s := { s with waits := place, made := (w.key, w.expired_ms) :: s.made }
  (place,
    if w.owner = 0 then { s with held := s.held.insert (note_at w.expired_ms place) w }
    else { s with standby := s.standby.insert (note_at w.expired_ms place) w })

/-- The note of a key takes what the key held; `none` when there is no such note. -/
def set_body (s : Shard) (expired_ms : UInt64) (place : Nat) (body : KeyState × Nat) :
    Option Shard :=
  let at_ := note_at expired_ms place
  match s.held[at_]? with
  | some w => some { s with held := s.held.insert at_ { w with body := some body } }
  | none =>
    match s.standby[at_]? with
    | some w => some { s with standby := s.standby.insert at_ { w with body := some body } }
    | none => none

/-- The entry with its place at `slot` in the order of forgetting. -/
def set_due (s : Shard) (key : Key) (e : Entry) (slot : Nat) : Shard :=
  if e.due = slot then s.put key e
  else
    let due := if e.due ≠ 0 then s.due.erase (toLex (e.due, key)) else s.due
    let due := if slot ≠ 0 then due.insert (toLex (slot, key)) else due
    { s with due, map := s.map.insert key { e with due := slot } }

/-- Takes a key out of the map and the orders. -/
def detach (s : Shard) (key : Key) : Option (Entry × Shard) :=
  match s.map[key]? with
  | none => none
  | some e =>
    some (e, { s with
      map := s.map.erase key
      changed := if e.changed ≠ 0 then s.changed.erase e.changed else s.changed
      due := if e.due ≠ 0 then s.due.erase (toLex (e.due, key)) else s.due })

end Shard

/-- The second in which a state is next to be looked at; 0 for never. -/
def due_slot (s : KeyState) (window_ms evented : UInt64) : Nat :=
  let window_over := saturating_add s.deleted.ms window_ms
  match s.data with
  | none => max (expiry_slot window_over.toNat) 1
  | some _ =>
    if s.expires_ms = 0 then 0
    else if s.expires_ms ≠ evented then max (expiry_slot s.expires_ms.toNat) 1
    else max (expiry_slot (max s.expires_ms window_over).toNat) 1

/-! ## The counts -/

/-- What is counted across the shards: the namespace's keys and bytes, the store's bytes, and
the keys that wait, stand by and have expired. -/
structure Books where
  keys : Nat := 0
  bytes : Nat := 0
  store : Nat := 0
  waiting : Nat := 0
  standing_by : Nat := 0
  expired : Nat := 0

structure Bounds where
  max_keys : Nat
  max_bytes : Nat
  /-- The ceiling of the store, over its namespaces. -/
  max_store : Nat

namespace Books

/-- Reserves room for one key, or names the bound in the way. -/
def reserve_within (b : Books) (bounds : Bounds) (bytes : Nat) : Except Refusal Books :=
  if ¬ b.keys < bounds.max_keys then .error .NamespaceFull
  else if ¬ b.bytes + bytes ≤ bounds.max_bytes then .error .NamespaceFull
  else if ¬ b.store + bytes ≤ bounds.max_store then .error .StoreFull
  else .ok { b with keys := b.keys + 1, bytes := b.bytes + bytes, store := b.store + bytes }

/-- Gives back the room of a key that is gone. -/
def release (b : Books) (bytes : Nat) : Books :=
  { b with keys := b.keys - 1, bytes := b.bytes - bytes, store := b.store - bytes }

/-- Accounts a change in the size of a key that stays. -/
def resize (b : Books) (before bytes : Nat) : Books :=
  if bytes = before then b
  else if before < bytes then
    { b with bytes := b.bytes + (bytes - before), store := b.store + (bytes - before) }
  else { b with bytes := b.bytes - (before - bytes), store := b.store - (before - bytes) }

/-- Accounts a key that a merge makes larger, within the bounds. -/
def grow_within (b : Books) (bounds : Bounds) (more : Nat) : Except Refusal Books :=
  if ¬ b.bytes + more ≤ bounds.max_bytes then .error .NamespaceFull
  else if ¬ b.store + more ≤ bounds.max_store then .error .StoreFull
  else .ok { b with bytes := b.bytes + more, store := b.store + more }

def count_waiting (b : Books) (owner : Nat) : Books :=
  { b with
    waiting := b.waiting + 1
    standing_by := if owner ≠ 0 then b.standing_by + 1 else b.standing_by }

def count_expired (b : Books) : Books := { b with expired := b.expired + 1 }

end Books

/-! ## Who raises an event -/

/-- Another member, as the link to it knows it. -/
structure Peer where
  link : Nat
  node : String
  raises : Bool := false
  settled : Bool := false
  /-- The second up to which it has nothing left to raise. -/
  swept : Nat := 0

/-- The members that raise the events of a namespace: this node, and every peer that says it
does over a link whose copies were compared. -/
structure View where
  nodes : List String
  peers : List Peer
  name : String

namespace View

/-- Of two links to one node, the newer counts. -/
def of (me name : String) (peers : List Peer) : View :=
  let raising := peers.filter fun p => p.raises && p.settled
  let sorted := raising.mergeSort fun a b =>
    decide (a.node < b.node) || (decide (a.node = b.node) && decide (b.link ≤ a.link))
  let peers := sorted.destutter fun a b => a.node ≠ b.node
  { nodes := me :: peers.map (·.node), peers, name }

/-- The link to the member that raises the event of the key; 0 for this node. -/
def owner (v : View) (key : Key) : Nat :=
  if v.peers.isEmpty then 0
  else
    let named := stringBytes v.name ++ 0 :: key_bytes key
    let picked := mqtt_cluster.hrw.owner named v.nodes
    (((v.nodes.zip (0 :: v.peers.map (·.link))).find? fun x => decide (some x.1 = picked)).map
      (·.2)).getD 0

end View

/-- What the node is set to while a shard's lock is held. -/
structure Setting where
  window_ms : UInt64
  expiry_events : Bool
  view : View

/-! ## A hold of a shard's lock -/

structure Hold where
  shard : Shard
  books : Books

namespace Hold

variable (set : Setting) (h : Hold)

/-- Takes a key out and gives its room back. -/
def remove (key : Key) : Hold :=
  match h.shard.detach key with
  | none => h
  | some (e, s) => ⟨s, h.books.release e.bytes⟩

/-- The key is about to hold something else than what expired in it: that is kept for its
event, where it is owed and has not been raised. -/
def displace (key : Key) (now_ms : UInt64) (bounds : Bounds) : Except Refusal Hold :=
  match h.shard.map[key]? with
  | none => .ok h
  | some e =>
    let expired_ms := e.state.expires_ms
    if expired e.state now_ms = false then .ok h
    else if e.waiting ≠ 0 then
      -- Owed, and noted while the map held it: the note takes what it held.
      match h.books.reserve_within bounds e.bytes with
      | .error refusal => .error refusal
      | .ok books =>
        let s := h.shard.put key { e with waiting := 0 }
        match s.set_body expired_ms e.waiting (e.state, e.bytes) with
        | some s => .ok ⟨s, books⟩
        | none => .ok ⟨s, books.release e.bytes⟩
    else if e.evented = expired_ms then .ok h
    else if set.expiry_events = false ∨ remembered key = true then
      .ok ⟨h.shard.put key { e with evented := expired_ms }, h.books.count_expired⟩
    else
      match h.books.reserve_within bounds e.bytes with
      | .error refusal => .error refusal
      | .ok books =>
        let owner := set.view.owner key
        let s := h.shard.put key { e with evented := expired_ms }
        let (_, s) := s.wait { key, expired_ms, owner, body := some (e.state, e.bytes) }
        .ok ⟨s, books.count_waiting owner⟩

/-- What `visit` does with a key that is due: its expiry is dealt with once, and it is
forgotten where nothing is lost by it. -/
def visit_key (key : Key) (e : Entry) (now_ms : UInt64) : Bool × Hold :=
  let expired_ms := e.state.expires_ms
  let lost := forgettable e.state now_ms set.window_ms
  let owed := expired e.state now_ms && decide (e.evented ≠ expired_ms)
  let e := if owed then { e with evented := expired_ms } else e
  let h : Hold := ⟨h.shard.put key e, h.books⟩
  let events := set.expiry_events && !remembered key
  if owed && events then
    let owner := set.view.owner key
    let books := h.books.count_waiting owner
    if lost then
      -- Out of the map, as on every member; its room stays accounted with the note.
      match h.shard.detach key with
      | none => (false, ⟨(h.shard.wait { key, expired_ms, owner }).2, books⟩)
      | some (e, s) =>
        (false, ⟨(s.wait { key, expired_ms, owner, body := some (e.state, e.bytes) }).2, books⟩)
    else
      let (place, s) := h.shard.wait { key, expired_ms, owner }
      let e := { e with waiting := place }
      (false, ⟨s.set_due key e (due_slot e.state set.window_ms e.evented), books⟩)
  else
    let h : Hold := if owed then ⟨h.shard, h.books.count_expired⟩ else h
    if lost then
      if e.waiting ≠ 0 then
        -- Its event is still owed: the note takes what it held, and its room with it.
        match h.shard.detach key with
        | none => (false, h)
        | some (gone, s) =>
          match s.set_body e.evented e.waiting (gone.state, gone.bytes) with
          | some s => (false, ⟨s, h.books⟩)
          | none => (false, ⟨s, h.books.release gone.bytes⟩)
      else (true, h.remove key)
    else (false, ⟨h.shard.set_due key e (due_slot e.state set.window_ms e.evented), h.books⟩)

/-- What looking at the keys that are due did. -/
structure Visited where
  looked : Nat := 0
  removed : Nat := 0

/-- The loop of `visit`, over as many keys as are left of the batch. -/
def visit_loop (now_ms : UInt64) : Nat → Visited → Hold → Visited × Hold
  | 0, visited, h => (visited, h)
  | n + 1, visited, h =>
    match h.shard.due.toList with
    | [] => (visited, h)
    | first :: _ =>
      let slot := (ofLex first).1
      let key := (ofLex first).2
      if mul_saturating slot 1000 ≤ now_ms.toNat then
        let h : Hold := ⟨{ h.shard with due := h.shard.due.erase first }, h.books⟩
        let visited := { visited with looked := visited.looked + 1 }
        match h.shard.map[key]? with
        | none => visit_loop now_ms n visited h
        | some e =>
          if e.due ≠ slot then visit_loop now_ms n visited h
          else
            let (gone, h) := h.visit_key set key { e with due := 0 } now_ms
            visit_loop now_ms n
              { visited with removed := visited.removed + (if gone then 1 else 0) } h
      else (visited, h)

/-- Looks at the keys of the shard that are due, a batch at most. -/
def visit (now_ms : UInt64) : Visited × Hold := visit_loop set now_ms PURGE_BATCH {} h

/-- Whether a key went and gave its room back. -/
def purge (now_ms : UInt64) : Bool × Hold :=
  let (visited, h) := h.visit set now_ms
  (decide (0 < visited.removed), h)

end Hold

end mqttd.rule_state.copy
