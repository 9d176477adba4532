-- The records of a durable session (`mqtt-storage/src/logged.rs`): one snapshot of
-- the session's metadata, and one record for each queued message. Each grew by
-- blocks at its end, and a record of an earlier release ends before them.
import MqttBroker.Core.Topic
import MqttBroker.Lib.Bytes
import MqttBroker.Lib.Cursor
import MqttBroker.Lib.OrderedMap

namespace mqtt_storage

open mqtt_core
open ByteCodec (toBe ofBe stringBytes)
open CursorReader (Cursor Fault times)

abbrev Bytes := List UInt8
abbrev U16 := Fin (2 ^ 16)
abbrev U32 := Fin (2 ^ 32)
abbrev U64 := Fin (2 ^ 64)
abbrev Offset := U64

instance neZero_u16 : NeZero (2 ^ 16) := ⟨by decide⟩

instance neZero_u32 : NeZero (2 ^ 32) := ⟨by decide⟩

instance neZero_u64 : NeZero (2 ^ 64) := ⟨by decide⟩

instance transCmp_u16 : Std.TransCmp (compare : U16 → U16 → Ordering) := inferInstance

/-! ## What is stored -/

/-- Who published a message. It is kept in memory only. -/
structure Origin where
  id : Nat
  clientid : String
  username : Option String
  peer : Option String
  received_at_ms : Int
  republished : Bool
  republish_depth : U32
  deriving DecidableEq

structure AppProperties where
  payload_format : Option UInt8 := none
  content_type : Option String := none
  response_topic : Option String := none
  correlation_data : Option Bytes := none
  user_properties : List (String × String) := []
  origin : Option Origin := none
  deriving DecidableEq

structure Message where
  topic : String
  payload : Bytes
  qos : QoS
  retain : Bool
  app : AppProperties := {}
  expires_at : Option U64 := none
  deriving DecidableEq

structure PublishOrigin where
  node : String
  id : U64
  deriving DecidableEq

structure Subscription where
  filter : String
  max_qos : QoS
  no_local : Bool
  sub_id : Option U32 := none
  deriving DecidableEq

structure SessionMeta where
  subscriptions : List Subscription := []
  received_qos2 : BTreeSet U16 := ∅
  last_packet_id : U16 := 0
  session_expiry_at : Option U64 := none
  owner : Option String := none
  outbound_qos2 : BTreeMap U16 (U64 × Bool) := ∅
  unacked_received_qos2 : BTreeSet U16 := ∅
  session_expiry_interval : Option U32 := none

inductive StorageError
  | NotFound
  | Unavailable (message : String)
  | NotOwner
  | NoQuorum
  | Backend (message : String)
  deriving DecidableEq

namespace logged

/-! ## Writing -/

def qos_to_u8 : QoS → UInt8
  | .AtMostOnce => 0
  | .AtLeastOnce => 1
  | .ExactlyOnce => 2

def put_bool (b : Bool) : Bytes := [if b then 1 else 0]

def put_u16 (v : U16) : Bytes := toBe 2 v.val

def put_u32 (v : U32) : Bytes := toBe 4 v.val

def put_u64 (v : U64) : Bytes := toBe 8 v.val

/-- A length or a count as a `u32`: one that does not fit is cut to the largest. -/
def saturated (n : Nat) : Nat := min n (2 ^ 32 - 1)

def put_count (n : Nat) : Bytes := toBe 4 (saturated n)

def put_bytes (b : Bytes) : Bytes := put_count b.length ++ b.take (saturated b.length)

def put_str (s : String) : Bytes := put_bytes (stringBytes s)

/-- A count, and as many values as it says. -/
def put_list {α : Type} (put : α → Bytes) (l : List α) : Bytes :=
  put_count l.length ++ (l.take (saturated l.length)).flatMap put

/-- A flag, and the value when there is one. -/
def put_opt {α : Type} (put : α → Bytes) : Option α → Bytes
  | some a => 1 :: put a
  | none => [0]

def put_opt_u8 : Option UInt8 → Bytes := put_opt (fun b => [b])

def put_opt_str : Option String → Bytes := put_opt put_str

def put_opt_bytes : Option Bytes → Bytes := put_opt put_bytes

def put_opt_u64 : Option U64 → Bytes := put_opt put_u64

def encode_message (m : Message) : Bytes :=
  put_str m.topic ++ put_bytes m.payload ++ [qos_to_u8 m.qos] ++ put_bool m.retain

def put_property (p : String × String) : Bytes := put_str p.1 ++ put_str p.2

/-- The record of a queued message. The origin is written only when there is one. -/
def encode_queued (m : Message) (expiry_at : Option U64) (origin : Option PublishOrigin) : Bytes :=
  encode_message m ++ put_opt_u64 expiry_at ++ put_list put_property m.app.user_properties ++
    put_opt_u8 m.app.payload_format ++ put_opt_str m.app.content_type ++
    put_opt_str m.app.response_topic ++ put_opt_bytes m.app.correlation_data ++
    match origin with
    | some o => 1 :: (put_str o.node ++ put_u64 o.id)
    | none => []

def put_subscription (s : Subscription) : Bytes :=
  put_str s.filter ++ [qos_to_u8 s.max_qos] ++ put_bool s.no_local

def put_outbound (e : U16 × U64 × Bool) : Bytes :=
  put_u16 e.1 ++ put_u64 e.2.1 ++ put_bool e.2.2

def put_sub_id (e : String × U32) : Bytes := put_str e.1 ++ put_u32 e.2

def sub_ids (subscriptions : List Subscription) : List (String × U32) :=
  subscriptions.filterMap (fun s => s.sub_id.map (fun id => (s.filter, id)))

/-- The snapshot of a session. The last three blocks are written only when they or a later one
hold something. -/
def encode_session_meta (m : SessionMeta) : Bytes :=
  let has_sub_ids := m.subscriptions.any (fun s => s.sub_id.isSome)
  let has_interval := m.session_expiry_interval.isSome
  put_list put_subscription m.subscriptions ++ put_list put_u16 m.received_qos2.toList ++
    put_u16 m.last_packet_id ++ put_opt_u64 m.session_expiry_at ++ put_opt_str m.owner ++
    put_list put_outbound m.outbound_qos2.toList ++
    (if !m.unacked_received_qos2.isEmpty || has_sub_ids || has_interval then
      put_list put_u16 m.unacked_received_qos2.toList else []) ++
    (if has_sub_ids || has_interval then put_list put_sub_id (sub_ids m.subscriptions) else []) ++
    match m.session_expiry_interval with
    | some interval => put_u32 interval
    | none => []

/-! ## Reading -/

abbrev Reader := CursorReader.Reader StorageError

def corrupt : StorageError := .Backend "corrupt log record"

namespace Reader

/-- Whether every byte was read. -/
def is_empty : Reader Bool := do
  let r ← get
  return decide (r.buf.length ≤ r.pos)

/-- The next bytes. The end of a slice fits its length type, so that the sum overflows only past
the end of the buffer. -/
def take (n : Nat) : Reader Bytes := do
  let r ← get
  let last := r.pos + n
  if last ≤ r.buf.length then
    let s ← CursorReader.slice r.pos last
    set { r with pos := last }
    return s
  else CursorReader.fail corrupt

def u8 : Reader UInt8 := do
  CursorReader.index (← take 1) 0

def u16 : Reader U16 := do
  let b ← take 2
  let b0 ← CursorReader.index b 0
  let b1 ← CursorReader.index b 1
  return Fin.ofNat _ (ofBe [b0, b1])

def u32 : Reader U32 := do
  let b ← take 4
  let b0 ← CursorReader.index b 0
  let b1 ← CursorReader.index b 1
  let b2 ← CursorReader.index b 2
  let b3 ← CursorReader.index b 3
  return Fin.ofNat _ (ofBe [b0, b1, b2, b3])

def u64 : Reader U64 := do
  let b ← take 8
  if b.length = 8 then return Fin.ofNat _ (ofBe b) else CursorReader.fail corrupt

def bytes : Reader Bytes := do
  let len ← u32
  take len.val

def string : Reader String := do
  let b ← bytes
  match String.fromUTF8? ⟨b.toArray⟩ with
  | some s => return s
  | none => CursorReader.fail corrupt

/-- A field that an earlier release did not write. -/
def ifAny {α : Type} (m : Reader α) (default : α) : Reader α := do
  if (← is_empty) then return default else m

/-- A value behind a flag. -/
def flagged {α : Type} (m : Reader α) : Reader (Option α) := do
  if (← u8) == 1 then return some (← m) else return none

/-- A count, and as many values as it says. -/
def list {α : Type} (item : Reader α) : Reader (List α) := do
  let n ← u32
  times item n.val

end Reader

def qos_from_u8 (v : UInt8) : Reader QoS :=
  match QoS.from_u8 v with
  | some q => return q
  | none => CursorReader.fail corrupt

def property : Reader (String × String) := do
  let k ← Reader.string
  let v ← Reader.string
  return (k, v)

def read_origin : Reader PublishOrigin := do
  let node ← Reader.string
  let id ← Reader.u64
  return { node, id }

/-- The application properties of a queued record, when it has any. -/
def read_app : Reader AppProperties := do
  let user_properties ← Reader.list property
  let payload_format ← Reader.ifAny (Reader.flagged Reader.u8) none
  let content_type ← Reader.ifAny (Reader.flagged Reader.string) none
  let response_topic ← Reader.ifAny (Reader.flagged Reader.string) none
  let correlation_data ← Reader.ifAny (Reader.flagged Reader.bytes) none
  return { payload_format, content_type, response_topic, correlation_data, user_properties }

def read_queued : Reader (Message × Option U64 × Option PublishOrigin) := do
  let topic ← Reader.string
  let payload ← Reader.bytes
  let qos ← qos_from_u8 (← Reader.u8)
  let retain := (← Reader.u8) != 0
  let expiry_at ← Reader.flagged Reader.u64
  let app ← Reader.ifAny read_app {}
  let origin ← Reader.ifAny (Reader.flagged read_origin) none
  return ({ topic, payload, qos, retain, app }, expiry_at, origin)

def read_subscription : Reader Subscription := do
  let filter ← Reader.string
  let max_qos ← qos_from_u8 (← Reader.u8)
  let no_local := (← Reader.u8) != 0
  return { filter, max_qos, no_local }

def read_outbound : Reader (U16 × U64 × Bool) := do
  let id ← Reader.u16
  let offset ← Reader.u64
  let pubrec_seen := (← Reader.u8) != 0
  return (id, offset, pubrec_seen)

def read_sub_id : Reader (String × U32) := do
  let f ← Reader.string
  let id ← Reader.u32
  return (f, id)

/-- The first subscription to a filter gets its identifier. -/
def set_sub_id : List Subscription → String × U32 → List Subscription
  | [], _ => []
  | s :: rest, e =>
    if s.filter = e.1 then { s with sub_id := some e.2 } :: rest else s :: set_sub_id rest e

def insert_all (ids : List U16) : BTreeSet U16 := ids.foldl (fun s id => s.insert id) ∅

def insert_outbound (l : List (U16 × U64 × Bool)) : BTreeMap U16 (U64 × Bool) :=
  l.foldl (fun m e => m.insert e.1 e.2) ∅

def read_session_meta : Reader SessionMeta := do
  let subscriptions ← Reader.list read_subscription
  let received ← Reader.list Reader.u16
  let last_packet_id ← Reader.u16
  let session_expiry_at ← Reader.ifAny (Reader.flagged Reader.u64) none
  let owner ← Reader.ifAny (Reader.flagged Reader.string) none
  let outbound ← Reader.ifAny (Reader.list read_outbound) []
  let unacked ← Reader.ifAny (Reader.list Reader.u16) []
  let ids ← Reader.ifAny (Reader.list read_sub_id) []
  let session_expiry_interval ← Reader.ifAny (do return some (← Reader.u32)) none
  return {
    subscriptions := ids.foldl set_sub_id subscriptions
    received_qos2 := insert_all received
    last_packet_id
    session_expiry_at
    owner
    outbound_qos2 := insert_outbound outbound
    unacked_received_qos2 := insert_all unacked
    session_expiry_interval }

/-- Read a whole record; bytes behind its last block are not read. -/
def decode {α : Type} (m : Reader α) (buf : Bytes) : Except (Fault StorageError) α :=
  (m.run ⟨buf, 0⟩).map Prod.fst

def decode_queued (buf : Bytes) :
    Except (Fault StorageError) (Message × Option U64 × Option PublishOrigin) :=
  decode read_queued buf

def decode_session_meta (buf : Bytes) : Except (Fault StorageError) SessionMeta :=
  decode read_session_meta buf

end logged

end mqtt_storage
