-- The control packets of MQTT 3.1.1 and 5.0 (`packet.rs`): the fixed header, and
-- the body of each packet type as it is decoded and encoded in either version.
import MqttBroker.Codec.Properties
import MqttBroker.Core.Topic

namespace mqtt_codec

open Wire mqtt_core

inductive ProtocolVersion
  | V311
  | V5
  deriving DecidableEq, Repr

def ProtocolVersion.level : ProtocolVersion → UInt8
  | V311 => 4
  | V5 => 5

def ProtocolVersion.from_level (level : UInt8) : Option ProtocolVersion :=
  if level = 4 then some V311 else if level = 5 then some V5 else none

/-- The level as the two bits of a flag byte. -/
def QoS.bits : QoS → UInt8
  | .AtMostOnce => 0
  | .AtLeastOnce => 1
  | .ExactlyOnce => 2

def bits_if (flag : Bool) (bits : UInt8) : UInt8 := if flag then bits else 0

/-! ## The fixed header -/

inductive PacketType
  | Connect | ConnAck | Publish | PubAck | PubRec | PubRel | PubComp | Subscribe | SubAck
  | Unsubscribe | UnsubAck | PingReq | PingResp | Disconnect | Auth
  deriving DecidableEq, Repr

namespace PacketType

def from_nibble (n : UInt8) : Result PacketType :=
  match n with
  | 1 => .ok Connect
  | 2 => .ok ConnAck
  | 3 => .ok Publish
  | 4 => .ok PubAck
  | 5 => .ok PubRec
  | 6 => .ok PubRel
  | 7 => .ok PubComp
  | 8 => .ok Subscribe
  | 9 => .ok SubAck
  | 10 => .ok Unsubscribe
  | 11 => .ok UnsubAck
  | 12 => .ok PingReq
  | 13 => .ok PingResp
  | 14 => .ok Disconnect
  | 15 => .ok Auth
  | _ => .error (.MalformedPacket "invalid packet type 0")

def to_nibble : PacketType → UInt8
  | Connect => 1
  | ConnAck => 2
  | Publish => 3
  | PubAck => 4
  | PubRec => 5
  | PubRel => 6
  | PubComp => 7
  | Subscribe => 8
  | SubAck => 9
  | Unsubscribe => 10
  | UnsubAck => 11
  | PingReq => 12
  | PingResp => 13
  | Disconnect => 14
  | Auth => 15

end PacketType

structure FixedHeader where
  packet_type : PacketType
  flags : UInt8
  remaining_len : Nat
  deriving DecidableEq, Repr

/-- The header in front of `buf` and the bytes it takes, or nothing when it is not all
there yet. -/
def FixedHeader.decode (buf : Bytes) : Result (Option (FixedHeader × Nat)) :=
  match buf with
  | [] => .ok none
  | first :: rest => do
    let packet_type ← PacketType.from_nibble (first >>> 4)
    let flags := first &&& 0x0F
    match varint.decode rest with
    | .ok (remaining_len, consumed) =>
      .ok (some ({ packet_type, flags, remaining_len }, 1 + consumed))
    | .error .Incomplete => .ok none
    | .error e => .error e

/-! ## The packets -/

structure LastWill where
  topic : String
  payload : Bytes
  qos : QoS
  retain : Bool
  properties : Properties
  deriving DecidableEq, Repr

structure Connect where
  protocol : ProtocolVersion
  clean_session : Bool
  keep_alive : UInt16
  client_id : String
  last_will : Option LastWill
  username : Option String
  password : Option Bytes
  properties : Properties
  deriving DecidableEq, Repr

structure ConnAck where
  session_present : Bool
  code : UInt8
  properties : Properties
  deriving DecidableEq, Repr

structure Publish where
  dup : Bool
  qos : QoS
  retain : Bool
  topic : String
  pkid : Option UInt16
  properties : Properties
  payload : Bytes
  deriving DecidableEq, Repr

/-- PUBACK, PUBREC, PUBREL and PUBCOMP. -/
structure Ack where
  pkid : UInt16
  reason : UInt8 := 0
  properties : Properties := []
  deriving DecidableEq, Repr

structure SubscriptionOptions where
  no_local : Bool := false
  retain_as_published : Bool := false
  retain_handling : UInt8 := 0
  deriving DecidableEq, Repr

structure SubscribeFilter where
  path : String
  qos : QoS
  options : SubscriptionOptions
  deriving DecidableEq, Repr

structure Subscribe where
  pkid : UInt16
  filters : List SubscribeFilter
  properties : Properties
  deriving DecidableEq, Repr

structure SubAck where
  pkid : UInt16
  return_codes : Bytes
  properties : Properties
  deriving DecidableEq, Repr

structure Unsubscribe where
  pkid : UInt16
  filters : List String
  properties : Properties
  deriving DecidableEq, Repr

structure UnsubAck where
  pkid : UInt16
  reason_codes : Bytes := []
  properties : Properties := []
  deriving DecidableEq, Repr

structure Disconnect where
  reason : UInt8 := 0
  properties : Properties := []
  deriving DecidableEq, Repr

structure Auth where
  reason : UInt8
  properties : Properties
  deriving DecidableEq, Repr

inductive Packet
  | Connect (c : Connect)
  | ConnAck (a : ConnAck)
  | Publish (p : Publish)
  | PubAck (a : Ack)
  | PubRec (a : Ack)
  | PubRel (a : Ack)
  | PubComp (a : Ack)
  | Subscribe (s : Subscribe)
  | SubAck (a : SubAck)
  | Unsubscribe (u : Unsubscribe)
  | UnsubAck (a : UnsubAck)
  | PingReq
  | PingResp
  | Disconnect (d : Disconnect)
  | Auth (a : Auth)
  deriving DecidableEq, Repr

def Packet.packet_type : Packet → PacketType
  | .Connect _ => .Connect
  | .ConnAck _ => .ConnAck
  | .Publish _ => .Publish
  | .PubAck _ => .PubAck
  | .PubRec _ => .PubRec
  | .PubRel _ => .PubRel
  | .PubComp _ => .PubComp
  | .Subscribe _ => .Subscribe
  | .SubAck _ => .SubAck
  | .Unsubscribe _ => .Unsubscribe
  | .UnsubAck _ => .UnsubAck
  | .PingReq => .PingReq
  | .PingResp => .PingResp
  | .Disconnect _ => .Disconnect
  | .Auth _ => .Auth

/-! ## Decoding the bodies -/

def expect_flags (actual expected : UInt8) : Reader Unit :=
  check (actual = expected) (.MalformedPacket "reserved fixed-header flags set")

/-- The property block of a version 5 packet; version 3.1.1 has none. -/
def read_properties (version : ProtocolVersion) (ctx : PropContext) : Reader Properties :=
  if version = .V5 then Properties.decode_for ctx else pure []

/-- Properties that may be left out when nothing follows. -/
def read_trailing (ctx : PropContext) : Reader Properties := do
  if (← isEmpty) then pure [] else Properties.decode_for ctx

def decode_ack (version : ProtocolVersion) : Reader Ack := do
  let pkid ← read_u16
  if version ≠ .V5 then
    expect_empty
    return { pkid }
  else if (← isEmpty) then return { pkid }
  else
    let reason ← read_u8
    let properties ← read_trailing .PubAck
    expect_empty
    return { pkid, reason, properties }

def decode_will (version : ProtocolVersion) (will_qos_bits : UInt8) (will_retain : Bool) :
    Reader LastWill := do
  let qos ← orThrow (QoS.from_u8 will_qos_bits) (.MalformedPacket "invalid will QoS")
  let properties ← read_properties version .Will
  let topic ← read_string
  let payload ← read_binary
  return { topic, payload, qos, retain := will_retain, properties }

/-- A field that a flag announces. -/
def read_if {α : Type} (flag : Bool) (read : Reader α) : Reader (Option α) :=
  if flag then do
    let a ← read
    return some a
  else pure none

def decode_connect : Reader Connect := do
  let proto_name ← read_string
  check (proto_name = "MQTT") (.ProtocolViolation "unsupported protocol name")
  let level ← read_u8
  let protocol ← orThrow (ProtocolVersion.from_level level) (.UnsupportedProtocol level)
  let flags ← read_u8
  check (flags &&& 0x01 = 0) (.MalformedPacket "CONNECT reserved flag set")
  let clean_session := decide (flags &&& 0x02 ≠ 0)
  let will_flag := decide (flags &&& 0x04 ≠ 0)
  let will_qos_bits := (flags >>> 3) &&& 0x03
  let will_retain := decide (flags &&& 0x20 ≠ 0)
  let password_flag := decide (flags &&& 0x40 ≠ 0)
  let username_flag := decide (flags &&& 0x80 ≠ 0)
  check (¬ (will_flag = false ∧ (will_qos_bits ≠ 0 ∨ will_retain = true)))
    (.MalformedPacket "will qos/retain set without will flag")
  let keep_alive ← read_u16
  let properties ← read_properties protocol .Connect
  let client_id ← read_string
  let last_will ← read_if will_flag (decode_will protocol will_qos_bits will_retain)
  let username ← read_if username_flag read_string
  check (¬ (password_flag = true ∧ username_flag = false))
    (.MalformedPacket "password flag set without username flag")
  let password ← read_if password_flag read_binary
  expect_empty
  return { protocol, clean_session, keep_alive, client_id, last_will, username, password,
           properties }

def decode_connack (version : ProtocolVersion) : Reader ConnAck := do
  let ack_flags ← read_u8
  check (ack_flags &&& 0xFE = 0) (.MalformedPacket "CONNACK reserved flags set")
  let code ← read_u8
  let properties ← read_properties version .ConnAck
  expect_empty
  return { session_present := decide (ack_flags &&& 0x01 ≠ 0), code, properties }

def publish_flags (p : Publish) : UInt8 :=
  (QoS.bits p.qos <<< 1) ||| bits_if p.dup 0x08 ||| bits_if p.retain 0x01

def read_pkid : Reader UInt16 := do
  let id ← read_u16
  check (id ≠ 0) (.MalformedPacket "zero packet id on QoS>0 PUBLISH")
  return id

def decode_publish (version : ProtocolVersion) (flags : UInt8) : Reader Publish := do
  let dup := decide (flags &&& 0x08 ≠ 0)
  let qos ← orThrow (QoS.from_u8 ((flags >>> 1) &&& 0x03))
    (.MalformedPacket "invalid PUBLISH QoS (3)")
  let retain := decide (flags &&& 0x01 ≠ 0)
  check (¬ (qos = .AtMostOnce ∧ dup = true)) (.MalformedPacket "DUP set on QoS 0 PUBLISH")
  let topic ← read_string
  let pkid ← read_if (decide (qos ≠ .AtMostOnce)) read_pkid
  let properties ← read_properties version .Publish
  let payload ← read_remaining
  return { dup, qos, retain, topic, pkid, properties, payload }

def decode_options (version : ProtocolVersion) (byte : UInt8) : Reader SubscriptionOptions :=
  if version = .V5 then
    if byte &&& 0xC0 ≠ 0 then throw (.MalformedPacket "reserved SUBSCRIBE option bits")
    else
      let retain_handling := (byte >>> 4) &&& 0x03
      if retain_handling = 3 then throw (.ProtocolViolation "invalid SUBSCRIBE retain handling (3)")
      else pure
        { no_local := decide (byte &&& 0x04 ≠ 0)
          retain_as_published := decide (byte &&& 0x08 ≠ 0)
          retain_handling }
  else if byte &&& 0xFC ≠ 0 then throw (.MalformedPacket "reserved SUBSCRIBE option bits")
  else pure {}

def decode_filter (version : ProtocolVersion) : Reader SubscribeFilter := do
  let path ← read_string
  let byte ← read_u8
  let qos ← orThrow (QoS.from_u8 (byte &&& 0x03)) (.MalformedPacket "invalid requested QoS")
  let options ← decode_options version byte
  return { path, qos, options }

def decode_subscribe (version : ProtocolVersion) : Reader Subscribe := do
  let pkid ← read_u16
  let properties ← read_properties version .Subscribe
  let filters ← many (decode_filter version)
  check (filters ≠ []) (.ProtocolViolation "SUBSCRIBE with no filters")
  return { pkid, filters, properties }

def decode_suback (version : ProtocolVersion) : Reader SubAck := do
  let pkid ← read_u16
  let properties ← read_properties version .SubAck
  let return_codes ← many read_u8
  check (return_codes ≠ []) (.ProtocolViolation "SUBACK with no return codes")
  return { pkid, return_codes, properties }

def decode_unsubscribe (version : ProtocolVersion) : Reader Unsubscribe := do
  let pkid ← read_u16
  let properties ← read_properties version .Unsubscribe
  let filters ← many read_string
  check (filters ≠ []) (.ProtocolViolation "UNSUBSCRIBE with no filters")
  return { pkid, filters, properties }

def decode_unsuback (version : ProtocolVersion) : Reader UnsubAck := do
  let pkid ← read_u16
  if version ≠ .V5 then
    expect_empty
    return { pkid }
  else
    let properties ← Properties.decode_for .UnsubAck
    let reason_codes ← many read_u8
    check (reason_codes ≠ []) (.ProtocolViolation "UNSUBACK with no reason codes")
    return { pkid, reason_codes, properties }

/-- A reason code and properties, as DISCONNECT and AUTH have them, with their short
forms. -/
def decode_reason_and_properties (ctx : PropContext) : Reader (UInt8 × Properties) := do
  if (← isEmpty) then return (0, [])
  else
    let reason ← read_u8
    let properties ← read_trailing ctx
    expect_empty
    return (reason, properties)

def decode_disconnect (version : ProtocolVersion) : Reader Disconnect := do
  if version ≠ .V5 then
    expect_empty
    return {}
  else
    let (reason, properties) ← decode_reason_and_properties .Disconnect
    return { reason, properties }

def decode_body (header : FixedHeader) (version : ProtocolVersion) : Reader Packet :=
  match header.packet_type with
  | .Connect => do return .Connect (← decode_connect)
  | .ConnAck => do
    expect_flags header.flags 0
    return .ConnAck (← decode_connack version)
  | .Publish => do return .Publish (← decode_publish version header.flags)
  | .PubAck => do
    expect_flags header.flags 0
    return .PubAck (← decode_ack version)
  | .PubRec => do
    expect_flags header.flags 0
    return .PubRec (← decode_ack version)
  | .PubRel => do
    expect_flags header.flags 0x02
    return .PubRel (← decode_ack version)
  | .PubComp => do
    expect_flags header.flags 0
    return .PubComp (← decode_ack version)
  | .Subscribe => do
    expect_flags header.flags 0x02
    return .Subscribe (← decode_subscribe version)
  | .SubAck => do
    expect_flags header.flags 0
    return .SubAck (← decode_suback version)
  | .Unsubscribe => do
    expect_flags header.flags 0x02
    return .Unsubscribe (← decode_unsubscribe version)
  | .UnsubAck => do
    expect_flags header.flags 0
    return .UnsubAck (← decode_unsuback version)
  | .PingReq => do
    expect_flags header.flags 0
    expect_empty
    return .PingReq
  | .PingResp => do
    expect_flags header.flags 0
    expect_empty
    return .PingResp
  | .Disconnect => do
    expect_flags header.flags 0
    return .Disconnect (← decode_disconnect version)
  | .Auth => do
    check (version = .V5) (.ProtocolViolation "AUTH is MQTT 5.0 only")
    expect_flags header.flags 0
    let (reason, properties) ← decode_reason_and_properties .Auth
    return .Auth { reason, properties }

/-- The next packet of a stream, and the bytes that stay in the buffer. Nothing is taken
while the packet is not all there, or when its header is malformed. -/
def Packet.decode (buf : Bytes) (version : ProtocolVersion) : Result (Option Packet) × Bytes :=
  match FixedHeader.decode buf with
  | .error e => (.error e, buf)
  | .ok none => (.ok none, buf)
  | .ok (some (header, header_len)) =>
    let total := header_len + header.remaining_len
    if buf.length < total then (.ok none, buf)
    else
      let frame := (buf.take total).drop header_len
      match (decode_body header version).run frame with
      | .ok (packet, _) => (.ok (some packet), buf.drop total)
      | .error e => (.error e, buf.drop total)

/-! ## Encoding the bodies -/

def put_properties (version : ProtocolVersion) (ps : Properties) : Result Bytes :=
  if version = .V5 then ps.encode else .ok []

def put_option {α : Type} (put : α → Result Bytes) : Option α → Result Bytes
  | none => .ok []
  | some a => put a

def encode_ack (a : Ack) (version : ProtocolVersion) : Result Bytes :=
  if version = .V5 ∧ (a.reason ≠ 0 ∨ a.properties ≠ []) then do
    let properties ← a.properties.encode
    return put_u16 a.pkid ++ put_u8 a.reason ++ properties
  else .ok (put_u16 a.pkid)

def will_flags : Option LastWill → UInt8
  | some w => (0x04 : UInt8) ||| (QoS.bits w.qos <<< 3) ||| bits_if w.retain 0x20
  | none => 0

def connect_flags (c : Connect) : UInt8 :=
  bits_if c.clean_session 0x02 ||| will_flags c.last_will ||| bits_if c.username.isSome 0x80 |||
    bits_if c.password.isSome 0x40

def encode_will (version : ProtocolVersion) (w : LastWill) : Result Bytes := do
  let properties ← put_properties version w.properties
  let topic ← put_string w.topic
  let payload ← put_binary w.payload
  return properties ++ topic ++ payload

def encode_connect (c : Connect) : Result Bytes := do
  let name ← put_string "MQTT"
  let properties ← put_properties c.protocol c.properties
  let client_id ← put_string c.client_id
  let last_will ← put_option (encode_will c.protocol) c.last_will
  let username ← put_option put_string c.username
  let password ← put_option put_binary c.password
  return name ++ put_u8 c.protocol.level ++ put_u8 (connect_flags c) ++ put_u16 c.keep_alive ++
    properties ++ client_id ++ last_will ++ username ++ password

def encode_connack (a : ConnAck) (version : ProtocolVersion) : Result Bytes := do
  let properties ← put_properties version a.properties
  return put_u8 (if a.session_present then 1 else 0) ++ put_u8 a.code ++ properties

def put_pkid (p : Publish) : Result Bytes :=
  match p.qos, p.pkid with
  | .AtMostOnce, none => .ok []
  | .AtMostOnce, some _ => .error (.ProtocolViolation "packet id present on QoS 0 PUBLISH")
  | _, some id => .ok (put_u16 id)
  | _, none => .error (.ProtocolViolation "missing packet id on QoS>0 PUBLISH")

def encode_publish (p : Publish) (version : ProtocolVersion) : Result Bytes := do
  let topic ← put_string p.topic
  let pkid ← put_pkid p
  let properties ← put_properties version p.properties
  return topic ++ pkid ++ properties ++ p.payload

def filter_byte (version : ProtocolVersion) (f : SubscribeFilter) : UInt8 :=
  if version = .V5 then
    QoS.bits f.qos ||| bits_if f.options.no_local 0x04 |||
      bits_if f.options.retain_as_published 0x08 ||| ((f.options.retain_handling &&& 0x03) <<< 4)
  else QoS.bits f.qos

def encode_filter (version : ProtocolVersion) (f : SubscribeFilter) : Result Bytes := do
  let path ← put_string f.path
  return path ++ put_u8 (filter_byte version f)

def encode_subscribe (s : Subscribe) (version : ProtocolVersion) : Result Bytes :=
  if s.filters = [] then .error (.ProtocolViolation "SUBSCRIBE with no filters")
  else do
    let properties ← put_properties version s.properties
    let filters ← putMany (encode_filter version) s.filters
    return put_u16 s.pkid ++ properties ++ filters

def encode_suback (a : SubAck) (version : ProtocolVersion) : Result Bytes := do
  let properties ← put_properties version a.properties
  return put_u16 a.pkid ++ properties ++ a.return_codes

def encode_unsubscribe (u : Unsubscribe) (version : ProtocolVersion) : Result Bytes :=
  if u.filters = [] then .error (.ProtocolViolation "UNSUBSCRIBE with no filters")
  else do
    let properties ← put_properties version u.properties
    let filters ← putMany put_string u.filters
    return put_u16 u.pkid ++ properties ++ filters

def encode_unsuback (a : UnsubAck) (version : ProtocolVersion) : Result Bytes :=
  if version = .V5 then do
    let properties ← a.properties.encode
    return put_u16 a.pkid ++ properties ++ a.reason_codes
  else .ok (put_u16 a.pkid)

def encode_reason_and_properties (reason : UInt8) (properties : Properties) : Result Bytes :=
  if reason ≠ 0 ∨ properties ≠ [] then do
    let block ← properties.encode
    return put_u8 reason ++ block
  else .ok []

def encode_disconnect (d : Disconnect) (version : ProtocolVersion) : Result Bytes :=
  if version = .V5 then encode_reason_and_properties d.reason d.properties else .ok []

/-! ## Encoding a packet -/

def props_block_len (ps : Properties) : Result Nat := do
  let body ← ps.encoded_body_len
  if 2 ^ 32 ≤ body then .error (.ValueOutOfRange "properties length")
  else if varint.MAX < body then .error (.ValueOutOfRange "variable byte integer")
  else return varint.encoded_len body + body

/-- The length of the packet id, under the checks that encoding it makes. -/
def pkid_len (p : Publish) : Result Nat :=
  match p.qos, p.pkid with
  | .AtMostOnce, none => .ok 0
  | .AtMostOnce, some _ => .error (.ProtocolViolation "packet id present on QoS 0 PUBLISH")
  | _, some _ => .ok 2
  | _, none => .error (.ProtocolViolation "missing packet id on QoS>0 PUBLISH")

def publish_len (p : Publish) (version : ProtocolVersion) : Result Nat :=
  if MAX_U16 < (as_bytes p.topic).length then .error (.ValueOutOfRange "binary data length")
  else do
    let pkid ← pkid_len p
    let properties ← if version = .V5 then props_block_len p.properties else .ok 0
    return 2 + (as_bytes p.topic).length + pkid + properties + p.payload.length

def ack_len (a : Ack) (version : ProtocolVersion) : Result Nat :=
  if version = .V5 ∧ (a.reason ≠ 0 ∨ a.properties ≠ []) then do
    let properties ← props_block_len a.properties
    return 2 + 1 + properties
  else .ok 2

/-- The length of the body of a packet of the delivery path; nothing for the others. -/
def Packet.hot_body_len (packet : Packet) (version : ProtocolVersion) : Result (Option Nat) := do
  let body ← match packet with
    | .Publish p => some <$> publish_len p version
    | .PubAck a | .PubRec a | .PubComp a | .PubRel a => some <$> ack_len a version
    | .PingReq | .PingResp => .ok (some 0)
    | _ => .ok none
  match body with
  | some n => if varint.MAX < n then .error (.ValueOutOfRange "remaining length") else .ok (some n)
  | none => .ok none

def Packet.flags : Packet → UInt8
  | .Publish p => publish_flags p
  | .PubRel _ | .Subscribe _ | .Unsubscribe _ => 0x02
  | _ => 0

def Packet.encode_body (packet : Packet) (version : ProtocolVersion) : Result Bytes :=
  match packet with
  | .Connect c => encode_connect c
  | .ConnAck a => encode_connack a version
  | .Publish p => encode_publish p version
  | .PubAck a | .PubRec a | .PubComp a | .PubRel a => encode_ack a version
  | .UnsubAck a => encode_unsuback a version
  | .Subscribe s => encode_subscribe s version
  | .SubAck a => encode_suback a version
  | .Unsubscribe u => encode_unsubscribe u version
  | .Disconnect d => encode_disconnect d version
  | .Auth a => encode_reason_and_properties a.reason a.properties
  | .PingReq | .PingResp => .ok []

/-- The bytes that `encode` appends. The packets of the delivery path are sized first and
written behind the header; the others are written to a buffer of their own. -/
def Packet.encode (packet : Packet) (version : ProtocolVersion) : Result Bytes :=
  if version ≠ .V5 ∧ packet.packet_type = .Auth then
    .error (.ProtocolViolation "AUTH is MQTT 5.0 only")
  else do
    let first := (packet.packet_type.to_nibble <<< 4) ||| packet.flags
    match ← packet.hot_body_len version with
    | some body_len =>
      let head ← varint.encode body_len
      let body ← packet.encode_body version
      return put_u8 first ++ head ++ body
    | none =>
      let body ← packet.encode_body version
      if 2 ^ 32 ≤ body.length then .error (.ValueOutOfRange "remaining length")
      else
        let head ← varint.encode body.length
        return put_u8 first ++ head ++ body

end mqtt_codec
