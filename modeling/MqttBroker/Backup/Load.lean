-- The import of a backup (`backup.rs`): the records of an export file, and the plan of a
-- restore that is made of the files of a directory.
import MqttBroker.Storage.Records
import Mathlib.Data.List.Sort

namespace mqttd.backup

open mqtt_storage (U16 U64)

abbrev Bytes := List UInt8

def FORMAT : String := "mqttd-backup"

def SUFFIX : String := ".ndjson"

/-! ## The records of a file -/

/-- The token of a session record: the epoch and the highest offset of its queue. -/
structure Token where
  epoch : Nat
  high_offset : Nat
  deriving DecidableEq

structure RetainedToken where
  epoch : Nat
  offset : Nat
  deriving DecidableEq

structure SubscriptionRecord where
  filter : String
  max_qos : UInt8
  no_local : Bool
  deriving DecidableEq

structure InboundRecord where
  packet_id : U16
  acked : Bool
  deriving DecidableEq

structure OutboundRecord where
  packet_id : U16
  offset : Nat
  pubrec_seen : Bool
  deriving DecidableEq

structure PropsRecord where
  payload_format : Option UInt8 := none
  content_type : Option String := none
  response_topic : Option String := none
  correlation_data_b64 : Option String := none
  user_properties : List (String × String) := []
  deriving DecidableEq

structure QueuedRecord where
  offset : Nat
  topic : String
  payload_b64 : String
  qos : UInt8
  expiry_at : Option U64
  props : PropsRecord
  deriving DecidableEq

structure SessionRecord where
  client : String
  owner : Option String
  subscriptions : List SubscriptionRecord
  session_expiry_at : Option U64
  last_packet_id : U16
  received_qos2 : List InboundRecord
  outbound_qos2 : List OutboundRecord
  token : Token
  queue : List QueuedRecord
  deriving DecidableEq

structure RetainedRecord where
  topic : String
  payload_b64 : String
  qos : UInt8
  expires_at : Option U64
  props : PropsRecord
  token : Option RetainedToken := none
  /-- It clears the topic. -/
  tombstone : Bool := false
  deriving DecidableEq

/-! ## Characters -/

def hex_digit (n : Nat) : Char := if n < 10 then Char.ofNat (48 + n) else Char.ofNat (87 + n)

def is_ascii_whitespace (b : UInt8) : Bool := b = 32 || b = 9 || b = 10 || b = 12 || b = 13

/-! ## The plan -/

structure RestorePlan where
  sessions : List SessionRecord := []
  retained : List RetainedRecord := []

end mqttd.backup
