-- The property block of MQTT 5.0 (`properties.rs`): one value type for each
-- identifier, the block with its length in front, and which properties a packet
-- may carry.
import MqttBroker.Codec.Io

namespace mqtt_codec

open Wire

inductive Property
  | PayloadFormatIndicator (v : UInt8)
  | MessageExpiryInterval (v : UInt32)
  | ContentType (v : String)
  | ResponseTopic (v : String)
  | CorrelationData (v : Bytes)
  | SubscriptionIdentifier (v : UInt32)
  | SessionExpiryInterval (v : UInt32)
  | AssignedClientIdentifier (v : String)
  | ServerKeepAlive (v : UInt16)
  | AuthenticationMethod (v : String)
  | AuthenticationData (v : Bytes)
  | RequestProblemInformation (v : UInt8)
  | WillDelayInterval (v : UInt32)
  | RequestResponseInformation (v : UInt8)
  | ResponseInformation (v : String)
  | ServerReference (v : String)
  | ReasonString (v : String)
  | ReceiveMaximum (v : UInt16)
  | TopicAliasMaximum (v : UInt16)
  | TopicAlias (v : UInt16)
  | MaximumQoS (v : UInt8)
  | RetainAvailable (v : UInt8)
  | UserProperty (key value : String)
  | MaximumPacketSize (v : UInt32)
  | WildcardSubscriptionAvailable (v : UInt8)
  | SubscriptionIdentifierAvailable (v : UInt8)
  | SharedSubscriptionAvailable (v : UInt8)
  deriving DecidableEq, Repr

namespace Property

def id : Property → UInt8
  | PayloadFormatIndicator _ => 0x01
  | MessageExpiryInterval _ => 0x02
  | ContentType _ => 0x03
  | ResponseTopic _ => 0x08
  | CorrelationData _ => 0x09
  | SubscriptionIdentifier _ => 0x0B
  | SessionExpiryInterval _ => 0x11
  | AssignedClientIdentifier _ => 0x12
  | ServerKeepAlive _ => 0x13
  | AuthenticationMethod _ => 0x15
  | AuthenticationData _ => 0x16
  | RequestProblemInformation _ => 0x17
  | WillDelayInterval _ => 0x18
  | RequestResponseInformation _ => 0x19
  | ResponseInformation _ => 0x1A
  | ServerReference _ => 0x1C
  | ReasonString _ => 0x1F
  | ReceiveMaximum _ => 0x21
  | TopicAliasMaximum _ => 0x22
  | TopicAlias _ => 0x23
  | MaximumQoS _ => 0x24
  | RetainAvailable _ => 0x25
  | UserProperty _ _ => 0x26
  | MaximumPacketSize _ => 0x27
  | WildcardSubscriptionAvailable _ => 0x28
  | SubscriptionIdentifierAvailable _ => 0x29
  | SharedSubscriptionAvailable _ => 0x2A

def encode_value : Property → Result Bytes
  | PayloadFormatIndicator v | RequestProblemInformation v | RequestResponseInformation v
  | MaximumQoS v | RetainAvailable v | WildcardSubscriptionAvailable v
  | SubscriptionIdentifierAvailable v | SharedSubscriptionAvailable v => .ok (put_u8 v)
  | ServerKeepAlive v | ReceiveMaximum v | TopicAliasMaximum v | TopicAlias v =>
    .ok (put_u16 v)
  | MessageExpiryInterval v | SessionExpiryInterval v | WillDelayInterval v
  | MaximumPacketSize v => .ok (put_u32 v)
  | SubscriptionIdentifier v => varint.encode v.toNat
  | ContentType v | ResponseTopic v | AssignedClientIdentifier v | AuthenticationMethod v
  | ResponseInformation v | ServerReference v | ReasonString v => put_string v
  | CorrelationData v | AuthenticationData v => put_binary v
  | UserProperty key value => do
    let k ← put_string key
    let v ← put_string value
    return k ++ v

def encode (p : Property) : Result Bytes := do
  let value ← p.encode_value
  return put_u8 p.id ++ value

/-- The length of a blob with its prefix, under the check that encoding it makes. -/
def prefixed (data : Bytes) : Result Nat :=
  if MAX_U16 < data.length then .error (.ValueOutOfRange "binary data length")
  else .ok (2 + data.length)

/-- The length of the value of a property, under the checks that encoding it makes. -/
def value_len : Property → Result Nat
  | PayloadFormatIndicator _ | RequestProblemInformation _ | RequestResponseInformation _
  | MaximumQoS _ | RetainAvailable _ | WildcardSubscriptionAvailable _
  | SubscriptionIdentifierAvailable _ | SharedSubscriptionAvailable _ => .ok 1
  | ServerKeepAlive _ | ReceiveMaximum _ | TopicAliasMaximum _ | TopicAlias _ => .ok 2
  | MessageExpiryInterval _ | SessionExpiryInterval _ | WillDelayInterval _
  | MaximumPacketSize _ => .ok 4
  | SubscriptionIdentifier v =>
    if varint.MAX < v.toNat then .error (.ValueOutOfRange "variable byte integer")
    else .ok (varint.encoded_len v.toNat)
  | ContentType v | ResponseTopic v | AssignedClientIdentifier v | AuthenticationMethod v
  | ResponseInformation v | ServerReference v | ReasonString v => prefixed (as_bytes v)
  | CorrelationData v | AuthenticationData v => prefixed v
  | UserProperty key value => do
    let k ← prefixed (as_bytes key)
    let v ← prefixed (as_bytes value)
    return k + v

def encoded_len (p : Property) : Result Nat := do
  let n ← p.value_len
  return 1 + n

/-- A flag property carries only 0 or 1. -/
def bool_byte (v : UInt8) (what : String) : Reader UInt8 :=
  if v = 0 ∨ v = 1 then pure v else throw (.ProtocolViolation what)

def read_flag (what : String) : Reader UInt8 := do
  let v ← read_u8
  bool_byte v what

/-- The `u32` that a variable byte integer holds. -/
def read_varint_u32 : Reader UInt32 := do
  let v ← read_varint
  return UInt32.ofNat v

def read_string_pair : Reader (String × String) := do
  let key ← read_string
  let value ← read_string
  return (key, value)

def decode (id : UInt8) : Reader Property :=
  match id with
  | 0x01 => do return PayloadFormatIndicator (← read_flag "PayloadFormatIndicator")
  | 0x02 => do return MessageExpiryInterval (← read_u32)
  | 0x03 => do return ContentType (← read_string)
  | 0x08 => do return ResponseTopic (← read_string)
  | 0x09 => do return CorrelationData (← read_binary)
  | 0x0B => do return SubscriptionIdentifier (← read_varint_u32)
  | 0x11 => do return SessionExpiryInterval (← read_u32)
  | 0x12 => do return AssignedClientIdentifier (← read_string)
  | 0x13 => do return ServerKeepAlive (← read_u16)
  | 0x15 => do return AuthenticationMethod (← read_string)
  | 0x16 => do return AuthenticationData (← read_binary)
  | 0x17 => do return RequestProblemInformation (← read_flag "RequestProblemInformation")
  | 0x18 => do return WillDelayInterval (← read_u32)
  | 0x19 => do return RequestResponseInformation (← read_flag "RequestResponseInformation")
  | 0x1A => do return ResponseInformation (← read_string)
  | 0x1C => do return ServerReference (← read_string)
  | 0x1F => do return ReasonString (← read_string)
  | 0x21 => do return ReceiveMaximum (← read_u16)
  | 0x22 => do return TopicAliasMaximum (← read_u16)
  | 0x23 => do return TopicAlias (← read_u16)
  | 0x24 => do return MaximumQoS (← read_u8)
  | 0x25 => do return RetainAvailable (← read_u8)
  | 0x26 => do
    let pair ← read_string_pair
    return UserProperty pair.1 pair.2
  | 0x27 => do return MaximumPacketSize (← read_u32)
  | 0x28 => do return WildcardSubscriptionAvailable (← read_u8)
  | 0x29 => do return SubscriptionIdentifierAvailable (← read_u8)
  | 0x2A => do return SharedSubscriptionAvailable (← read_u8)
  | _ => throw (.MalformedPacket "unknown property identifier")

/-- One turn of the loop over a block: an identifier and its value. -/
def read_one : Reader Property := do
  let id ← read_u8
  decode id

end Property

/-! ## Which properties a packet carries -/

inductive PropContext
  | Connect | Will | ConnAck | Publish | PubAck | Subscribe | SubAck | Unsubscribe | UnsubAck
  | Disconnect | Auth
  deriving DecidableEq, Repr

namespace PropContext

def allows : PropContext → UInt8 → Bool
  | Connect, id => [0x11, 0x21, 0x27, 0x22, 0x19, 0x17, 0x26, 0x15, 0x16].contains id
  | Will, id => [0x18, 0x01, 0x02, 0x03, 0x08, 0x09, 0x26].contains id
  | ConnAck, id => [0x11, 0x21, 0x24, 0x25, 0x27, 0x12, 0x22, 0x1F, 0x26, 0x28, 0x29, 0x2A, 0x13,
      0x1A, 0x1C, 0x15, 0x16].contains id
  | Publish, id => [0x01, 0x02, 0x23, 0x08, 0x09, 0x26, 0x0B, 0x03].contains id
  | PubAck, id | SubAck, id | UnsubAck, id => [0x1F, 0x26].contains id
  | Subscribe, id => [0x0B, 0x26].contains id
  | Unsubscribe, id => id == 0x26
  | Disconnect, id => [0x11, 0x1F, 0x26, 0x1C].contains id
  | Auth, id => [0x15, 0x16, 0x1F, 0x26].contains id

def repeatable (ctx : PropContext) (id : UInt8) : Bool :=
  id == 0x26 || (id == 0x0B && ctx == Publish)

end PropContext

abbrev Properties := List Property

namespace Properties

/-- The loop of `validate_for`, with the identifiers seen so far as a bit set. -/
def validate_loop (ctx : PropContext) : Properties → UInt64 → Result Unit
  | [], _ => .ok ()
  | p :: rest, seen =>
    if p = .SubscriptionIdentifier 0 then
      .error (.ProtocolViolation "subscription identifier of 0")
    else if (match p with | .SubscriptionIdentifierAvailable v => decide (1 < v) | _ => false) then
      .error (.ProtocolViolation "subscription identifier available must be 0 or 1")
    else if !ctx.allows p.id then
      .error (.ProtocolViolation "property not allowed on this packet type")
    else if !ctx.repeatable p.id then
      let bit := (1 : UInt64) <<< p.id.toUInt64
      if seen &&& bit ≠ 0 then
        .error (.ProtocolViolation "duplicate of a non-repeatable property")
      else validate_loop ctx rest (seen ||| bit)
    else validate_loop ctx rest seen

def validate_for (ps : Properties) (ctx : PropContext) : Result Unit := validate_loop ctx ps 0

def encoded_body_len : Properties → Result Nat
  | [] => .ok 0
  | p :: rest => do
    let n ← p.encoded_len
    let m ← encoded_body_len rest
    return n + m

def encode (ps : Properties) : Result Bytes := do
  let len ← encoded_body_len ps
  if 2 ^ 32 ≤ len then .error (.ValueOutOfRange "properties length")
  else
    let head ← varint.encode len
    let body ← putMany Property.encode ps
    return head ++ body

def decode_block (block : Bytes) : Result Properties :=
  match (many Property.read_one).run block with
  | .ok (ps, _) => .ok ps
  | .error e => .error e

def decode : Reader Properties := do
  let len ← read_varint
  let block ← read_bytes len
  lift (decode_block block)

def decode_for (ctx : PropContext) : Reader Properties := do
  let ps ← decode
  lift (validate_for ps ctx)
  return ps

end Properties

/-! ## One property -/

namespace Property

/-- A value that fits its field. -/
def Ok : Property → Prop
  | PayloadFormatIndicator v | RequestProblemInformation v | RequestResponseInformation v =>
    v = 0 ∨ v = 1
  | SubscriptionIdentifier v => v.toNat ≤ varint.MAX
  | ContentType v | ResponseTopic v | AssignedClientIdentifier v | AuthenticationMethod v
  | ResponseInformation v | ServerReference v | ReasonString v => StringOk v
  | CorrelationData v | AuthenticationData v => BinaryOk v
  | UserProperty key value => StringOk key ∧ StringOk value
  | _ => True

def value_size : Property → Nat
  | PayloadFormatIndicator _ | RequestProblemInformation _ | RequestResponseInformation _
  | MaximumQoS _ | RetainAvailable _ | WildcardSubscriptionAvailable _
  | SubscriptionIdentifierAvailable _ | SharedSubscriptionAvailable _ => 1
  | ServerKeepAlive _ | ReceiveMaximum _ | TopicAliasMaximum _ | TopicAlias _ => 2
  | MessageExpiryInterval _ | SessionExpiryInterval _ | WillDelayInterval _
  | MaximumPacketSize _ => 4
  | SubscriptionIdentifier v => varint.encoded_len v.toNat
  | ContentType v | ResponseTopic v | AssignedClientIdentifier v | AuthenticationMethod v
  | ResponseInformation v | ServerReference v | ReasonString v => prefixed_len (as_bytes v)
  | CorrelationData v | AuthenticationData v => prefixed_len v
  | UserProperty key value => prefixed_len (as_bytes key) + prefixed_len (as_bytes value)

def size (p : Property) : Nat := 1 + p.value_size

theorem lawful_flag (what : String) :
    Lawful (read_flag what) (fun v => .ok (put_u8 v)) (fun _ => 1) (fun v => v = 0 ∨ v = 1) := by
  constructor
  · intro v hv
    obtain ⟨bytes, hput, hsize, hread⟩ := lawful_u8.back (a := v) trivial
    refine ⟨bytes, hput, hsize, fun rest => (hread rest).bind ?_⟩
    rw [bool_byte, if_pos hv]
    simp
  · intro bytes v rest hg
    obtain ⟨w, left, hw, hg⟩ := gives_bind.mp hg
    rcases gives_ite.mp hg with ⟨hv, hg⟩ | ⟨-, hg⟩
    · obtain ⟨rfl, rfl⟩ := gives_pure.mp hg
      exact ⟨hv, (lawful_u8.front hw).2⟩
    · exact absurd hg gives_throw

theorem lawful_varint_u32 :
    Lawful read_varint_u32 (fun v => varint.encode v.toNat)
      (fun v => varint.encoded_len v.toNat) (fun v => v.toNat ≤ varint.MAX) := by
  constructor
  · intro v hv
    obtain ⟨bytes, hput, hsize, hread⟩ := lawful_varint.back hv
    exact ⟨bytes, hput, hsize, fun rest => (hread rest).bind (by simp)⟩
  · intro bytes v rest hg
    obtain ⟨w, left, hw, hg⟩ := gives_bind.mp hg
    obtain ⟨rfl, rfl⟩ := gives_pure.mp hg
    obtain ⟨hmax, hsize⟩ := lawful_varint.front hw
    have hw : (UInt32.ofNat w).toNat = w := by
      rw [UInt32.toNat_ofNat']
      exact Nat.mod_eq_of_lt (by unfold varint.MAX at hmax; omega)
    rw [hw]
    exact ⟨hmax, hsize⟩

theorem lawful_string_pair :
    Lawful read_string_pair
      (fun p => do
        let k ← put_string p.1
        let v ← put_string p.2
        return k ++ v)
      (fun p => prefixed_len (as_bytes p.1) + prefixed_len (as_bytes p.2))
      (fun p => StringOk p.1 ∧ StringOk p.2) := by
  constructor
  · rintro ⟨key, value⟩ ⟨hkey, hvalue⟩
    obtain ⟨k, hk, hksize, hkread⟩ := lawful_string.back hkey
    obtain ⟨v, hv, hvsize, hvread⟩ := lawful_string.back hvalue
    refine ⟨k ++ v, ?_, ?_, fun rest => ?_⟩
    · simp only [hk, hv]
      rfl
    · rw [List.length_append, hksize, hvsize]
    · rw [List.append_assoc]
      exact (hkread _).bind ((hvread rest).bind (by simp))
  · intro bytes pair rest hg
    obtain ⟨key, left, hkey, hg⟩ := gives_bind.mp hg
    obtain ⟨value, left', hvalue, hg⟩ := gives_bind.mp hg
    obtain ⟨rfl, rfl⟩ := gives_pure.mp hg
    obtain ⟨hkok, hksize⟩ := lawful_string.front hkey
    obtain ⟨hvok, hvsize⟩ := lawful_string.front hvalue
    dsimp only at hksize hvsize ⊢
    exact ⟨⟨hkok, hvok⟩, by omega⟩

section value

variable {V : Type} {read : Reader V} {put : V → Result Bytes} {vsize : V → Nat}
  {Valid : V → Prop} {C : V → Property}

theorem back_of (h : Lawful read put vsize Valid) {v : V} (hv : Valid v)
    (hdec : decode (C v).id = do let v ← read; return C v)
    (hput : (C v).encode_value = put v) (hsize : (C v).value_size = vsize v) :
    ∃ bytes, (C v).encode = .ok bytes ∧ bytes.length = (C v).size ∧
      ∀ rest, Gives read_one (bytes ++ rest) (C v) rest := by
  obtain ⟨bytes, hbytes, hlen, hread⟩ := h.back hv
  refine ⟨put_u8 (C v).id ++ bytes, ?_, ?_, fun rest => ?_⟩
  · rw [encode, hput, hbytes]
    rfl
  · rw [size, hsize, List.length_append, hlen]
    rfl
  · obtain ⟨b, hb, -, hid⟩ := lawful_u8.back (a := (C v).id) trivial
    cases hb
    rw [List.append_assoc]
    refine (hid _).bind ?_
    rw [hdec]
    exact (hread rest).bind (by simp)

theorem front_of (h : Lawful read put vsize Valid) {bytes rest : Bytes} {p : Property}
    (hg : Gives (do let v ← read; return C v) bytes p rest)
    (hok : ∀ v, Valid v → (C v).Ok) (hsize : ∀ v, (C v).value_size = vsize v) :
    p.Ok ∧ p.value_size + rest.length ≤ bytes.length := by
  obtain ⟨v, left, hv, hg⟩ := gives_bind.mp hg
  obtain ⟨rfl, rfl⟩ := gives_pure.mp hg
  obtain ⟨hvalid, hle⟩ := h.front hv
  exact ⟨hok v hvalid, by rw [hsize]; exact hle⟩

end value

theorem read_one_back {p : Property} (h : p.Ok) :
    ∃ bytes, p.encode = .ok bytes ∧ bytes.length = p.size ∧
      ∀ rest, Gives read_one (bytes ++ rest) p rest := by
  cases p with
  | PayloadFormatIndicator v | RequestProblemInformation v | RequestResponseInformation v =>
    exact back_of (lawful_flag _) h rfl rfl rfl
  | MaximumQoS v | RetainAvailable v | WildcardSubscriptionAvailable v
  | SubscriptionIdentifierAvailable v | SharedSubscriptionAvailable v =>
    exact back_of lawful_u8 trivial rfl rfl rfl
  | ServerKeepAlive v | ReceiveMaximum v | TopicAliasMaximum v | TopicAlias v =>
    exact back_of lawful_u16 trivial rfl rfl rfl
  | MessageExpiryInterval v | SessionExpiryInterval v | WillDelayInterval v
  | MaximumPacketSize v => exact back_of lawful_u32 trivial rfl rfl rfl
  | SubscriptionIdentifier v => exact back_of lawful_varint_u32 h rfl rfl rfl
  | ContentType v | ResponseTopic v | AssignedClientIdentifier v | AuthenticationMethod v
  | ResponseInformation v | ServerReference v | ReasonString v =>
    exact back_of lawful_string h rfl rfl rfl
  | CorrelationData v | AuthenticationData v => exact back_of lawful_binary h rfl rfl rfl
  | UserProperty key value =>
    exact back_of (C := fun p => UserProperty p.1 p.2) lawful_string_pair (v := (key, value)) h
      rfl rfl rfl

theorem decode_front {id : UInt8} {bytes rest : Bytes} {p : Property}
    (hg : Gives (decode id) bytes p rest) :
    p.Ok ∧ p.value_size + rest.length ≤ bytes.length := by
  unfold decode at hg
  -- each identifier reads its value type: one of the lawful pairs fits
  split at hg
  all_goals first
    | exact front_of (lawful_flag _) hg (fun _ h => h) (fun _ => rfl)
    | exact front_of lawful_u8 hg (fun _ _ => trivial) (fun _ => rfl)
    | exact front_of lawful_u16 hg (fun _ _ => trivial) (fun _ => rfl)
    | exact front_of lawful_u32 hg (fun _ _ => trivial) (fun _ => rfl)
    | exact front_of lawful_varint_u32 hg (fun _ h => h) (fun _ => rfl)
    | exact front_of lawful_string hg (fun _ h => h) (fun _ => rfl)
    | exact front_of lawful_binary hg (fun _ h => h) (fun _ => rfl)
    | exact front_of (C := fun (p : String × String) => UserProperty p.1 p.2) lawful_string_pair hg
        (fun _ h => h) (fun _ => rfl)
    | exact absurd hg gives_throw

theorem lawful_one : Lawful read_one encode size Ok := by
  constructor
  · intro p hp
    exact read_one_back hp
  · intro bytes p rest hg
    obtain ⟨id, left, hid, hg⟩ := gives_bind.mp hg
    obtain ⟨hok, hsize⟩ := decode_front hg
    have hone := (lawful_u8.front hid).2
    exact ⟨hok, by unfold size; omega⟩

theorem size_pos (p : Property) : 0 < p.size := by
  unfold size
  omega

theorem prefixed_eq {data : Bytes} (h : BinaryOk data) :
    prefixed data = .ok (prefixed_len data) := by
  rw [prefixed, if_neg (Nat.not_lt.mpr h)]
  rfl

theorem encoded_len_eq {p : Property} (h : p.Ok) : p.encoded_len = .ok p.size := by
  have hvalue : p.value_len = .ok p.value_size := by
    cases p with
    | SubscriptionIdentifier v => exact if_neg (Nat.not_lt.mpr h)
    | ContentType v | ResponseTopic v | AssignedClientIdentifier v | AuthenticationMethod v
    | ResponseInformation v | ServerReference v | ReasonString v => exact prefixed_eq h.1
    | CorrelationData v | AuthenticationData v => exact prefixed_eq h
    | UserProperty key value =>
      simp only [value_len, prefixed_eq h.1.1, prefixed_eq h.2.1]
      rfl
    | _ => rfl
  rw [encoded_len, hvalue]
  rfl

end Property

/-! ## The block -/

namespace Properties

/-- The bytes of the properties without the length in front. -/
def body_size (ps : Properties) : Nat := (ps.map Property.size).sum

def block_size (ps : Properties) : Nat := varint.encoded_len ps.body_size + ps.body_size

/-- Every value fits its field, and the packet may carry the properties. -/
def ValidFor (ctx : PropContext) (ps : Properties) : Prop :=
  (∀ p ∈ ps, p.Ok) ∧ ps.validate_for ctx = .ok ()

theorem encoded_body_len_eq {ps : Properties} (h : ∀ p ∈ ps, p.Ok) :
    ps.encoded_body_len = .ok ps.body_size := by
  induction ps with
  | nil => rfl
  | cons p ps ih =>
    rw [encoded_body_len, Property.encoded_len_eq (h p (by simp)),
      ih (fun q hq => h q (List.mem_cons_of_mem _ hq))]
    rfl

theorem block_size_pos (ps : Properties) : 0 < ps.block_size := by
  have := varint.encoded_len_pos ps.body_size
  unfold block_size
  omega

/-- A block that its length field can hold, of properties that the packet may carry. -/
def BlockOk (ctx : PropContext) (ps : Properties) : Prop :=
  ps.ValidFor ctx ∧ ps.body_size ≤ varint.MAX

theorem lawful_block (ctx : PropContext) :
    Lawful (decode_for ctx) encode block_size (BlockOk ctx) := by
  constructor
  · rintro ps ⟨hvalid, hmax⟩
    obtain ⟨head, hhead, hheadlen, hreadhead⟩ := lawful_varint.back hmax
    obtain ⟨body, hbody, hbodylen, hreadbody⟩ :=
      Property.lawful_one.many_back Property.size_pos hvalid.1
    refine ⟨head ++ body, ?_, ?_, fun rest => ?_⟩
    · have hshort : ¬ 2 ^ 32 ≤ ps.body_size := by
        unfold varint.MAX at hmax
        omega
      simp only [encode, encoded_body_len_eq hvalid.1, bind, Except.bind, if_neg hshort, hhead,
        hbody]
      rfl
    · rw [List.length_append, hheadlen, hbodylen]
      rfl
    · have hblock : decode_block body = .ok ps := by
        unfold decode_block
        rw [hreadbody]
      refine gives_bind.mpr ⟨ps, rest, ?_, ?_⟩
      · rw [List.append_assoc]
        refine (hreadhead _).bind ?_
        refine Gives.bind (gives_read_bytes.mpr ⟨rfl, hbodylen⟩) ?_
        rw [hblock]
        simp
      · rw [hvalid.2]
        exact Gives.bind (gives_lift.mpr ⟨rfl, rfl⟩) (by simp)
  · intro bytes ps rest hg
    obtain ⟨ps', left, hdecode, hg⟩ := gives_bind.mp hg
    obtain ⟨u, left', hlift, hg⟩ := gives_bind.mp hg
    obtain ⟨rfl, rfl⟩ := gives_pure.mp hg
    obtain ⟨hvalid, rfl⟩ := gives_lift.mp hlift
    obtain ⟨len, left, hlen, hg⟩ := gives_bind.mp hdecode
    obtain ⟨block, left', hblock, hg⟩ := gives_bind.mp hg
    obtain ⟨hps, rfl⟩ := gives_lift.mp hg
    obtain ⟨rfl, rfl⟩ := gives_read_bytes.mp hblock
    obtain ⟨hmax, hsize⟩ := lawful_varint.front hlen
    unfold decode_block at hps
    split at hps
    · rename_i l r hmany
      cases hps
      obtain ⟨-, hok, hle⟩ := Property.lawful_one.many_front Property.size_pos hmany
      refine ⟨⟨⟨hok, hvalid⟩, hle.trans hmax⟩, ?_⟩
      have hlens : varint.encoded_len ps'.body_size ≤ varint.encoded_len block.length :=
        varint.encoded_len_mono hle
      simp only [block_size, body_size, List.length_append] at hsize hlens ⊢
      omega
    · cases hps

theorem blockOk_nil (ctx : PropContext) : BlockOk ctx [] :=
  ⟨⟨by simp, rfl⟩, Nat.zero_le _⟩

end Properties

end mqtt_codec
