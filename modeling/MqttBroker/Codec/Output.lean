-- What `Packet::encode` leaves in the buffer of its caller. The writers are those of the source,
-- appending to `out` step by step, so that one that fails leaves what it wrote before.
import MqttBroker.Codec.Encoding

namespace mqtt_codec.out

open Wire mqtt_core

/-! ## The writers -/

abbrev Out := Sink CodecError Unit

def put_u8 (v : UInt8) : Out := append (mqtt_codec.put_u8 v)
def put_u16 (v : UInt16) : Out := append (mqtt_codec.put_u16 v)
def put_u32 (v : UInt32) : Out := append (mqtt_codec.put_u32 v)

def put_binary (data : Bytes) : Out :=
  if MAX_U16 < data.length then throw (.ValueOutOfRange "binary data length")
  else do
    put_u16 (UInt16.ofNat data.length)
    append data

def put_string (s : String) : Out := put_binary (as_bytes s)

def varint_encode (value : Nat) : Out :=
  if varint.MAX < value then throw (.ValueOutOfRange "variable byte integer")
  else append (varint.encode_loop 4 value)

def property_value : Property → Out
  | .PayloadFormatIndicator v | .RequestProblemInformation v | .RequestResponseInformation v
  | .MaximumQoS v | .RetainAvailable v | .WildcardSubscriptionAvailable v
  | .SubscriptionIdentifierAvailable v | .SharedSubscriptionAvailable v => put_u8 v
  | .ServerKeepAlive v | .ReceiveMaximum v | .TopicAliasMaximum v | .TopicAlias v => put_u16 v
  | .MessageExpiryInterval v | .SessionExpiryInterval v | .WillDelayInterval v
  | .MaximumPacketSize v => put_u32 v
  | .SubscriptionIdentifier v => varint_encode v.toNat
  | .ContentType v | .ResponseTopic v | .AssignedClientIdentifier v | .AuthenticationMethod v
  | .ResponseInformation v | .ServerReference v | .ReasonString v => put_string v
  | .CorrelationData v | .AuthenticationData v => put_binary v
  | .UserProperty key value => do
    put_string key
    put_string value

/-- `Property::encode`. -/
def property_encode (p : Property) : Out := do
  put_u8 p.id
  property_value p

/-- `Properties::encode`. -/
def properties_encode (ps : Properties) : Out :=
  match ps.encoded_body_len with
  | .error e => throw e
  | .ok len =>
    if 2 ^ 32 ≤ len then throw (.ValueOutOfRange "properties length")
    else do
      varint_encode len
      ps.forM property_encode

def put_properties (version : ProtocolVersion) (ps : Properties) : Out :=
  if version = .V5 then properties_encode ps else pure ()

def encode_pkid (p : Publish) : Out :=
  match p.qos, p.pkid with
  | .AtMostOnce, none => pure ()
  | .AtMostOnce, some _ => throw (.ProtocolViolation "packet id present on QoS 0 PUBLISH")
  | _, some id => put_u16 id
  | _, none => throw (.ProtocolViolation "missing packet id on QoS>0 PUBLISH")

def encode_publish (p : Publish) (version : ProtocolVersion) : Out := do
  put_string p.topic
  encode_pkid p
  put_properties version p.properties
  append p.payload

def encode_ack (a : Ack) (version : ProtocolVersion) : Out := do
  put_u16 a.pkid
  if version = .V5 ∧ (a.reason ≠ 0 ∨ a.properties ≠ []) then do
    put_u8 a.reason
    properties_encode a.properties
  else pure ()

def hot_body (packet : Packet) (version : ProtocolVersion) : Out :=
  match packet with
  | .Publish p => encode_publish p version
  | .PubAck a | .PubRec a | .PubComp a | .PubRel a => encode_ack a version
  | _ => pure ()

/-- `Packet::encode`. The body of the buffered path is written to a vector of its own, which a
failure drops. -/
def encode (packet : Packet) (version : ProtocolVersion) : Out :=
  if version ≠ .V5 ∧ packet.packet_type = .Auth then
    throw (.ProtocolViolation "AUTH is MQTT 5.0 only")
  else
    match packet.hot_body_len version with
    | .error e => throw e
    | .ok (some body_len) =>
      if 2 ^ 32 ≤ body_len then throw (.ValueOutOfRange "remaining length")
      else do
        put_u8 packet.first_byte
        varint_encode body_len
        hot_body packet version
    | .ok none =>
      match packet.encode_body version with
      | .error e => throw e
      | .ok body =>
        if 2 ^ 32 ≤ body.length then throw (.ValueOutOfRange "remaining length")
        else do
          put_u8 packet.first_byte
          varint_encode body.length
          append body

/-! ## What they append -/

theorem appends_varint (v : Nat) : Appends (varint_encode v) (varint.encode v) := by
  unfold varint_encode varint.encode
  split
  · exact appends_throw _
  · exact appends_append _

theorem appends_binary (data : Bytes) : Appends (put_binary data) (mqtt_codec.put_binary data) := by
  unfold put_binary mqtt_codec.put_binary
  split
  · exact appends_throw _
  · exact (appends_append _).seq (appends_append data)

theorem appends_value (p : Property) : Appends (property_value p) p.encode_value := by
  cases p with
  | SubscriptionIdentifier v => exact appends_varint _
  | ContentType v | ResponseTopic v | AssignedClientIdentifier v | AuthenticationMethod v
  | ResponseInformation v | ServerReference v | ReasonString v => exact appends_binary _
  | CorrelationData v | AuthenticationData v => exact appends_binary _
  | UserProperty key value => exact (appends_binary _).seq (appends_binary _)
  | _ => exact appends_append _

theorem appends_property (p : Property) : Appends (property_encode p) p.encode :=
  (appends_append _).seq (appends_value p)

theorem appends_properties (ps : Properties) : Appends (properties_encode ps) ps.encode := by
  unfold properties_encode Properties.encode
  cases ps.encoded_body_len with
  | error e => exact appends_throw e
  | ok len =>
    simp only [bind, Except.bind]
    split
    · exact appends_throw _
    · exact (appends_varint len).seq (appends_forM appends_property ps)

theorem appends_pkid (p : Publish) : Appends (encode_pkid p) (put_pkid p) := by
  obtain ⟨dup, qos, retain, topic, pkid, properties, payload⟩ := p
  cases qos <;> cases pkid <;>
    first | exact appends_pure | exact appends_throw _ | exact appends_append _

theorem appends_put_properties (version : ProtocolVersion) (ps : Properties) :
    Appends (put_properties version ps) (mqtt_codec.put_properties version ps) := by
  unfold put_properties mqtt_codec.put_properties
  split
  · exact appends_properties ps
  · exact appends_pure

theorem appends_publish (p : Publish) (version : ProtocolVersion) :
    Appends (encode_publish p version) (mqtt_codec.encode_publish p version) := by
  have h := (appends_binary (as_bytes p.topic)).seq ((appends_pkid p).seq
    ((appends_put_properties version p.properties).seq (appends_append p.payload)))
  have heq : mqtt_codec.encode_publish p version =
      both (mqtt_codec.put_binary (as_bytes p.topic)) (both (put_pkid p)
        (both (mqtt_codec.put_properties version p.properties) (.ok p.payload))) := by
    unfold mqtt_codec.encode_publish mqtt_codec.put_string
    cases mqtt_codec.put_binary (as_bytes p.topic) <;> cases put_pkid p <;>
      cases mqtt_codec.put_properties version p.properties <;>
      simp [both, bind, Except.bind, pure, Except.pure]
  rw [heq]
  exact h

theorem appends_ack (a : Ack) (version : ProtocolVersion) :
    Appends (encode_ack a version) (mqtt_codec.encode_ack a version) := by
  unfold encode_ack mqtt_codec.encode_ack
  split
  · have h := (appends_append (mqtt_codec.put_u16 a.pkid)).seq
      ((appends_append (mqtt_codec.put_u8 a.reason)).seq (appends_properties a.properties))
    have heq : (do
        let properties ← a.properties.encode
        return mqtt_codec.put_u16 a.pkid ++ mqtt_codec.put_u8 a.reason ++ properties) =
        both (.ok (mqtt_codec.put_u16 a.pkid))
          (both (.ok (mqtt_codec.put_u8 a.reason)) a.properties.encode) := by
      cases a.properties.encode <;> simp [both, bind, Except.bind, pure, Except.pure]
    rw [heq]
    exact h
  · have h : Appends (do put_u16 a.pkid; pure ())
        (both (.ok (mqtt_codec.put_u16 a.pkid)) (.ok [])) := (appends_append _).seq appends_pure
    rw [both_ok, List.append_nil] at h
    exact h

theorem appends_hot_body (p : Packet) (version : ProtocolVersion) (h : p.hot = true) :
    Appends (hot_body p version) (p.encode_body version) := by
  cases p with
  | Publish p => exact appends_publish p version
  | PubAck a | PubRec a | PubRel a | PubComp a => exact appends_ack a version
  | PingReq | PingResp => exact appends_pure
  | _ => cases h

/-! ## What is left behind -/

/-- The packet is written up to the length of its body, and no further. -/
def Torn (version : ProtocolVersion) (p : Packet) : Prop :=
  p.hot = false ∧ p.Known version ∧ p.Writable version ∧
    varint.MAX < p.body_size version ∧ p.body_size version < 2 ^ 32

variable {version : ProtocolVersion} {p : Packet}

theorem appends_framed {body : Bytes} {w : Out} (hw : Appends w (.ok body))
    (hmax : body.length ≤ varint.MAX) :
    Appends (do put_u8 p.first_byte; varint_encode body.length; w) (.ok (p.framed body)) := by
  have h := (appends_append (mqtt_codec.put_u8 p.first_byte)).seq
    ((appends_varint body.length).seq hw)
  rw [Packet.varint_eq hmax] at h
  rw [both_ok, both_ok, ← List.append_assoc] at h
  exact h

theorem appends_encodable (h : p.Encodable version) :
    ∃ bytes, p.encode version = .ok bytes ∧ Appends (encode p version) (.ok bytes) := by
  obtain ⟨hknown, hw, hmax⟩ := h
  obtain ⟨bytes, hbytes, body, hbody, rfl⟩ := (p.yields_encode version).ok ⟨hknown, hw, hmax⟩
  have hlen := ((p.yields_body version).of_eq hbody).2
  rw [← hlen] at hmax
  have hshort := ((Properties.short_iff body.length).mpr hmax).1
  refine ⟨_, hbytes, ?_⟩
  unfold encode
  rw [if_neg hknown]
  cases hhot : p.hot with
  | true =>
    have hsize := (p.hot_body_len_iff version body.length).mpr ⟨hhot, hmax, body, hbody, rfl⟩
    simp only [hsize, if_neg hshort]
    exact appends_framed (hbody ▸ appends_hot_body p version hhot) hmax
  | false =>
    simp only [Packet.hot_body_len_cold version hhot, hbody, if_neg hshort]
    exact appends_framed (appends_append body) hmax

theorem encode_hot (hhot : p.hot = true) (h : ¬ p.Encodable version) :
    ∃ e, encode p version = throw e := by
  unfold encode
  by_cases hknown : p.Known version
  · rw [if_neg hknown]
    obtain ⟨e, he⟩ := (Packet.yields_hot_body_len version hhot).error fun hw => h ⟨hknown, hw⟩
    exact ⟨e, by rw [he]⟩
  · rw [if_pos (not_not.mp hknown)]
    exact ⟨_, rfl⟩

/-- Nor is another packet, unless its header is torn. -/
theorem encode_not_torn (hhot : p.hot = false) (h : ¬ p.Encodable version)
    (htorn : ¬ Torn version p) : ∃ e, encode p version = throw e := by
  unfold encode
  by_cases hknown : p.Known version
  · rw [if_neg hknown]
    simp only [Packet.hot_body_len_cold version hhot]
    by_cases hw : p.Writable version
    · obtain ⟨body, hbody, hlen⟩ := (p.yields_body version).ok hw
      have hlong : 2 ^ 32 ≤ body.length := by
        rw [hlen]
        by_contra hlt
        exact htorn ⟨hhot, hknown, hw, Nat.not_le.mp fun hle => h ⟨hknown, hw, hle⟩, by omega⟩
      simp only [hbody, if_pos hlong]
      exact ⟨_, rfl⟩
    · obtain ⟨e, he⟩ := (p.yields_body version).error hw
      exact ⟨e, by rw [he]⟩
  · rw [if_pos (not_not.mp hknown)]
    exact ⟨_, rfl⟩

theorem encode_torn (h : Torn version p) (out : Bytes) :
    (encode p version).into out =
      (.error (.ValueOutOfRange "variable byte integer"), out ++ [p.first_byte]) := by
  obtain ⟨hhot, hknown, hw, hlong, hshort⟩ := h
  obtain ⟨body, hbody, hlen⟩ := (p.yields_body version).ok hw
  rw [← hlen] at hlong hshort
  unfold encode
  rw [if_neg hknown]
  simp only [Packet.hot_body_len_cold version hhot, hbody, if_neg (Nat.not_le.mpr hshort),
    varint_encode, if_pos hlong]
  rfl

theorem untouched_iff (p : Packet) (version : ProtocolVersion) (out : Bytes) :
    ((∃ e, ((encode p version).into out).1 = .error e) → ((encode p version).into out).2 = out) ↔
      ¬ Torn version p := by
  by_cases henc : p.Encodable version
  · obtain ⟨bytes, -, h⟩ := appends_encodable henc
    have hinto : (encode p version).into out = (.ok (), out ++ bytes) := h out
    rw [hinto]
    have hfits : ¬ Torn version p := fun htorn => absurd henc.2.2 (Nat.not_le.mpr htorn.2.2.2.1)
    simp [hfits]
  · by_cases htorn : Torn version p
    · rw [encode_torn htorn out]
      simp [htorn]
    · have hthrow : ∃ e, encode p version = throw e := by
        cases hhot : p.hot with
        | true => exact encode_hot hhot henc
        | false => exact encode_not_torn hhot henc htorn
      obtain ⟨e, he⟩ := hthrow
      rw [he]
      have hinto : Sink.into (throw e : Out) out = (.error e, out) := rfl
      simp [hinto, htorn]

/-- A failed encoding leaves the buffer as it was, unless the packet is one that is written
through a buffer, its fields are fine, and its body is longer than a header can say but shorter
than 2^32 bytes. -/
theorem a_failed_encoding_leaves_the_buffer (p : Packet) (version : ProtocolVersion)
    (out : Bytes) :
    ((∃ e, ((encode p version).into out).1 = .error e) → ((encode p version).into out).2 = out) ↔
      ¬ (p.hot = false ∧ p.Known version ∧ p.Writable version ∧
        varint.MAX < p.body_size version ∧ p.body_size version < 2 ^ 32) :=
  untouched_iff p version out

def subAck (codes : Nat) : Packet := .SubAck ⟨1, List.replicate codes 0, []⟩

theorem torn_subAck {codes : Nat} (hlong : varint.MAX < 2 + codes) (hshort : 2 + codes < 2 ^ 32) :
    Torn .V311 (subAck codes) := by
  have hsize : (subAck codes).body_size .V311 = 2 + codes := by
    simp [subAck, Packet.body_size, codes_size, listed_size, prop_size]
  refine ⟨rfl, ?_, ?_, hsize ▸ hlong, hsize ▸ hshort⟩
  · simp [Packet.Known, subAck, Packet.packet_type]
  · simp [subAck, Packet.Writable]

/-- With one code more than a header can announce, it fails and leaves its first byte. -/
theorem a_long_suback_tears_the_buffer :
    ¬ ∀ (p : Packet) version (out : Bytes), (∃ e, ((encode p version).into out).1 = .error e) →
      ((encode p version).into out).2 = out := by
  intro h
  have htorn : Torn .V311 (subAck 268435454) := torn_subAck (by decide) (by decide)
  have hinto := encode_torn htorn []
  have hleft := h (subAck 268435454) .V311 [] (by rw [hinto]; exact ⟨_, rfl⟩)
  rw [hinto] at hleft
  exact absurd hleft (List.cons_ne_nil _ _)

end mqtt_codec.out
