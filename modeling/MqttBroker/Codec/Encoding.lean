-- The two ways in which `Packet::encode` writes a packet. Sizing a value and writing it succeed
-- under one condition, and the size is the number of bytes written; so the path that sizes the
-- body first writes what the path through a buffer would write.
import MqttBroker.Codec.RoundTrip
import MqttBroker.Lib.Writer

namespace mqtt_codec

open Wire mqtt_core

/-! ## Primitive values -/

theorem yields_varint (v : Nat) :
    Yields (varint.encode v) (v ≤ varint.MAX) (·.length = varint.encoded_len v) := by
  constructor
  · intro h
    exact ⟨_, if_neg (Nat.not_lt.mpr h), varint.length_encode_loop h⟩
  · intro h
    exact ⟨_, if_pos (Nat.not_le.mp h)⟩

theorem yields_binary (data : Bytes) :
    Yields (put_binary data) (BinaryOk data) (·.length = prefixed_len data) := by
  constructor
  · intro h
    exact ⟨_, if_neg (Nat.not_lt.mpr h), by simp [put_u16, prefixed_len]⟩
  · intro h
    exact ⟨_, if_pos (Nat.not_le.mp h)⟩

theorem yields_string (s : String) :
    Yields (put_string s) (BinaryOk (as_bytes s)) (·.length = prefixed_len (as_bytes s)) :=
  yields_binary (as_bytes s)

theorem yields_prefixed (data : Bytes) :
    Yields (Property.prefixed data) (BinaryOk data) (· = prefixed_len data) := by
  constructor
  · intro h
    exact ⟨_, if_neg (Nat.not_lt.mpr h), rfl⟩
  · intro h
    exact ⟨_, if_pos (Nat.not_le.mp h)⟩

/-! ## Properties -/

namespace Property

/-- The value of the property can be written. -/
def Writable : Property → Prop
  | SubscriptionIdentifier v => v.toNat ≤ varint.MAX
  | ContentType v | ResponseTopic v | AssignedClientIdentifier v | AuthenticationMethod v
  | ResponseInformation v | ServerReference v | ReasonString v => BinaryOk (as_bytes v)
  | CorrelationData v | AuthenticationData v => BinaryOk v
  | UserProperty key value => BinaryOk (as_bytes key) ∧ BinaryOk (as_bytes value)
  | _ => True

theorem yields_value (p : Property) :
    Yields p.encode_value p.Writable (·.length = p.value_size) := by
  cases p with
  | SubscriptionIdentifier v => exact yields_varint v.toNat
  | ContentType v | ResponseTopic v | AssignedClientIdentifier v | AuthenticationMethod v
  | ResponseInformation v | ServerReference v | ReasonString v => exact yields_string v
  | CorrelationData v | AuthenticationData v => exact yields_binary v
  | UserProperty key value =>
    refine (yields_string key).bind fun k hk => (yields_string value).map fun v hv => ?_
    simp [value_size, hk, hv]
  | _ => exact yields_ok (by simp [value_size, put_u8, put_u16, put_u32])

theorem yields_encode (p : Property) : Yields p.encode p.Writable (·.length = p.size) := by
  refine p.yields_value.map fun bytes hlen => ?_
  simp [size, put_u8, hlen, Nat.add_comm]

theorem yields_value_len (p : Property) : Yields p.value_len p.Writable (· = p.value_size) := by
  cases p with
  | SubscriptionIdentifier v =>
    constructor
    · intro h
      exact ⟨_, if_neg (Nat.not_lt.mpr h), rfl⟩
    · intro h
      exact ⟨_, if_pos (Nat.not_le.mp h)⟩
  | ContentType v | ResponseTopic v | AssignedClientIdentifier v | AuthenticationMethod v
  | ResponseInformation v | ServerReference v | ReasonString v =>
    exact yields_prefixed (as_bytes v)
  | CorrelationData v | AuthenticationData v => exact yields_prefixed v
  | UserProperty key value =>
    refine (yields_prefixed (as_bytes key)).bind fun k hk =>
      (yields_prefixed (as_bytes value)).map fun v hv => ?_
    rw [hk, hv]
    rfl
  | _ => exact yields_ok rfl

theorem yields_encoded_len (p : Property) : Yields p.encoded_len p.Writable (· = p.size) :=
  p.yields_value_len.map fun n hn => by rw [hn, size]

end Property

namespace Properties

/-- Every value can be written, and so can the length of them all. -/
def Writable (ps : Properties) : Prop :=
  (∀ p ∈ ps, p.Writable) ∧ ps.body_size ≤ varint.MAX

theorem yields_encoded_body_len (ps : Properties) :
    Yields ps.encoded_body_len (∀ p ∈ ps, p.Writable) (· = ps.body_size) := by
  induction ps with
  | nil =>
    have hnil : Yields (encoded_body_len []) True (· = body_size []) := yields_ok rfl
    exact hnil.iff (by simp)
  | cons p ps ih =>
    refine Yields.iff (p.yields_encoded_len.bind fun n hn => ih.map fun m hm => ?_)
      List.forall_mem_cons
    simp [body_size, hn, hm]

theorem yields_values (ps : Properties) :
    Yields (putMany Property.encode ps) (∀ p ∈ ps, p.Writable) (·.length = ps.body_size) :=
  yields_putMany Property.yields_encode ps

/-- The check of the block's width is implied by that of its length. -/
theorem short_iff (n : Nat) : ¬ 2 ^ 32 ≤ n ∧ n ≤ varint.MAX ↔ n ≤ varint.MAX := by
  unfold varint.MAX
  omega

theorem yields_encode (ps : Properties) :
    Yields ps.encode ps.Writable (·.length = ps.block_size) := by
  have h : Yields ps.encode ((∀ p ∈ ps, p.Writable) ∧ ¬ 2 ^ 32 ≤ ps.body_size ∧
      ps.body_size ≤ varint.MAX ∧ ∀ p ∈ ps, p.Writable) (·.length = ps.block_size) := by
    refine ps.yields_encoded_body_len.bind fun n hn => ?_
    subst hn
    refine yields_check ((yields_varint _).bind fun head hhead => ps.yields_values.map ?_)
    intro body hbody
    simp [block_size, hhead, hbody]
  apply h.iff
  have hshort := short_iff ps.body_size
  unfold Writable
  tauto

theorem yields_block_len (ps : Properties) :
    Yields (props_block_len ps) ps.Writable (· = ps.block_size) := by
  have h : Yields (props_block_len ps) ((∀ p ∈ ps, p.Writable) ∧ ¬ 2 ^ 32 ≤ ps.body_size ∧
      ¬ varint.MAX < ps.body_size ∧ True) (· = ps.block_size) := by
    refine ps.yields_encoded_body_len.bind fun n hn => ?_
    subst hn
    exact yields_check (yields_check (yields_ok rfl))
  apply h.iff
  have hshort := short_iff ps.body_size
  have hle : ¬ varint.MAX < ps.body_size ↔ ps.body_size ≤ varint.MAX := Nat.not_lt
  unfold Writable
  tauto

end Properties

variable (version : ProtocolVersion) (p : mqtt_codec.Publish)

theorem yields_properties (ps : Properties) :
    Yields (put_properties version ps) (version = .V5 → ps.Writable)
      (·.length = prop_size version ps) := by
  cases version with
  | V311 =>
    have h : Yields (put_properties .V311 ps) True (·.length = prop_size .V311 ps) := yields_ok rfl
    exact h.iff (by simp)
  | V5 => exact ps.yields_encode.iff (by simp)

/-! ## The packets of the delivery path -/

/-- A packet id stands on a PUBLISH above QoS 0, and on no other. -/
def Publish.IdFits (p : Publish) : Prop := p.pkid.isSome = true ↔ p.qos ≠ .AtMostOnce

def Publish.Writable (version : ProtocolVersion) (p : Publish) : Prop :=
  BinaryOk (as_bytes p.topic) ∧ p.IdFits ∧ (version = .V5 → p.properties.Writable)

def Ack.Writable (version : ProtocolVersion) (a : Ack) : Prop :=
  version = .V5 ∧ Long a.reason a.properties → a.properties.Writable

theorem yields_pkid : Yields (put_pkid p) p.IdFits (·.length = pkid_size p) := by
  obtain ⟨dup, qos, retain, topic, pkid, properties, payload⟩ := p
  unfold Publish.IdFits
  cases qos <;> cases pkid <;>
    exact ⟨by simp [put_pkid, pkid_size, option_size, put_u16], by simp [put_pkid]⟩

theorem yields_pkid_len : Yields (pkid_len p) p.IdFits (· = pkid_size p) := by
  obtain ⟨dup, qos, retain, topic, pkid, properties, payload⟩ := p
  unfold Publish.IdFits
  cases qos <;> cases pkid <;>
    exact ⟨by simp [pkid_len, pkid_size, option_size], by simp [pkid_len]⟩

theorem yields_publish :
    Yields (encode_publish p version) (p.Writable version) (·.length = publish_size version p) := by
  refine (yields_string p.topic).bind fun topic ht => (yields_pkid p).bind fun id hid =>
    (yields_properties version p.properties).map fun block hblock => ?_
  simp only [publish_size, List.length_append, ht, hid, hblock]

theorem yields_publish_len :
    Yields (publish_len p version) (p.Writable version) (· = publish_size version p) := by
  unfold publish_len
  cases version with
  | V311 =>
    refine Yields.iff (yields_check ((yields_pkid_len p).map fun id hid => ?_)) ?_
    · rw [hid]
      rfl
    · rw [Publish.Writable, Nat.not_lt]
      simp [BinaryOk]
  | V5 =>
    refine Yields.iff (yields_check ((yields_pkid_len p).bind fun id hid =>
      p.properties.yields_block_len.map fun n hn => ?_)) ?_
    · rw [hid, hn]
      rfl
    · rw [Publish.Writable, Nat.not_lt]
      simp [BinaryOk]

theorem yields_ack (a : Ack) :
    Yields (encode_ack a version) (a.Writable version) (·.length = ack_size version a) := by
  unfold encode_ack ack_size Ack.Writable Long
  by_cases hlong : version = .V5 ∧ (a.reason ≠ 0 ∨ a.properties ≠ [])
  · rw [if_pos hlong, if_pos hlong]
    refine (a.properties.yields_encode.map fun block hblock => ?_).iff (by simp [hlong])
    simp only [put_u16, put_u8, List.length_append, ByteCodec.length_toBe, List.length_singleton,
      hblock]
  · rw [if_neg hlong, if_neg hlong]
    have h : Yields (.ok (put_u16 a.pkid) : Result Bytes) True (·.length = 2) :=
      yields_ok (by simp [put_u16])
    exact h.iff (by simp [hlong])

theorem yields_ack_len (a : Ack) :
    Yields (ack_len a version) (a.Writable version) (· = ack_size version a) := by
  unfold ack_len ack_size Ack.Writable Long
  by_cases hlong : version = .V5 ∧ (a.reason ≠ 0 ∨ a.properties ≠ [])
  · rw [if_pos hlong, if_pos hlong]
    exact (a.properties.yields_block_len.map fun n hn => by rw [hn]).iff (by simp [hlong])
  · rw [if_neg hlong, if_neg hlong]
    have h : Yields (.ok 2 : Result Nat) True (· = 2) := yields_ok rfl
    exact h.iff (by simp [hlong])

/-! ## The packets of the buffered path -/

theorem yields_option {α : Type} {put : α → Result Bytes} {Fits : α → Prop} {size : α → Nat}
    (h : ∀ a, Yields (put a) (Fits a) (·.length = size a)) (o : Option α) :
    Yields (put_option put o) (∀ a ∈ o, Fits a) (·.length = option_size size o) := by
  cases o with
  | none =>
    have hnone : Yields (.ok [] : Result Bytes) True (·.length = 0) := yields_ok rfl
    exact hnone.iff (by simp)
  | some a => exact (h a).iff (by simp)

def LastWill.Writable (version : ProtocolVersion) (w : LastWill) : Prop :=
  (version = .V5 → w.properties.Writable) ∧ BinaryOk (as_bytes w.topic) ∧ BinaryOk w.payload

theorem yields_will (w : LastWill) :
    Yields (encode_will version w) (w.Writable version) (·.length = will_size version w) := by
  refine (yields_properties version w.properties).bind fun block hb =>
    (yields_string w.topic).bind fun topic ht => (yields_binary w.payload).map fun payload hp => ?_
  simp only [will_size, List.length_append, hb, ht, hp]

def Connect.Writable (c : Connect) : Prop :=
  (c.protocol = .V5 → c.properties.Writable) ∧ BinaryOk (as_bytes c.client_id) ∧
    (∀ w ∈ c.last_will, w.Writable c.protocol) ∧ (∀ s ∈ c.username, BinaryOk (as_bytes s)) ∧
    ∀ b ∈ c.password, BinaryOk b

theorem yields_connect (c : Connect) :
    Yields (encode_connect c) c.Writable (·.length = connect_size c) := by
  have hname : Yields (put_string "MQTT") True (·.length = 6) := by
    obtain ⟨bytes, hput, hlen, -⟩ := name_back
    rw [hput]
    exact yields_ok hlen
  refine Yields.iff (hname.bind fun name hn =>
    (yields_properties c.protocol c.properties).bind fun block hb =>
    (yields_string c.client_id).bind fun id hi =>
    (yields_option (yields_will c.protocol) c.last_will).bind fun will hw =>
    (yields_option yields_string c.username).bind fun user hu =>
    (yields_option yields_binary c.password).map fun pass hp => ?_)
    (by rw [true_and, Connect.Writable])
  simp only [connect_size, List.length_append, put_u8, put_u16, List.length_singleton,
    ByteCodec.length_toBe, hn, hb, hi, hw, hu, hp]

theorem yields_connack (a : ConnAck) :
    Yields (encode_connack a version) (version = .V5 → a.properties.Writable)
      (·.length = connack_size version a) := by
  refine (yields_properties version a.properties).map fun block hb => ?_
  simp only [connack_size, List.length_append, put_u8, List.length_singleton, hb]

theorem yields_filter (f : SubscribeFilter) :
    Yields (encode_filter version f) (BinaryOk (as_bytes f.path)) (·.length = filter_size f) := by
  refine (yields_string f.path).map fun path hp => ?_
  simp only [filter_size, List.length_append, put_u8, List.length_singleton, hp]

theorem yields_listed {α : Type} {put : α → Result Bytes} {Fits : α → Prop} {size : α → Nat}
    (h : ∀ a, Yields (put a) (Fits a) (·.length = size a)) (version : ProtocolVersion)
    (pkid : UInt16) (l : List α) (ps : Properties) (e : CodecError) [Decidable (l = [])] :
    Yields (if l = [] then .error e else do
        let block ← put_properties version ps
        let items ← putMany put l
        return put_u16 pkid ++ block ++ items)
      (l ≠ [] ∧ (version = .V5 → ps.Writable) ∧ ∀ a ∈ l, Fits a)
      (·.length = listed_size version size l ps) := by
  refine yields_check ((yields_properties version ps).bind fun block hb =>
    (yields_putMany h l).map fun items hi => ?_)
  simp only [listed_size, List.length_append, put_u16, ByteCodec.length_toBe, hb, hi]

theorem yields_codes (pkid : UInt16) (codes : Bytes) (ps : Properties) :
    Yields (do
        let block ← put_properties version ps
        return put_u16 pkid ++ block ++ codes)
      (version = .V5 → ps.Writable) (·.length = codes_size version codes ps) := by
  refine (yields_properties version ps).map fun block hb => ?_
  simp [codes_size, listed_size, put_u16, hb, Nat.add_assoc]

theorem yields_unsuback (a : UnsubAck) :
    Yields (encode_unsuback a version) (version = .V5 → a.properties.Writable)
      (·.length = unsuback_size version a) := by
  cases version with
  | V311 =>
    have h : Yields (.ok (put_u16 a.pkid) : Result Bytes) True (·.length = 2) :=
      yields_ok (by simp [put_u16])
    exact h.iff (by simp)
  | V5 => exact yields_codes .V5 a.pkid a.reason_codes a.properties

theorem yields_reason (reason : UInt8) (ps : Properties) :
    Yields (encode_reason_and_properties reason ps) (Long reason ps → ps.Writable)
      (·.length = reason_size (reason, ps)) := by
  by_cases hlong : Long reason ps
  · have hput : encode_reason_and_properties reason ps = (do
        let block ← ps.encode
        return put_u8 reason ++ block) := if_pos hlong
    rw [hput, reason_size, if_pos hlong]
    refine (ps.yields_encode.map fun block hb => ?_).iff (by simp [hlong])
    simp only [List.length_append, put_u8, List.length_singleton, hb]
  · have hput : encode_reason_and_properties reason ps = .ok [] := if_neg hlong
    rw [hput, reason_size, if_neg hlong]
    have h : Yields (.ok [] : Result Bytes) True (·.length = 0) := yields_ok rfl
    exact h.iff (by simp [hlong])

/-! ## A packet -/

namespace Packet

/-- The fields of the packet can be written. -/
def Writable (version : ProtocolVersion) : Packet → Prop
  | .Connect c => c.Writable
  | .ConnAck a => version = .V5 → a.properties.Writable
  | .Publish p => p.Writable version
  | .PubAck a | .PubRec a | .PubRel a | .PubComp a => a.Writable version
  | .Subscribe s => s.filters ≠ [] ∧ (version = .V5 → s.properties.Writable) ∧
      ∀ f ∈ s.filters, BinaryOk (as_bytes f.path)
  | .SubAck a => version = .V5 → a.properties.Writable
  | .Unsubscribe u => u.filters ≠ [] ∧ (version = .V5 → u.properties.Writable) ∧
      ∀ f ∈ u.filters, BinaryOk (as_bytes f)
  | .UnsubAck a => version = .V5 → a.properties.Writable
  | .PingReq | .PingResp => True
  | .Disconnect d => version = .V5 → Long d.reason d.properties → d.properties.Writable
  | .Auth a => Long a.reason a.properties → a.properties.Writable

/-- The packets that are sized before they are written. -/
def hot : Packet → Bool
  | .Publish _ | .PubAck _ | .PubRec _ | .PubRel _ | .PubComp _ | .PingReq | .PingResp => true
  | _ => false

variable (version : ProtocolVersion) (p : Packet)

theorem yields_body :
    Yields (p.encode_body version) (p.Writable version) (·.length = p.body_size version) := by
  cases p with
  | Connect c => exact yields_connect c
  | ConnAck a => exact yields_connack version a
  | Publish p => exact yields_publish version p
  | PubAck a | PubRec a | PubRel a | PubComp a => exact yields_ack version a
  | Subscribe s =>
    exact yields_listed (yields_filter version) version s.pkid s.filters s.properties _
  | SubAck a => exact yields_codes version a.pkid a.return_codes a.properties
  | Unsubscribe u => exact yields_listed yields_string version u.pkid u.filters u.properties _
  | UnsubAck a => exact yields_unsuback version a
  | PingReq | PingResp => exact yields_ok rfl
  | Disconnect d =>
    cases version with
    | V311 =>
      have h : Yields (.ok [] : Result Bytes) True (·.length = 0) := yields_ok rfl
      exact h.iff (by simp [Writable])
    | V5 => exact (yields_reason d.reason d.properties).iff (by simp [Writable])
  | Auth a => exact yields_reason a.reason a.properties

theorem hot_body_len_cold {p : Packet} (h : p.hot = false) : p.hot_body_len version = .ok none := by
  cases p <;> first | rfl | cases h

theorem yields_hot_body_len {p : Packet} (h : p.hot = true) :
    Yields (p.hot_body_len version)
      (p.Writable version ∧ p.body_size version ≤ varint.MAX)
      (· = some (p.body_size version)) := by
  have hsome {x : Result Nat} {P : Prop} {n : Nat} {f : Option Nat → Result (Option Nat)}
      (hx : Yields x P (· = n)) (hf : ∀ n, f (some n) =
        if varint.MAX < n then .error (.ValueOutOfRange "remaining length") else .ok (some n)) :
      Yields (some <$> x >>= f) (P ∧ n ≤ varint.MAX) (· = some n) := by
    constructor
    · rintro ⟨hp, hn⟩
      obtain ⟨_, rfl, rfl⟩ := hx.ok hp
      exact ⟨_, (hf _).trans (if_neg (Nat.not_lt.mpr hn)), rfl⟩
    · intro hnot
      by_cases hp : P
      · obtain ⟨_, rfl, rfl⟩ := hx.ok hp
        exact ⟨_, (hf _).trans (if_pos (Nat.not_le.mp fun hn => hnot ⟨hp, hn⟩))⟩
      · obtain ⟨e, rfl⟩ := hx.error hp
        exact ⟨e, rfl⟩
  cases p with
  | Publish p => exact hsome (yields_publish_len version p) (fun _ => rfl)
  | PubAck a | PubRec a | PubRel a | PubComp a =>
    exact hsome (yields_ack_len version a) (fun _ => rfl)
  | PingReq | PingResp =>
    exact ⟨fun _ => ⟨_, rfl, rfl⟩, fun hnot => absurd ⟨trivial, Nat.zero_le _⟩ hnot⟩
  | _ => cases h

/-- The encoder without the path that sizes the body first. -/
def encode_buffered (packet : Packet) (version : ProtocolVersion) : Result Bytes :=
  if version ≠ .V5 ∧ packet.packet_type = .Auth then
    .error (.ProtocolViolation "AUTH is MQTT 5.0 only")
  else do
    let body ← packet.encode_body version
    if 2 ^ 32 ≤ body.length then .error (.ValueOutOfRange "remaining length")
    else
      let head ← varint.encode body.length
      return put_u8 packet.first_byte ++ head ++ body

def Known (version : ProtocolVersion) (p : Packet) : Prop :=
  ¬ (version ≠ .V5 ∧ p.packet_type = .Auth)

def Encodable (version : ProtocolVersion) (p : Packet) : Prop :=
  p.Known version ∧ p.Writable version ∧ p.body_size version ≤ varint.MAX

/-- The bytes are the body that the writers write, with its header in front. -/
def Framed (version : ProtocolVersion) (p : Packet) (bytes : Bytes) : Prop :=
  ∃ body, p.encode_body version = .ok body ∧ bytes = p.framed body

theorem varint_eq {n : Nat} (h : n ≤ varint.MAX) :
    varint.encode n = .ok (varint.encode_loop 4 n) := if_neg (Nat.not_lt.mpr h)

theorem yields_buffered :
    Yields (p.encode_buffered version) (p.Encodable version) (p.Framed version) := by
  constructor
  · rintro ⟨hknown, hw, hmax⟩
    obtain ⟨body, hbody, hlen⟩ := (p.yields_body version).ok hw
    rw [← hlen] at hmax
    refine ⟨p.framed body, ?_, body, hbody, rfl⟩
    have hshort := ((Properties.short_iff body.length).mpr hmax).1
    rw [encode_buffered, if_neg hknown, hbody]
    simp only [bind, Except.bind, if_neg hshort, varint_eq hmax]
    rfl
  · intro hnot
    unfold encode_buffered
    by_cases hknown : p.Known version
    · rw [if_neg hknown]
      by_cases hw : p.Writable version
      · obtain ⟨body, hbody, hlen⟩ := (p.yields_body version).ok hw
        have hlong : ¬ body.length ≤ varint.MAX := fun h => hnot ⟨hknown, hw, hlen ▸ h⟩
        obtain ⟨e, he⟩ := (yields_varint body.length).error hlong
        rw [hbody]
        simp only [bind, Except.bind, he]
        split <;> exact ⟨_, rfl⟩
      · obtain ⟨e, he⟩ := (p.yields_body version).error hw
        exact ⟨e, by rw [he]; rfl⟩
    · rw [if_pos (not_not.mp hknown)]
      exact ⟨_, rfl⟩

/-- Off the delivery path there is one path only. -/
theorem encode_cold {p : Packet} (h : p.hot = false) :
    p.encode version = p.encode_buffered version := by
  rw [encode, hot_body_len_cold version h]
  rfl

theorem yields_sized {p : Packet} (h : p.hot = true) :
    Yields (p.encode version) (p.Encodable version) (p.Framed version) := by
  have hknown : p.Known version := by
    rintro ⟨-, htype⟩
    cases p with
    | Auth a => cases h
    | _ => cases htype
  have hsize := yields_hot_body_len version h
  unfold encode
  rw [if_neg hknown]
  constructor
  · rintro ⟨-, hw, hmax⟩
    obtain ⟨body, hbody, hlen⟩ := (p.yields_body version).ok hw
    obtain ⟨_, hhot, rfl⟩ := hsize.ok ⟨hw, hmax⟩
    refine ⟨p.framed body, ?_, body, hbody, rfl⟩
    rw [← hlen] at hmax hhot
    rw [hhot]
    simp only [bind, Except.bind, varint_eq hmax, hbody]
    rfl
  · intro hnot
    obtain ⟨e, he⟩ := hsize.error fun hw => hnot ⟨hknown, hw⟩
    exact ⟨e, by rw [he]; rfl⟩

theorem yields_encode : Yields (p.encode version) (p.Encodable version) (p.Framed version) := by
  cases h : p.hot with
  | true => exact yields_sized version h
  | false =>
    rw [encode_cold version h]
    exact p.yields_buffered version

/-- What is written is decided by the body alone. -/
theorem Framed.unique {version : ProtocolVersion} {p : Packet} {a b : Bytes}
    (ha : p.Framed version a) (hb : p.Framed version b) : a = b := by
  obtain ⟨body, hbody, rfl⟩ := ha
  obtain ⟨body', hbody', rfl⟩ := hb
  rw [hbody] at hbody'
  cases hbody'
  rfl

theorem encode_ok_iff (bytes : Bytes) :
    p.encode version = .ok bytes ↔ p.encode_buffered version = .ok bytes := by
  constructor
  · intro h
    obtain ⟨henc, hframed⟩ := (p.yields_encode version).of_eq h
    obtain ⟨b, hb, hbframed⟩ := (p.yields_buffered version).ok henc
    rw [hb, hframed.unique hbframed]
  · intro h
    obtain ⟨henc, hframed⟩ := (p.yields_buffered version).of_eq h
    obtain ⟨b, hb, hbframed⟩ := (p.yields_encode version).ok henc
    rw [hb, hframed.unique hbframed]

theorem hot_body_len_iff (n : Nat) :
    p.hot_body_len version = .ok (some n) ↔ p.hot = true ∧ n ≤ varint.MAX ∧
      ∃ body, p.encode_body version = .ok body ∧ body.length = n := by
  cases h : p.hot with
  | false =>
    rw [hot_body_len_cold version h]
    simp
  | true =>
    have hsize := yields_hot_body_len version h
    constructor
    · intro hn
      obtain ⟨⟨hw, hmax⟩, heq⟩ := hsize.of_eq hn
      obtain rfl := Option.some_inj.mp heq
      exact ⟨rfl, hmax, (p.yields_body version).ok hw⟩
    · rintro ⟨-, hmax, body, hbody, rfl⟩
      obtain ⟨hw, hlen⟩ := (p.yields_body version).of_eq hbody
      rw [hlen] at hmax ⊢
      obtain ⟨_, hok, rfl⟩ := hsize.ok ⟨hw, hmax⟩
      exact hok

end Packet

/-- The path that sizes a packet first writes, to the byte, what the path through a buffer
writes, and fails where that fails; and what is computed as a length is the number of bytes
that the writer appends. -/
theorem the_sized_encoder_is_the_buffered_one :
    (∀ (p : Packet) version,
      (∀ bytes, p.encode version = .ok bytes ↔ p.encode_buffered version = .ok bytes) ∧
      ((∃ e, p.encode version = .error e) ↔ ∃ e, p.encode_buffered version = .error e) ∧
      ∀ n, p.hot_body_len version = .ok (some n) ↔ p.hot = true ∧ n ≤ varint.MAX ∧
        ∃ body, p.encode_body version = .ok body ∧ body.length = n) ∧
    (∀ (p : Property) n, p.encoded_len = .ok n ↔ ∃ bytes, p.encode = .ok bytes ∧ bytes.length = n) ∧
    (∀ (ps : Properties) n, ps.encoded_body_len = .ok n ↔
      ∃ bytes, putMany Property.encode ps = .ok bytes ∧ bytes.length = n) ∧
    (∀ (ps : Properties) n, props_block_len ps = .ok n ↔
      ∃ bytes, ps.encode = .ok bytes ∧ bytes.length = n) ∧
    ∀ v bytes, varint.encode v = .ok bytes → bytes.length = varint.encoded_len v := by
  refine ⟨fun p version => ⟨p.encode_ok_iff version, ?_, p.hot_body_len_iff version⟩,
    ?_, ?_, ?_, ?_⟩
  · exact (p.yields_encode version).error_iff (p.yields_buffered version)
  · intro p n
    exact p.yields_encoded_len.length_iff p.yields_encode n
  · intro ps n
    exact ps.yields_encoded_body_len.length_iff ps.yields_values n
  · intro ps n
    exact ps.yields_block_len.length_iff ps.yields_encode n
  · intro v bytes h
    exact ((yields_varint v).of_eq h).2

end mqtt_codec
