-- The round trip of the packets (`Packet::encode`, `Packet::decode`): what was
-- decoded encodes again, and a well-formed packet comes back as it was written.
import MqttBroker.Codec.Bodies
import MqttBroker.Codec.Stream

namespace mqtt_codec

open Wire mqtt_core

/-! ## The lengths of the delivery path -/

variable {ctx : PropContext} {ps : Properties}

theorem props_block_len_eq (h : ps.BlockOk ctx) : props_block_len ps = .ok ps.block_size := by
  obtain ⟨⟨hok, -⟩, hmax⟩ := h
  have hshort : ¬ 2 ^ 32 ≤ ps.body_size := by
    unfold varint.MAX at hmax
    omega
  simp only [props_block_len, Properties.encoded_body_len_eq hok, bind, Except.bind,
    if_neg hshort, if_neg (Nat.not_lt.mpr hmax)]
  rfl

variable {version : ProtocolVersion}

theorem ack_len_eq {a : Ack} (h : AckOk version a) :
    ack_len a version = .ok (ack_size version a) := by
  unfold ack_len ack_size Long
  by_cases hlong : version = .V5 ∧ (a.reason ≠ 0 ∨ a.properties ≠ [])
  · have hblock : a.properties.BlockOk .PubAck := by
      rw [AckOk, if_pos hlong.1] at h
      exact h
    rw [if_pos hlong, if_pos hlong, props_block_len_eq hblock]
    rfl
  · rw [if_neg hlong, if_neg hlong]

theorem pkid_len_eq {p : Publish} (h : p.pkid.isSome = decide (p.qos ≠ .AtMostOnce)) :
    pkid_len p = .ok (pkid_size p) := by
  obtain ⟨dup, qos, retain, topic, pkid, properties, payload⟩ := p
  cases qos <;> cases pkid <;> first | rfl | cases h

theorem publish_len_eq {version : ProtocolVersion} {p : Publish} (h : PublishOk version p) :
    publish_len p version = .ok (publish_size version p) := by
  obtain ⟨-, hpresent, -, htopic, hprops⟩ := h
  rw [publish_len, if_neg (Nat.not_lt.mpr htopic.1), pkid_len_eq hpresent]
  cases version with
  | V311 => rfl
  | V5 =>
    have hlen := props_block_len_eq hprops
    simp only [bind, Except.bind, if_true, hlen]
    rfl

namespace Packet

/-! ## The body of a packet -/

/-- The bytes of the body that `encode` writes. -/
def body_size (version : ProtocolVersion) : Packet → Nat
  | .Connect c => connect_size c
  | .ConnAck a => connack_size version a
  | .Publish p => publish_size version p
  | .PubAck a | .PubRec a | .PubRel a | .PubComp a => ack_size version a
  | .Subscribe s => listed_size version filter_size s.filters s.properties
  | .SubAck a => codes_size version a.return_codes a.properties
  | .Unsubscribe u =>
    listed_size version (fun s => prefixed_len (as_bytes s)) u.filters u.properties
  | .UnsubAck a => unsuback_size version a
  | .PingReq | .PingResp => 0
  | .Disconnect d => disconnect_size version d
  | .Auth a => reason_size (a.reason, a.properties)

/-- The fields of a packet are such as encoding writes and decoding accepts. -/
def Ok (version : ProtocolVersion) : Packet → Prop
  | .Connect c => ConnectOk c
  | .ConnAck a => PropsOk version .ConnAck a.properties
  | .Publish p => PublishOk version p
  | .PubAck a | .PubRec a | .PubRel a | .PubComp a => AckOk version a
  | .Subscribe s => ListedOk version .Subscribe (FilterOk version) s.filters s.properties
  | .SubAck a => CodesOk version .SubAck a.return_codes a.properties
  | .Unsubscribe u => ListedOk version .Unsubscribe StringOk u.filters u.properties
  | .UnsubAck a => UnsubAckOk version a
  | .PingReq | .PingResp => True
  | .Disconnect d => DisconnectOk version d
  | .Auth a => version = .V5 ∧ a.properties.BlockOk .Auth

variable {α : Type} {read : Reader α} {put : α → Result Bytes} {size : α → Nat} {Valid : α → Prop}

theorem flagged_back (h : Body read put size Valid) {a : α} (ha : Valid a) (flags : UInt8)
    (mk : α → Packet) :
    ∃ body, put a = .ok body ∧ body.length = size a ∧
      Gives (do
        expect_flags flags flags
        return mk (← read)) body (mk a) [] := by
  obtain ⟨body, hput, hlen, hread⟩ := h.back ha
  exact ⟨body, hput, hlen, (Gives.check rfl body).bind (hread.bind (by simp))⟩

variable {version : ProtocolVersion} {p : Packet}

theorem body_back (h : p.Ok version) (n : Nat) :
    ∃ body, p.encode_body version = .ok body ∧ body.length = p.body_size version ∧
      Gives (decode_body ⟨p.packet_type, p.flags, n⟩ version) body p [] := by
  cases p with
  | Connect c =>
    obtain ⟨body, hput, hlen, hread⟩ := body_connect.back h
    exact ⟨body, hput, hlen, hread.bind (by simp)⟩
  | ConnAck a => exact flagged_back (body_connack version) h 0 .ConnAck
  | Publish p =>
    obtain ⟨body, hput, hlen, hread⟩ := publish_back h
    exact ⟨body, hput, hlen, hread.bind (by simp)⟩
  | PubAck a => exact flagged_back (body_ack version) h 0 .PubAck
  | PubRec a => exact flagged_back (body_ack version) h 0 .PubRec
  | PubRel a => exact flagged_back (body_ack version) h 0x02 .PubRel
  | PubComp a => exact flagged_back (body_ack version) h 0 .PubComp
  | Subscribe s => exact flagged_back (body_subscribe version) h 0x02 .Subscribe
  | SubAck a => exact flagged_back (body_suback version) h 0 .SubAck
  | Unsubscribe u => exact flagged_back (body_unsubscribe version) h 0x02 .Unsubscribe
  | UnsubAck a => exact flagged_back (body_unsuback version) h 0 .UnsubAck
  | PingReq => exact ⟨[], rfl, rfl, (Gives.check rfl []).bind (gives_end.bind (by simp))⟩
  | PingResp => exact ⟨[], rfl, rfl, (Gives.check rfl []).bind (gives_end.bind (by simp))⟩
  | Disconnect d => exact flagged_back (body_disconnect version) h 0 .Disconnect
  | Auth a =>
    obtain ⟨rfl, hblock⟩ := h
    obtain ⟨body, hput, hlen, hread⟩ := (body_reason .Auth).back (a := (a.reason, a.properties)) hblock
    refine ⟨body, hput, hlen, (Gives.check rfl body).bind ?_⟩
    exact (Gives.check rfl body).bind (hread.bind (by simp))

variable {flags : UInt8}

theorem flagged_front (h : Body read put size Valid) {actual : UInt8} (mk : α → Packet)
    {bytes rest : Bytes}
    (hg : Gives (do expect_flags actual flags return mk (← read)) bytes p rest) :
    ∃ a, p = mk a ∧ Valid a ∧ size a ≤ max bytes.length 4 := by
  obtain ⟨u, left, hcheck, hg⟩ := gives_bind.mp hg
  obtain ⟨-, rfl⟩ := gives_check.mp hcheck
  obtain ⟨a, left1, ha, hg⟩ := gives_bind.mp hg
  obtain ⟨rfl, rfl⟩ := gives_pure.mp hg
  exact ⟨a, rfl, h.front ha⟩

theorem body_front {header : FixedHeader} {frame rest : Bytes}
    (hg : Gives (decode_body header version) frame p rest) :
    p.Ok version ∧ p.body_size version ≤ max frame.length 4 := by
  obtain ⟨packet_type, flags, remaining_len⟩ := header
  cases packet_type with
  | Connect =>
    obtain ⟨c, left, hc, hg⟩ := gives_bind.mp hg
    obtain ⟨rfl, rfl⟩ := gives_pure.mp hg
    exact body_connect.front hc
  | ConnAck =>
    obtain ⟨a, rfl, h⟩ := flagged_front (body_connack version) .ConnAck hg
    exact h
  | Publish =>
    obtain ⟨c, left, hc, hg⟩ := gives_bind.mp hg
    obtain ⟨rfl, rfl⟩ := gives_pure.mp hg
    exact publish_front hc
  | PubAck =>
    obtain ⟨a, rfl, h⟩ := flagged_front (body_ack version) .PubAck hg
    exact h
  | PubRec =>
    obtain ⟨a, rfl, h⟩ := flagged_front (body_ack version) .PubRec hg
    exact h
  | PubRel =>
    obtain ⟨a, rfl, h⟩ := flagged_front (body_ack version) .PubRel hg
    exact h
  | PubComp =>
    obtain ⟨a, rfl, h⟩ := flagged_front (body_ack version) .PubComp hg
    exact h
  | Subscribe =>
    obtain ⟨a, rfl, h⟩ := flagged_front (body_subscribe version) .Subscribe hg
    exact h
  | SubAck =>
    obtain ⟨a, rfl, h⟩ := flagged_front (body_suback version) .SubAck hg
    exact h
  | Unsubscribe =>
    obtain ⟨a, rfl, h⟩ := flagged_front (body_unsubscribe version) .Unsubscribe hg
    exact h
  | UnsubAck =>
    obtain ⟨a, rfl, h⟩ := flagged_front (body_unsuback version) .UnsubAck hg
    exact h
  | PingReq | PingResp =>
    obtain ⟨u, left, hcheck, hg⟩ := gives_bind.mp hg
    obtain ⟨v, left1, hend, hg⟩ := gives_bind.mp hg
    obtain ⟨rfl, rfl⟩ := gives_pure.mp hg
    exact ⟨trivial, Nat.zero_le _⟩
  | Disconnect =>
    obtain ⟨a, rfl, h⟩ := flagged_front (body_disconnect version) .Disconnect hg
    exact h
  | Auth =>
    obtain ⟨u, left, hv, hg⟩ := gives_bind.mp hg
    obtain ⟨hversion, rfl⟩ := gives_check.mp hv
    obtain ⟨u, left, hcheck, hg⟩ := gives_bind.mp hg
    obtain ⟨-, rfl⟩ := gives_check.mp hcheck
    obtain ⟨⟨reason, properties⟩, left, hr, hg⟩ := gives_bind.mp hg
    obtain ⟨rfl, rfl⟩ := gives_pure.mp hg
    obtain ⟨hblock, hsize⟩ := (body_reason .Auth).front hr
    exact ⟨⟨hversion, hblock⟩, hsize⟩

/-! ## The header in front -/

def first_byte (p : Packet) : UInt8 := (p.packet_type.to_nibble <<< 4) ||| p.flags

theorem publish_first (dup retain : Bool) (qos : QoS) :
    let flags := (QoS.bits qos <<< 1) ||| bits_if dup 0x08 ||| bits_if retain 0x01
    PacketType.from_nibble ((((3 : UInt8) <<< 4) ||| flags) >>> 4) = .ok .Publish ∧
      (((3 : UInt8) <<< 4) ||| flags) &&& 0x0F = flags := by
  cases dup <;> cases retain <;> cases qos <;> exact ⟨rfl, by decide⟩

theorem plain_first (t : PacketType) (h : flags = 0 ∨ flags = 0x02) :
    PacketType.from_nibble (((t.to_nibble <<< 4) ||| flags) >>> 4) = .ok t ∧
      ((t.to_nibble <<< 4) ||| flags) &&& 0x0F = flags := by
  rcases h with rfl | rfl <;> cases t <;> exact ⟨rfl, by decide⟩

theorem first_byte_back (p : Packet) :
    PacketType.from_nibble (p.first_byte >>> 4) = .ok p.packet_type ∧
      p.first_byte &&& 0x0F = p.flags := by
  cases p with
  | Publish p => exact publish_first p.dup p.retain p.qos
  | PubRel a | Subscribe s | Unsubscribe u => exact plain_first _ (.inr rfl)
  | _ => exact plain_first _ (.inl rfl)

def framed (p : Packet) (body : Bytes) : Bytes :=
  put_u8 p.first_byte ++ varint.encode_loop 4 body.length ++ body

theorem decode_framed {body : Bytes} (hmax : body.length ≤ varint.MAX)
    (hread : Gives (decode_body ⟨p.packet_type, p.flags, body.length⟩ version) body p [])
    (more : Bytes) : decode (p.framed body ++ more) version = (.ok (some p), more) := by
  obtain ⟨htype, hflags⟩ := p.first_byte_back
  have hheadlen := varint.length_encode_loop hmax
  have hheader : FixedHeader.decode (p.framed body) = .ok (some
      (⟨p.packet_type, p.flags, body.length⟩, 1 + varint.encoded_len body.length)) := by
    show FixedHeader.decode (p.first_byte :: (varint.encode_loop 4 body.length ++ body)) = _
    rw [FixedHeader.decode_cons htype, varint.decode_encode hmax, hflags]
  have hlen : (p.framed body).length = 1 + varint.encoded_len body.length + body.length := by
    simp only [framed, put_u8, List.length_append, List.length_singleton, hheadlen]
  have hframe : (p.framed body).drop (1 + varint.encoded_len body.length) = body := by
    apply List.drop_left'
    simp only [put_u8, List.length_append, List.length_singleton, hheadlen]
  rw [decode_frame_append hheader (le_of_eq hlen.symm)]
  dsimp only
  rw [← hlen, List.take_length, hframe, hread, List.drop_length]
  rfl

/-- A packet of the delivery path is sized as it is written. -/
theorem hot_body_len_eq (h : p.Ok version) (hmax : p.body_size version ≤ varint.MAX) :
    p.hot_body_len version = .ok (some (p.body_size version)) ∨
      p.hot_body_len version = .ok none := by
  have hsome {x : Result Nat} {n : Nat} {f : Option Nat → Result (Option Nat)} (hx : x = .ok n)
      (hn : n ≤ varint.MAX) (hf : ∀ n, f (some n) =
        if varint.MAX < n then .error (.ValueOutOfRange "remaining length") else .ok (some n)) :
      some <$> x >>= f = .ok (some n) := by
    subst hx
    exact (hf n).trans (if_neg (Nat.not_lt.mpr hn))
  cases p with
  | Publish p => exact .inl (hsome (publish_len_eq h) hmax fun _ => rfl)
  | PubAck a | PubRec a | PubRel a | PubComp a =>
    exact .inl (hsome (ack_len_eq h) hmax fun _ => rfl)
  | PingReq | PingResp => exact .inl rfl
  | _ => exact .inr rfl

/-! ## There and back -/

/-- The packet encodes, and decodes from its encoding and any bytes behind it to itself,
with just these bytes left. -/
def RoundTrips (version : ProtocolVersion) (p : Packet) : Prop :=
  ∃ bytes, p.encode version = .ok bytes ∧
    ∀ more, decode (bytes ++ more) version = (.ok (some p), more)

theorem ok_roundTrips (h : p.Ok version) (hmax : p.body_size version ≤ varint.MAX) :
    p.RoundTrips version := by
  obtain ⟨body, hput, hlen, hread⟩ := body_back h (p.body_size version)
  rw [← hlen] at hmax hread
  have hauth : ¬ (version ≠ .V5 ∧ p.packet_type = .Auth) := by
    rintro ⟨hversion, htype⟩
    cases p with
    | Auth a => exact hversion h.1
    | _ => cases htype
  have hhead : varint.encode body.length = .ok (varint.encode_loop 4 body.length) :=
    if_neg (Nat.not_lt.mpr hmax)
  have hshort : ¬ 2 ^ 32 ≤ body.length := by
    unfold varint.MAX at hmax
    omega
  refine ⟨p.framed body, ?_, decode_framed hmax hread⟩
  rw [encode, if_neg hauth]
  rcases hot_body_len_eq h (by rw [← hlen]; exact hmax) with hhot | hhot
  · rw [hhot, ← hlen]
    simp only [bind, Except.bind, hhead, hput]
    rfl
  · rw [hhot]
    simp only [bind, Except.bind, hput, if_neg hshort, hhead]
    rfl

theorem decoded_ok {buf rest : Bytes} (h : decode buf version = (.ok (some p), rest)) :
    p.Ok version ∧ p.body_size version ≤ varint.MAX := by
  rcases decode_cases buf version with ⟨e, -, he⟩ | hnone | ⟨header, n, hh, hlen, hrun⟩
  · rw [he] at h
    cases h
  · rw [hnone] at h
    cases h
  · rw [hrun] at h
    split at h
    · rename_i packet left hbody
      cases h
      obtain ⟨hok, hsize⟩ := body_front hbody
      obtain ⟨first, tail, consumed, rfl, -, -, hv, rfl⟩ := FixedHeader.decode_some hh
      have hmax := (varint.decode_bounds hv).1
      refine ⟨hok, ?_⟩
      simp only [List.length_drop, List.length_take] at hsize
      unfold varint.MAX at hmax ⊢
      omega
    · cases h

end Packet

/-! ## Well-formed packets -/

/-- What is asked of the values that a type of the source holds but a packet may not. -/
structure Limits where
  property : Property → Prop
  retain_handling : UInt8 → Prop
  auth : ProtocolVersion → Prop

/-- The strings and the binary data of a property fit their fields. -/
def Property.Bounded : Property → Prop
  | ContentType v | ResponseTopic v | AssignedClientIdentifier v | AuthenticationMethod v
  | ResponseInformation v | ServerReference v | ReasonString v => StringOk v
  | CorrelationData v | AuthenticationData v => BinaryOk v
  | UserProperty key value => StringOk key ∧ StringOk value
  | _ => True

/-- Only the lengths count. -/
def Limits.lengths : Limits := ⟨Property.Bounded, fun _ => True, fun _ => True⟩

/-- The values that decoding accepts: flags are 0 or 1, a subscription identifier is a
variable byte integer, the retain handling is one of three, and AUTH is of version 5. -/
def Limits.accepted : Limits := ⟨Property.Ok, (· ≤ 2), (· = .V5)⟩

/-- Properties that a packet of the type may carry in version 5, none in 3.1.1. -/
def Properties.Fit (limits : Limits) (version : ProtocolVersion) (ctx : PropContext)
    (ps : Properties) : Prop :=
  if version = .V5 then (∀ p ∈ ps, limits.property p) ∧ ps.validate_for ctx = .ok () else ps = []

def SubscribeFilter.Fit (limits : Limits) (version : ProtocolVersion) (f : SubscribeFilter) :
    Prop :=
  StringOk f.path ∧
    if version = .V5 then limits.retain_handling f.options.retain_handling else f.options = {}

def LastWill.Fit (limits : Limits) (version : ProtocolVersion) (w : LastWill) : Prop :=
  w.properties.Fit limits version .Will ∧ StringOk w.topic ∧ BinaryOk w.payload

namespace Packet

def Fields (limits : Limits) (version : ProtocolVersion) : Packet → Prop
  | .Connect c =>
    c.properties.Fit limits c.protocol .Connect ∧ StringOk c.client_id ∧
      (∀ w, c.last_will = some w → w.Fit limits c.protocol) ∧
      (∀ s, c.username = some s → StringOk s) ∧ (∀ b, c.password = some b → BinaryOk b) ∧
      (c.password.isSome = true → c.username.isSome = true)
  | .ConnAck a => a.properties.Fit limits version .ConnAck
  | .Publish p =>
    (p.pkid.isSome = true ↔ p.qos ≠ .AtMostOnce) ∧ (∀ id, p.pkid = some id → id ≠ 0) ∧
      ¬ (p.qos = .AtMostOnce ∧ p.dup = true) ∧ StringOk p.topic ∧
      p.properties.Fit limits version .Publish
  | .PubAck a | .PubRec a | .PubRel a | .PubComp a =>
    (version = .V311 → a.reason = 0) ∧ a.properties.Fit limits version .PubAck
  | .Subscribe s =>
    s.filters ≠ [] ∧ (∀ f ∈ s.filters, f.Fit limits version) ∧
      s.properties.Fit limits version .Subscribe
  | .SubAck a => a.return_codes ≠ [] ∧ a.properties.Fit limits version .SubAck
  | .Unsubscribe u =>
    u.filters ≠ [] ∧ (∀ f ∈ u.filters, StringOk f) ∧ u.properties.Fit limits version .Unsubscribe
  | .UnsubAck a =>
    (if version = .V5 then a.reason_codes ≠ [] else a.reason_codes = []) ∧
      a.properties.Fit limits version .UnsubAck
  | .PingReq | .PingResp => True
  | .Disconnect d =>
    (version = .V311 → d.reason = 0) ∧ d.properties.Fit limits version .Disconnect
  | .Auth a =>
    limits.auth version ∧ (version = .V311 → a.reason = 0) ∧
      a.properties.Fit limits version .Auth

/-- A packet whose fields are well formed and whose body a header can announce. -/
def WellFormed (limits : Limits) (version : ProtocolVersion) (p : Packet) : Prop :=
  p.Fields limits version ∧ p.body_size version ≤ varint.MAX

end Packet

theorem Properties.Fit.ok (h : ps.Fit .accepted version ctx)
    (hmax : prop_size version ps ≤ varint.MAX) : PropsOk version ctx ps := by
  unfold Properties.Fit at h
  unfold PropsOk
  unfold prop_size at hmax
  split
  · rw [if_pos ‹_›] at h hmax
    unfold Properties.block_size at hmax
    exact ⟨h, by omega⟩
  · rw [if_neg ‹_›] at h
    exact h

namespace Packet

variable {version : ProtocolVersion}

/-- The body of an acknowledgement holds its properties, unless it has none. -/
theorem ackOk_of_fields {a : mqtt_codec.Ack} (hreason : version = .V311 → a.reason = 0)
    (hfit : a.properties.Fit .accepted version .PubAck) (hmax : ack_size version a ≤ varint.MAX) :
    AckOk version a := by
  cases version with
  | V311 => exact ⟨hreason rfl, hfit⟩
  | V5 =>
    show a.properties.BlockOk .PubAck
    unfold ack_size at hmax
    split at hmax
    · have hblock : prop_size .V5 a.properties ≤ varint.MAX := by
        show a.properties.block_size ≤ _
        omega
      exact hfit.ok hblock
    · rename_i hlong
      rw [(not_long fun h => hlong ⟨rfl, h⟩).2]
      exact Properties.blockOk_nil _

variable {ctx : PropContext} {ps : Properties}

theorem reasonOk_of_fields {reason : UInt8} (hfit : ps.Fit .accepted .V5 ctx)
    (hmax : reason_size (reason, ps) ≤ varint.MAX) : ps.BlockOk ctx := by
  unfold reason_size at hmax
  split at hmax
  · have hblock : prop_size .V5 ps ≤ varint.MAX := by
      show ps.block_size ≤ _
      dsimp only at hmax
      omega
    exact hfit.ok hblock
  · rename_i hlong
    have hp : ps = [] := (not_long hlong).2
    rw [hp]
    exact Properties.blockOk_nil _

theorem listedOk_of_fields {α : Type} {Valid : α → Prop} {size : α → Nat} {l : List α}
    (hne : l ≠ []) (hvalid : ∀ a ∈ l, Valid a) (hfit : ps.Fit .accepted version ctx)
    (hmax : listed_size version size l ps ≤ varint.MAX) : ListedOk version ctx Valid l ps := by
  unfold listed_size at hmax
  exact ⟨hne, hvalid, hfit.ok (by omega)⟩

theorem connectOk_of_fields {c : mqtt_codec.Connect}
    (h : (Packet.Connect c).Fields .accepted version) (hmax : connect_size c ≤ varint.MAX) :
    ConnectOk c := by
  obtain ⟨hprops, hid, hwill, huser, hpass, hlogin⟩ := h
  unfold connect_size at hmax
  refine ⟨hprops.ok (by omega), hid, ?_, huser, hpass, ?_⟩
  · intro w hw
    obtain ⟨hfit, htopic, hpayload⟩ := hwill w hw
    rw [hw] at hmax
    simp only [option_size, will_size] at hmax
    exact ⟨hfit.ok (by omega), htopic, hpayload⟩
  · rintro ⟨hp, hu⟩
    rw [hlogin hp] at hu
    cases hu

theorem wellFormed_ok {p : Packet} (h : p.WellFormed .accepted version) : p.Ok version := by
  obtain ⟨hfields, hmax⟩ := h
  cases p with
  | Connect c => exact connectOk_of_fields hfields hmax
  | ConnAck a =>
    simp only [body_size, connack_size] at hmax
    exact Properties.Fit.ok hfields (by omega)
  | Publish p =>
    obtain ⟨hpresent, hid, hdup, htopic, hfit⟩ := hfields
    simp only [body_size, publish_size] at hmax
    refine ⟨hdup, ?_, hid, htopic, hfit.ok (by omega)⟩
    rw [Bool.eq_iff_iff, hpresent, decide_eq_true_iff]
  | PubAck a | PubRec a | PubRel a | PubComp a => exact ackOk_of_fields hfields.1 hfields.2 hmax
  | Subscribe s => exact listedOk_of_fields hfields.1 hfields.2.1 hfields.2.2 hmax
  | SubAck a => exact listedOk_of_fields hfields.1 (fun _ _ => trivial) hfields.2 hmax
  | Unsubscribe u => exact listedOk_of_fields hfields.1 hfields.2.1 hfields.2.2 hmax
  | UnsubAck a =>
    cases version with
    | V311 => exact hfields
    | V5 => exact listedOk_of_fields hfields.1 (fun _ _ => trivial) hfields.2 hmax
  | PingReq | PingResp => trivial
  | Disconnect d =>
    cases version with
    | V311 => exact ⟨hfields.1 rfl, hfields.2⟩
    | V5 => exact reasonOk_of_fields hfields.2 hmax
  | Auth a =>
    obtain ⟨hversion, -, hfit⟩ := hfields
    have hv : version = .V5 := hversion
    subst hv
    exact ⟨rfl, reasonOk_of_fields hfit hmax⟩

end Packet

/-- What was decoded encodes again and decodes to itself, and so does every well-formed
packet. -/
theorem packets_round_trip (version : ProtocolVersion) :
    (∀ buf p rest, Packet.decode buf version = (.ok (some p), rest) → p.RoundTrips version) ∧
      ∀ p : Packet, p.WellFormed .accepted version → p.RoundTrips version := by
  constructor
  · intro buf p rest h
    exact Packet.ok_roundTrips (Packet.decoded_ok h).1 (Packet.decoded_ok h).2
  · intro p h
    exact Packet.ok_roundTrips (Packet.wellFormed_ok h) h.2

/-- A PUBLISH with properties and a payload, there and back. -/
theorem a_publish_round_trips :
    (Packet.Publish ⟨true, .ExactlyOnce, true, "a/b", some 7,
      [.TopicAlias 3, .UserProperty "k" "v"], [1, 0, 2]⟩).RoundTrips .V5 := by
  refine (packets_round_trip .V5).2 _ ⟨⟨?_, ?_, ?_, ?_, ?_⟩, ?_⟩
  · decide
  · rintro id h
    cases h
    decide
  · decide
  · decide +kernel
  · refine ⟨?_, rfl⟩
    intro p hp
    rcases List.mem_cons.mp hp with rfl | hp
    · trivial
    · rw [List.mem_singleton.mp hp]
      exact ⟨by decide +kernel, by decide +kernel⟩
  · decide +kernel

variable {p : Packet}

theorem Packet.not_written {e : CodecError} (h : p.encode version = .error e) :
    ¬ p.RoundTrips version := by
  rintro ⟨bytes, hbytes, -⟩
  rw [h] at hbytes
  cases hbytes

theorem Packet.not_read_back {b : Bytes} (h : p.encode version = .ok b)
    (hread : decode b version ≠ (.ok (some p), [])) : ¬ p.RoundTrips version := by
  rintro ⟨bytes', hbytes, hback⟩
  rw [h] at hbytes
  cases hbytes
  have hall := hback []
  rw [List.append_nil] at hall
  exact hread hall

/-- Lengths alone are not enough: a retain handling of 3 and a flag of 2 are written and
then refused, a subscription identifier of 2^28 is not written, nor an AUTH of 3.1.1. -/
theorem lengths_do_not_round_trip :
    let handling := Packet.Subscribe ⟨1, [⟨"a", .AtMostOnce, { retain_handling := 3 }⟩], []⟩
    let flag := Packet.Publish ⟨false, .AtMostOnce, false, "a", none,
      [.PayloadFormatIndicator 2], []⟩
    let identifier := Packet.Subscribe ⟨1, [⟨"a", .AtMostOnce, {}⟩],
      [.SubscriptionIdentifier 268435456]⟩
    let auth := Packet.Auth ⟨0, []⟩
    (handling.WellFormed .lengths .V5 ∧ ¬ handling.RoundTrips .V5) ∧
      (flag.WellFormed .lengths .V5 ∧ ¬ flag.RoundTrips .V5) ∧
      (identifier.WellFormed .lengths .V5 ∧ ¬ identifier.RoundTrips .V5) ∧
      (auth.WellFormed .lengths .V311 ∧ ¬ auth.RoundTrips .V311) := by
  have hpath : StringOk "a" := by decide +kernel
  have hfilter : ∀ n, ∀ f ∈ [(⟨"a", .AtMostOnce, { retain_handling := n }⟩ : SubscribeFilter)],
      f.Fit .lengths .V5 := by
    intro n f hf
    rw [List.mem_singleton.mp hf]
    exact ⟨hpath, trivial⟩
  refine ⟨⟨⟨⟨by decide, hfilter 3, ⟨by simp, rfl⟩⟩, by decide +kernel⟩, ?_⟩,
    ⟨⟨⟨by decide, by simp, by decide, hpath, ⟨?_, rfl⟩⟩, by decide +kernel⟩, ?_⟩,
    ⟨⟨⟨by decide, hfilter 0, ⟨?_, rfl⟩⟩, by decide +kernel⟩, ?_⟩,
    ⟨⟨⟨trivial, fun _ => rfl, rfl⟩, by decide +kernel⟩, ?_⟩⟩
  · apply Packet.not_read_back (b := [0x82, 7, 0, 1, 0, 0, 1, 97, 0x30])
    · decide +kernel
    · decide +kernel
  · intro p hp
    rw [List.mem_singleton.mp hp]
    trivial
  · apply Packet.not_read_back (b := [0x30, 6, 0, 1, 97, 2, 1, 2])
    · decide +kernel
    · decide +kernel
  · intro p hp
    rw [List.mem_singleton.mp hp]
    trivial
  · apply Packet.not_written (e := .ValueOutOfRange "variable byte integer")
    decide +kernel
  · apply Packet.not_written (e := .ProtocolViolation "AUTH is MQTT 5.0 only")
    decide +kernel

end mqtt_codec
